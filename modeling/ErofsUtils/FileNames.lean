import Mathlib.Logic.Basic
import Mathlib.Data.List.Basic

/-!
# Names for inodes

A table of names, each for the number of an inode, and what the inodes are. Several names may
stand for one inode. The lemmas say what a name stands for after each of the operations: a new
inode, a new name for an old one, a name taken away, an inode changed.
-/

namespace ErofsUtils

structure FileNames (π κ : Type*) where
  entries : List (π × ℕ)
  kind : ℕ → κ
  next : ℕ

namespace FileNames

variable {π κ : Type*}

def create (t : FileNames π κ) (p : π) (k : κ) : FileNames π κ where
  entries := (p, t.next) :: t.entries
  kind := fun i => if i = t.next then k else t.kind i
  next := t.next + 1

def addName (t : FileNames π κ) (p : π) (i : ℕ) : FileNames π κ :=
  { t with entries := (p, i) :: t.entries }

def write (t : FileNames π κ) (i : ℕ) (k : κ) : FileNames π κ :=
  { t with kind := fun j => if j = i then k else t.kind j }

theorem kind_create_of_lt {t : FileNames π κ} {p : π} {i : ℕ} {k : κ} (h : i < t.next) :
    (t.create p k).kind i = t.kind i :=
  if_neg (Nat.ne_of_lt h)

theorem kind_create_next (t : FileNames π κ) (p : π) (k : κ) :
    (t.create p k).kind t.next = k :=
  if_pos rfl

theorem write_create (t : FileNames π κ) (p : π) (k k' : κ) :
    (t.create p k).write t.next k' = t.create p k' := by
  simp only [FileNames.write, FileNames.create, FileNames.mk.injEq, true_and, and_true]
  funext j
  split
  · rfl
  · rfl

variable [DecidableEq π]

/-- The inode that a name stands for. -/
def find (t : FileNames π κ) (p : π) : Option ℕ := (t.entries.find? (·.1 = p)).map (·.2)

def look (t : FileNames π κ) (p : π) : Option κ := (t.find p).map t.kind

def erase (t : FileNames π κ) (p : π) : FileNames π κ :=
  { t with entries := t.entries.filter (·.1 ≠ p) }

/-- Every name stands for an inode that has been made. -/
def Fresh (t : FileNames π κ) : Prop := ∀ p i, t.find p = some i → i < t.next

variable {t : FileNames π κ} {p q : π} {i : ℕ} {k : κ}

theorem find_cons (e : π × ℕ) :
    ({ t with entries := e :: t.entries } : FileNames π κ).find q =
      if q = e.1 then some e.2 else t.find q := by
  unfold find
  by_cases h : q = e.1
  · rw [if_pos h, List.find?_cons_of_pos (by simpa using h.symm)]
    rfl
  · rw [if_neg h, List.find?_cons_of_neg (by simpa using Ne.symm h)]

theorem find_create : (t.create p k).find q = if q = p then some t.next else t.find q :=
  find_cons (t := { t with kind := (t.create p k).kind, next := t.next + 1 }) (p, t.next)

theorem find_addName : (t.addName p i).find q = if q = p then some i else t.find q :=
  find_cons (p, i)

theorem look_eq_some : t.look p = some k ↔ ∃ i, t.find p = some i ∧ t.kind i = k := by
  rw [look, Option.map_eq_some_iff]

theorem look_eq_none : t.look p = none ↔ t.find p = none := by
  rw [look, Option.map_eq_none_iff]

theorem look_create (h : t.Fresh) :
    (t.create p k).look q = if q = p then some k else t.look q := by
  rw [look, find_create]
  by_cases hq : q = p
  · rw [if_pos hq, if_pos hq, Option.map_some, kind_create_next]
  · rw [if_neg hq, if_neg hq, look]
    cases hf : t.find q with
    | none => rfl
    | some i => rw [Option.map_some, Option.map_some, kind_create_of_lt (h q i hf)]

theorem look_addName : (t.addName p i).look q = if q = p then some (t.kind i) else t.look q := by
  rw [look, find_addName]
  by_cases hq : q = p
  · rw [if_pos hq, if_pos hq]
    rfl
  · rw [if_neg hq, if_neg hq]
    rfl

theorem Fresh.create (h : t.Fresh) : (t.create p k).Fresh := by
  intro q j hj
  rw [find_create] at hj
  split at hj
  · cases hj
    exact Nat.lt_succ_self _
  · exact Nat.lt_succ_of_lt (h q j hj)

theorem Fresh.addName (h : t.Fresh) (hi : i < t.next) : (t.addName p i).Fresh := by
  intro q j hj
  rw [find_addName] at hj
  split at hj
  · cases hj
    exact hi
  · exact h q j hj

end FileNames

end ErofsUtils
