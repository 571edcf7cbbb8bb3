import Mathlib.Data.List.Nodup
import Mathlib.Data.Finset.Dedup
import Mathlib.Logic.Function.Basic

/-!
# Chains of pointers

Singly linked lists in a memory of cells: each head and each cell holds a pointer, and the chain
from a pointer visits the cells of a list until a null pointer ends it. A place is where a pointer
is stored, so that a cell is pushed and unlinked by one store. At last, many heads at once: every
head has the list of the cells that are at home there, and the chains of old heads are moved to
new ones.
-/

namespace ErofsUtils

structure Cells (ι α : Type*) where
  head : ι → Option α
  next : α → Option α

/-- From the pointer `p` the cells of the list follow each other, and the last one ends the chain. -/
inductive PointerChain {α : Type*} (next : α → Option α) : Option α → List α → Prop
  | nil : PointerChain next none []
  | cons {a : α} {l : List α} : PointerChain next (next a) l → PointerChain next (some a) (a :: l)

namespace PointerChain

variable {α : Type*} {next : α → Option α} {p : Option α} {l : List α}

theorem unique {l' : List α} (h : PointerChain next p l) (h' : PointerChain next p l') :
    l = l' := by
  induction h generalizing l' with
  | nil =>
      cases h'
      rfl
  | cons _ ih =>
      cases h' with
      | cons h' => rw [ih h']

theorem tail_of_append {u v : List α} {a : α} (h : PointerChain next p (u ++ a :: v)) :
    PointerChain next (next a) v := by
  induction u generalizing p with
  | nil =>
      cases h with
      | cons h => exact h
  | cons b u ih =>
      cases h with
      | cons h => exact ih h

/-- A chain that ends meets no cell twice. -/
theorem nodup (h : PointerChain next p l) : l.Nodup := by
  induction h with
  | nil => exact List.nodup_nil
  | @cons a l hl ih =>
      refine List.nodup_cons.mpr ⟨?_, ih⟩
      intro hmem
      obtain ⟨u, v, rfl⟩ := List.append_of_mem hmem
      have hlen := congrArg List.length (hl.unique hl.tail_of_append)
      rw [List.length_append, List.length_cons] at hlen
      omega

theorem congr {next' : α → Option α} (h : PointerChain next p l)
    (heq : ∀ a ∈ l, next' a = next a) : PointerChain next' p l := by
  induction h with
  | nil => exact .nil
  | @cons a l _ ih =>
      have ha := heq a List.mem_cons_self
      refine .cons ?_
      rw [ha]
      exact ih fun b hb => heq b (List.mem_cons_of_mem a hb)

variable [DecidableEq α]

theorem update {a : α} (q : Option α) (h : PointerChain next p l) (ha : a ∉ l) :
    PointerChain (Function.update next a q) p l := by
  refine h.congr ?_
  intro b hb
  exact Function.update_of_ne (ne_of_mem_of_not_mem hb ha) q next

/-- A new cell that points to a chain goes in front of it. -/
theorem push {a : α} (h : PointerChain next p l) (ha : a ∉ l) :
    PointerChain (Function.update next a p) (some a) (a :: l) := by
  refine .cons ?_
  rw [Function.update_self]
  exact h.update p ha

/-- The pointer of the cell in front of `a` is sent behind `a`. -/
theorem unlink {u v : List α} {b a : α} (h : PointerChain next p (u ++ b :: a :: v)) :
    PointerChain (Function.update next b (next a)) p (u ++ b :: v) := by
  induction u generalizing p with
  | nil =>
      have hnodup := h.nodup
      cases h with
      | cons h =>
          refine .cons ?_
          rw [Function.update_self]
          cases hb : next b with
          | none =>
              rw [hb] at h
              cases h
          | some c =>
              rw [hb] at h
              cases h with
              | cons h =>
                  refine h.update _ ?_
                  intro hmem
                  exact (List.nodup_cons.mp hnodup).1 (List.mem_cons_of_mem _ hmem)
  | cons c u ih =>
      have hnodup := h.nodup
      cases h with
      | cons h =>
          have hc : c ≠ b := by
            rintro rfl
            exact (List.nodup_cons.mp hnodup).1 (by simp)
          refine .cons ?_
          rw [Function.update_of_ne hc]
          exact ih h

end PointerChain

inductive Place (ι α : Type*)
  | head (i : ι)
  | next (a : α)

namespace Cells

variable {ι α : Type*} (m : Cells ι α)

def load : Place ι α → Option α
  | .head i => m.head i
  | .next a => m.next a

/-- From a place on, the first one whose pointer is null or points to a cell that `stop` takes; the
first argument bounds the steps. -/
def seek (stop : α → Bool) : ℕ → Place ι α → Place ι α
  | 0, place => place
  | n + 1, place =>
    match m.load place with
    | none => place
    | some a => if stop a then place else seek stop n (.next a)

section Seek

variable {m} {stop : α → Bool} {place : Place ι α} {l : List α} {n : ℕ}

theorem seek_of_none (hp : m.load place = none) : m.seek stop n place = place := by
  cases n with
  | zero => rfl
  | succ n => rw [seek, hp]

theorem seek_of_some {a : α} (hp : m.load place = some a) :
    m.seek stop (n + 1) place = if stop a then place else m.seek stop n (.next a) := by
  rw [seek, hp]

/-- A search that may take more steps than the chain has cells finds the first of them that is
taken. -/
theorem load_seek (h : PointerChain m.next (m.load place) l) (hn : l.length < n) :
    m.load (m.seek stop n place) = l.find? stop := by
  induction n generalizing place l with
  | zero => exact absurd hn (Nat.not_lt_zero _)
  | succ n ih =>
      cases hp : m.load place with
      | none =>
          rw [hp] at h
          cases h
          rw [seek_of_none hp, List.find?_nil]
          exact hp
      | some a =>
          rw [hp] at h
          cases h with
          | @cons _ l h =>
              rw [seek_of_some hp, List.find?_cons]
              cases hs : stop a with
              | true =>
                  rw [if_pos rfl]
                  exact hp
              | false =>
                  rw [if_neg Bool.false_ne_true]
                  exact ih h (Nat.lt_of_succ_lt_succ hn)

/-- Where the search for a cell of the chain ends: at the place it began from, or in the cell in
front. -/
theorem seek_eq (h : PointerChain m.next (m.load place) l) (hn : l.length < n) {u v : List α}
    {a : α} (hl : l = u ++ a :: v) (hu : ∀ b ∈ u, stop b = false) (ha : stop a = true) :
    m.seek stop n place = (u.getLast?).elim place .next := by
  induction n generalizing place l u with
  | zero => exact absurd hn (Nat.not_lt_zero _)
  | succ n ih =>
      subst hl
      cases u with
      | nil =>
          cases hp : m.load place with
          | none =>
              rw [hp] at h
              cases h
          | some b =>
              rw [hp] at h
              cases h
              rw [seek_of_some hp, if_pos ha]
              rfl
      | cons c u =>
          cases hp : m.load place with
          | none =>
              rw [hp] at h
              cases h
          | some b =>
              rw [hp] at h
              cases h with
              | cons h =>
                  have hc : stop c = false := hu c List.mem_cons_self
                  have hchain : PointerChain m.next (m.load (.next c)) (u ++ a :: v) := h
                  have hrest := ih hchain (Nat.lt_of_succ_lt_succ hn) rfl
                    fun b hb => hu b (List.mem_cons_of_mem c hb)
                  rw [seek_of_some hp, hc, if_neg Bool.false_ne_true, hrest]
                  cases u with
                  | nil => rfl
                  | cons d u =>
                      rw [List.getLast?_cons_cons]
                      rfl

end Seek

section Store

variable [DecidableEq ι] [DecidableEq α]

def store (place : Place ι α) (p : Option α) : Cells ι α :=
  match place with
  | .head i => { m with head := Function.update m.head i p }
  | .next a => { m with next := Function.update m.next a p }

/-- A cell goes in front of the chain of a head. -/
def push (i : ι) (a : α) : Cells ι α :=
  (m.store (.next a) (m.head i)).store (.head i) (some a)

end Store

section Move

variable [DecidableEq ι] [DecidableEq α] (home : α → ι)

/-- The cells from a pointer on, at most as many as the second argument says, are pushed one after
the other where they are at home. -/
def moveChain : Cells ι α → ℕ → Option α → Cells ι α
  | m, 0, _ => m
  | m, _ + 1, none => m
  | m, n + 1, some a => moveChain (m.push (home a) a) n (m.next a)

/-- The chains of `n` old heads from `i` on are moved, of at most `bound` cells each. -/
def moveHeads (bound : ℕ) (old : ℕ → Option α) : Cells ι α → ℕ → ℕ → Cells ι α
  | m, 0, _ => m
  | m, n + 1, i => moveHeads bound old (moveChain home m bound (old i)) n (i + 1)

end Move

structure Holds (home : α → ι) (lists : ι → List α) : Prop where
  chain : ∀ i, PointerChain m.next (m.head i) (lists i)
  atHome : ∀ i, ∀ a ∈ lists i, home a = i

namespace Holds

variable {m} {home : α → ι} {lists : ι → List α}

theorem mem_home (h : m.Holds home lists) {i : ι} {a : α} (ha : a ∈ lists i) :
    a ∈ lists (home a) := by
  rw [h.atHome i a ha]
  exact ha

variable [DecidableEq ι] [DecidableEq α]

theorem push (h : m.Holds home lists) {a : α} (ha : a ∉ lists (home a)) :
    (m.push (home a) a).Holds home (Function.update lists (home a) (a :: lists (home a))) := by
  have hnot : ∀ i, a ∉ lists i := fun i hmem => ha (h.mem_home hmem)
  constructor
  · intro i
    by_cases hi : i = home a
    · subst hi
      rw [Function.update_self]
      simp only [Cells.push, store, Function.update_self]
      exact (h.chain _).push ha
    · rw [Function.update_of_ne hi]
      simp only [Cells.push, store, Function.update_of_ne hi]
      exact (h.chain i).update _ (hnot i)
  · intro i b hb
    by_cases hi : i = home a
    · subst hi
      rw [Function.update_self] at hb
      cases List.mem_cons.mp hb with
      | inl hb => rw [hb]
      | inr hb => exact h.atHome _ b hb
    · rw [Function.update_of_ne hi] at hb
      exact h.atHome i b hb

/-- The cell `a` is unlinked by a store behind the cell in front of it, or at its head. -/
theorem unlink (h : m.Holds home lists) {a : α} {u v : List α}
    (hl : lists (home a) = u ++ a :: v) :
    (m.store ((u.getLast?).elim (.head (home a)) .next) (m.next a)).Holds home
      (Function.update lists (home a) (u ++ v)) := by
  have hchain := h.chain (home a)
  rw [hl] at hchain
  have hmem : ∀ b ∈ u ++ v, b ∈ lists (home a) := by
    intro b hb
    rw [hl]
    rw [List.mem_append] at hb ⊢
    exact hb.imp_right (List.mem_cons_of_mem a)
  constructor
  · intro i
    rcases List.eq_nil_or_concat u with rfl | ⟨w, b, rfl⟩
    · simp only [List.getLast?_nil, Option.elim, store, List.nil_append]
      by_cases hi : i = home a
      · subst hi
        rw [Function.update_self, Function.update_self]
        exact hchain.tail_of_append (u := [])
      · rw [Function.update_of_ne hi, Function.update_of_ne hi]
        exact h.chain i
    · simp only [List.concat_eq_append, List.getLast?_concat, Option.elim, store] at hchain hmem ⊢
      by_cases hi : i = home a
      · subst hi
        rw [Function.update_self]
        rw [List.append_assoc, List.singleton_append] at hchain ⊢
        exact hchain.unlink
      · rw [Function.update_of_ne hi]
        refine (h.chain i).update _ ?_
        intro hb
        have hbi := h.atHome i b hb
        have hba := h.atHome _ b (hmem b (by simp))
        exact hi (hbi.symm.trans hba)
  · intro i b hb
    by_cases hi : i = home a
    · subst hi
      rw [Function.update_self] at hb
      exact h.atHome _ b (hmem b hb)
    · rw [Function.update_of_ne hi] at hb
      exact h.atHome i b hb

theorem moveChain (h : m.Holds home lists) {n : ℕ} {p : Option α} {rest : List α}
    (hp : PointerChain m.next p rest) (hnew : ∀ a ∈ rest, a ∉ lists (home a))
    (hn : rest.length ≤ n) :
    ∃ lists', (Cells.moveChain home m n p).Holds home lists' ∧
      (∀ a, a ∈ lists' (home a) ↔ a ∈ rest ∨ a ∈ lists (home a)) ∧
      ∀ a ∉ rest, (Cells.moveChain home m n p).next a = m.next a := by
  induction n generalizing m lists p rest with
  | zero =>
      rw [List.eq_nil_of_length_eq_zero (Nat.le_zero.mp hn)]
      exact ⟨lists, h, by simp, fun _ _ => rfl⟩
  | succ n ih =>
      cases hp with
      | nil => exact ⟨lists, h, by simp, fun _ _ => rfl⟩
      | @cons a rest hrest =>
          have hnodup := (PointerChain.cons hrest).nodup
          have ha : a ∉ rest := (List.nodup_cons.mp hnodup).1
          have hpushed : ∀ b, b ∈ Function.update lists (home a) (a :: lists (home a)) (home b) ↔
              b = a ∨ b ∈ lists (home b) := by
            intro b
            by_cases hb : home b = home a
            · rw [hb, Function.update_self, List.mem_cons]
            · rw [Function.update_of_ne hb]
              have hne : b ≠ a := fun heq => hb (congrArg home heq)
              simp [hne]
          have hchain : PointerChain (m.push (home a) a).next (m.next a) rest :=
            hrest.update _ ha
          obtain ⟨lists', hholds, hmem, hframe⟩ := ih (h.push (hnew a List.mem_cons_self)) hchain
            (by
              intro b hb hin
              cases (hpushed b).mp hin with
              | inl heq => exact ha (heq ▸ hb)
              | inr hin => exact hnew b (List.mem_cons_of_mem a hb) hin)
            (Nat.le_of_succ_le_succ hn)
          refine ⟨lists', hholds, ?_, ?_⟩
          · intro b
            rw [hmem, hpushed, List.mem_cons]
            tauto
          · intro b hb
            rw [List.mem_cons, not_or] at hb
            rw [Cells.moveChain, hframe b hb.2]
            exact Function.update_of_ne hb.1 _ _

theorem moveHeads (h : m.Holds home lists) {bound n i : ℕ} {old : ℕ → Option α}
    {oldLists : ℕ → List α} (hold : ∀ j, i ≤ j → PointerChain m.next (old j) (oldLists j))
    (hapart : ∀ j k a, a ∈ oldLists j → a ∈ oldLists k → j = k)
    (hnew : ∀ j, i ≤ j → ∀ a ∈ oldLists j, a ∉ lists (home a))
    (hbound : ∀ j, (oldLists j).length ≤ bound) :
    ∃ lists', (Cells.moveHeads home bound old m n i).Holds home lists' ∧
      ∀ a, a ∈ lists' (home a) ↔
        (∃ j, i ≤ j ∧ j < i + n ∧ a ∈ oldLists j) ∨ a ∈ lists (home a) := by
  induction n generalizing m lists i with
  | zero =>
      refine ⟨lists, h, ?_⟩
      intro a
      have hnone : ¬ ∃ j, i ≤ j ∧ j < i + 0 ∧ a ∈ oldLists j := by
        rintro ⟨j, hij, hji, -⟩
        omega
      simp only [hnone, false_or]
  | succ n ih =>
      obtain ⟨lists₁, h₁, hmem₁, hframe⟩ :=
        h.moveChain (hold i le_rfl) (hnew i le_rfl) (hbound i)
      obtain ⟨lists₂, h₂, hmem₂⟩ := ih (i := i + 1) h₁
        (by
          intro j hj
          refine (hold j (by omega)).congr ?_
          intro a ha
          refine hframe a ?_
          intro hai
          have := hapart j i a ha hai
          omega)
        (by
          intro j hj a ha hin
          cases (hmem₁ a).mp hin with
          | inl hai =>
              have := hapart j i a ha hai
              omega
          | inr hin => exact hnew j (by omega) a ha hin)
      refine ⟨lists₂, h₂, ?_⟩
      intro a
      rw [hmem₂, hmem₁]
      constructor
      · rintro (⟨j, hij, hji, ha⟩ | ha | ha)
        · exact Or.inl ⟨j, by omega, by omega, ha⟩
        · exact Or.inl ⟨i, le_rfl, by omega, ha⟩
        · exact Or.inr ha
      · rintro (⟨j, hij, hji, ha⟩ | ha)
        · rcases Nat.eq_or_lt_of_le hij with rfl | hlt
          · exact Or.inr (Or.inl ha)
          · exact Or.inl ⟨j, hlt, by omega, ha⟩
        · exact Or.inr (Or.inr ha)

end Holds

end Cells

end ErofsUtils
