import Mathlib.Algebra.BigOperators.Group.List.Basic
import Mathlib.Algebra.GroupWithZero.Nat

/-!
# Runs of consecutive addresses

A list that has an address at some of its places is cut into the longest runs whose addresses are
consecutive. The definition goes through the list with the run that is open; the lemmas say how it
goes over a stretch of addresses or of gaps at once.
-/

namespace ErofsUtils.BlockRuns

/-- A run: the place it begins at, its first address and its length. -/
@[ext] structure Run where
  pos : ℕ
  start : ℕ
  len : ℕ
deriving DecidableEq

/-- The runs of a list whose first place is `pos`, behind the open run `p`. -/
def runs : Option Run → ℕ → List (Option ℕ) → List Run
  | p, _, [] => p.toList
  | p, pos, none :: l => p.toList ++ runs none (pos + 1) l
  | none, pos, some a :: l => runs (some ⟨pos, a, 1⟩) (pos + 1) l
  | some r, pos, some a :: l =>
    if a = r.start + r.len then runs (some ⟨r.pos, r.start, r.len + 1⟩) (pos + 1) l
    else r :: runs (some ⟨pos, a, 1⟩) (pos + 1) l

/-- The runs that end when `n` addresses from `a` on follow at `pos`. -/
def closed : Option Run → ℕ → List Run
  | none, _ => []
  | some r, a => if a = r.start + r.len then [] else [r]

def opened : Option Run → ℕ → ℕ → ℕ → Run
  | none, pos, a, n => ⟨pos, a, n⟩
  | some r, pos, a, n =>
    if a = r.start + r.len then ⟨r.pos, r.start, r.len + n⟩ else ⟨pos, a, n⟩

theorem mem_of_mem_closed {p : Option Run} {a : ℕ} {r : Run} (hr : r ∈ closed p a) : r ∈ p := by
  cases p with
  | none => cases hr
  | some q =>
    rw [closed] at hr
    split at hr
    · cases hr
    · rw [List.mem_singleton.mp hr]
      rfl

theorem opened_pos {p : Option Run} {pos a n : ℕ} (hn : 0 < n) : 0 < (opened p pos a n).len := by
  cases p with
  | none => exact hn
  | some r =>
    rw [opened]
    split
    · exact Nat.add_pos_right _ hn
    · exact hn

def stretch (a n : ℕ) : List (Option ℕ) := (List.range' a n).map some

variable {p : Option Run} {pos a n : ℕ}

theorem runs_stretch_of_open (r : Run) (l : List (Option ℕ)) (n : ℕ) :
    runs (some r) pos (stretch (r.start + r.len) n ++ l) =
      runs (some ⟨r.pos, r.start, r.len + n⟩) (pos + n) l := by
  induction n generalizing r pos with
  | zero => rfl
  | succ n ih =>
    have h := @ih (pos + 1) ⟨r.pos, r.start, r.len + 1⟩
    simp only at h
    rw [stretch, List.range'_succ, List.map_cons, List.cons_append, runs, if_pos rfl, Nat.add_assoc,
      ← stretch, h, Nat.add_assoc, Nat.add_assoc, Nat.add_comm 1 n]

/-- A stretch of addresses goes on with the open run or begins a new one. -/
theorem runs_stretch (hn : 0 < n) (l : List (Option ℕ)) :
    runs p pos (stretch a n ++ l) =
      closed p a ++ runs (some (opened p pos a n)) (pos + n) l := by
  obtain ⟨n, rfl⟩ : ∃ m, n = m + 1 := ⟨n - 1, by omega⟩
  have hnew := @runs_stretch_of_open (pos + 1) ⟨pos, a, 1⟩ l n
  rw [Nat.add_assoc, Nat.add_comm 1 n] at hnew
  cases p with
  | none =>
    rw [stretch, List.range'_succ, List.map_cons, List.cons_append, runs, ← stretch]
    exact hnew
  | some r =>
    by_cases ha : a = r.start + r.len
    · subst ha
      rw [runs_stretch_of_open, closed, opened, if_pos rfl, if_pos rfl, List.nil_append]
    · rw [stretch, List.range'_succ, List.map_cons, List.cons_append, runs, if_neg ha, ← stretch,
        closed, opened, if_neg ha, if_neg ha, List.singleton_append]
      exact congrArg (r :: ·) hnew

theorem runs_gap (hn : 0 < n) (l : List (Option ℕ)) :
    runs p pos (List.replicate n none ++ l) = p.toList ++ runs none (pos + n) l := by
  have hgap : ∀ (m pos : ℕ), runs none pos (List.replicate m none ++ l) = runs none (pos + m) l := by
    intro m
    induction m with
    | zero => exact fun _ => rfl
    | succ m ih =>
      intro pos
      rw [List.replicate_succ, List.cons_append, runs, Option.toList_none, List.nil_append, ih,
        Nat.add_assoc, Nat.add_comm 1]
  obtain ⟨n, rfl⟩ : ∃ m, n = m + 1 := ⟨n - 1, by omega⟩
  rw [List.replicate_succ, List.cons_append, runs, hgap, Nat.add_assoc, Nat.add_comm 1]

theorem runs_none_of_gaps {l : List (Option ℕ)} (hl : ∀ x ∈ l, x = none) : runs none pos l = [] := by
  induction l generalizing pos with
  | nil => rfl
  | cons x l ih =>
    rw [List.forall_mem_cons] at hl
    rw [hl.1, runs, Option.toList_none, List.nil_append]
    exact ih hl.2

theorem sum_runs (p : Option Run) (pos : ℕ) (l : List (Option ℕ)) :
    ((runs p pos l).map Run.len).sum + l.count none =
      (p.toList.map Run.len).sum + l.length := by
  induction l generalizing p pos with
  | nil => simp [runs]
  | cons x l ih =>
    cases x with
    | none =>
      have h := ih none (pos + 1)
      rw [runs, List.map_append, List.sum_append, List.count_cons_self, List.length_cons]
      simp only [Option.toList_none, List.map_nil, List.sum_nil] at h
      omega
    | some a =>
      have hcount : (some a :: l).count none = l.count none := List.count_cons_of_ne (by simp)
      rw [hcount, List.length_cons]
      cases p with
      | none =>
        have h := ih (some ⟨pos, a, 1⟩) (pos + 1)
        rw [runs]
        simp only [Option.toList_none, Option.toList_some, List.map_cons, List.map_nil,
          List.sum_cons, List.sum_nil] at h ⊢
        omega
      | some r =>
        rw [runs]
        split
        · have h := ih (some ⟨r.pos, r.start, r.len + 1⟩) (pos + 1)
          simp only [Option.toList_some, List.map_cons, List.map_nil, List.sum_cons,
            List.sum_nil] at h ⊢
          omega
        · have h := ih (some ⟨pos, a, 1⟩) (pos + 1)
          simp only [Option.toList_some, List.map_cons, List.map_nil, List.sum_cons,
            List.sum_nil] at h ⊢
          omega

theorem pos_of_mem_runs {l : List (Option ℕ)} {r : Run} (hr : r ∈ runs p pos l) :
    (∃ q ∈ p, r.pos = q.pos) ∨ pos ≤ r.pos := by
  induction l generalizing p pos with
  | nil =>
    rw [runs, Option.mem_toList] at hr
    exact Or.inl ⟨r, hr, rfl⟩
  | cons x l ih =>
    cases x with
    | none =>
      rw [runs, List.mem_append, Option.mem_toList] at hr
      rcases hr with hr | hr
      · exact Or.inl ⟨r, hr, rfl⟩
      · rcases ih hr with ⟨q, hq, -⟩ | h
        · cases hq
        · exact Or.inr (by omega)
    | some a =>
      have hnew : r ∈ runs (some ⟨pos, a, 1⟩) (pos + 1) l → pos ≤ r.pos := by
        intro h
        rcases ih h with ⟨q, hq, heq⟩ | h
        · obtain rfl := Option.mem_some_iff.mp hq
          exact Nat.le_of_eq heq.symm
        · omega
      cases p with
      | none =>
        rw [runs] at hr
        exact Or.inr (hnew hr)
      | some q =>
        rw [runs] at hr
        split at hr
        · rcases ih hr with ⟨q', hq', heq⟩ | h
          · obtain rfl := Option.mem_some_iff.mp hq'
            exact Or.inl ⟨q, rfl, heq⟩
          · exact Or.inr (by omega)
        · rcases List.mem_cons.mp hr with rfl | hr
          · exact Or.inl ⟨_, rfl, rfl⟩
          · exact Or.inr (hnew hr)

theorem exists_run_of_open (q : Run) (pos : ℕ) (l : List (Option ℕ)) :
    ∃ r ∈ runs (some q) pos l, r.pos = q.pos := by
  induction l generalizing q pos with
  | nil => exact ⟨q, List.mem_singleton_self q, rfl⟩
  | cons x l ih =>
    cases x with
    | none => exact ⟨q, List.mem_cons_self, rfl⟩
    | some a =>
      rw [runs]
      split
      · exact ih ⟨q.pos, q.start, q.len + 1⟩ (pos + 1)
      · exact ⟨q, List.mem_cons_self, rfl⟩

theorem ne_of_pos {rs rs' : List Run} {r : Run} (hr : r ∈ rs) (h : ∀ r' ∈ rs', r'.pos ≠ r.pos) :
    rs ≠ rs' := by
  rintro rfl
  exact h r hr rfl

end ErofsUtils.BlockRuns
