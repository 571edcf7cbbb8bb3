import ErofsUtils.ByteMemory
import Mathlib.Data.List.Lex
import Mathlib.Data.List.TakeWhile
import Mathlib.Tactic.Linarith

/-!
# Strings of bytes in a memory

The bounded string functions of C on a byte memory: each comes with the list of the places
that it looks at, in the order in which it does. The lemmas below say where these places lie, and
what a comparison by `strncmp`, which stops at the first NUL, tells about the byte order of the
two strings as a whole.
-/

namespace ErofsUtils.CString
open ByteMemory

def slice (mem : Mem) (pos : ℕ) : ℕ → List UInt8
  | 0 => []
  | n + 1 => mem pos :: slice mem (pos + 1) n

def strnlen (mem : Mem) (pos : ℕ) : ℕ → ℕ
  | 0 => 0
  | n + 1 => if mem pos = 0 then 0 else strnlen mem (pos + 1) n + 1

def strnlenReads (mem : Mem) (pos : ℕ) : ℕ → List ℕ
  | 0 => []
  | n + 1 => pos :: if mem pos = 0 then [] else strnlenReads mem (pos + 1) n

def strncmp (mem : Mem) (p q : ℕ) : ℕ → ℤ
  | 0 => 0
  | n + 1 =>
    if mem p ≠ mem q then (mem p).toNat - (mem q).toNat
    else if mem p = 0 then 0
    else strncmp mem (p + 1) (q + 1) n

def strncmpReads (mem : Mem) (p q : ℕ) : ℕ → List ℕ
  | 0 => []
  | n + 1 =>
    p :: q :: if mem p ≠ mem q ∨ mem p = 0 then [] else strncmpReads mem (p + 1) (q + 1) n

/-- The bytes that `strncpy` writes for `src`: those up to a NUL, and then only NULs. -/
def strncpy (src : List UInt8) : List UInt8 :=
  src.takeWhile (· ≠ 0) ++ List.replicate (src.length - (src.takeWhile (· ≠ 0)).length) 0

/-- The string that a field or a buffer holds: what stands in front of the first NUL. -/
def upToNul (s : List UInt8) : List UInt8 := s.takeWhile (· ≠ 0)

/-- Two strings that are equal up to a NUL in both, where `strncmp` stops. -/
def agreeToNul : List UInt8 → List UInt8 → Bool
  | a :: as, b :: bs => a == b && (a == 0 || agreeToNul as bs)
  | _, _ => false

section UpToNul

theorem zero_notMem_upToNul (s : List UInt8) : 0 ∉ upToNul s := by
  intro h
  have h0 := List.mem_takeWhile_imp h
  simp at h0

theorem upToNul_of_notMem {s : List UInt8} (h : 0 ∉ s) : upToNul s = s := by
  rw [upToNul, List.takeWhile_eq_self_iff]
  intro b hb
  have hne : b ≠ 0 := fun h0 => h (h0 ▸ hb)
  simpa using hne

theorem upToNul_append_of_mem {s t : List UInt8} (h : 0 ∈ s) :
    upToNul (s ++ t) = upToNul s := by
  induction s with
  | nil => cases h
  | cons b s ih =>
      rw [upToNul, upToNul, List.cons_append]
      by_cases hb : b = 0
      · rw [List.takeWhile_cons_of_neg (by simpa using hb),
          List.takeWhile_cons_of_neg (by simpa using hb)]
      · have hs : 0 ∈ s := (List.mem_cons.mp h).resolve_left (Ne.symm hb)
        rw [List.takeWhile_cons_of_pos (by simpa using hb),
          List.takeWhile_cons_of_pos (by simpa using hb)]
        exact congrArg (b :: ·) (ih hs)

theorem upToNul_append_of_notMem {s t : List UInt8} (h : 0 ∉ s) :
    upToNul (s ++ t) = s ++ upToNul t := by
  rw [upToNul, List.takeWhile_append_of_pos]
  · rfl
  · intro b hb
    have hne : b ≠ 0 := fun h0 => h (h0 ▸ hb)
    simpa using hne

theorem upToNul_append_zero {s rest : List UInt8} (h : 0 ∉ s) : upToNul (s ++ 0 :: rest) = s := by
  rw [upToNul_append_of_notMem h, upToNul, List.takeWhile_cons_of_neg (by simp), List.append_nil]

theorem length_upToNul_le (s : List UInt8) : (upToNul s).length ≤ s.length :=
  (List.takeWhile_prefix _).length_le

end UpToNul

section Places

variable {mem : Mem}

@[simp] theorem length_slice (pos n : ℕ) : (slice mem pos n).length = n := by
  induction n generalizing pos with
  | zero => rfl
  | succ n ih => rw [slice, List.length_cons, ih]

theorem strncpy_of_zero_notMem {src : List UInt8} (h : 0 ∉ src) : strncpy src = src := by
  have ht : src.takeWhile (· ≠ 0) = src := by
    induction src with
    | nil => rfl
    | cons b src ih =>
        rw [List.mem_cons, not_or] at h
        rw [List.takeWhile_cons_of_pos (by simpa using Ne.symm h.1), ih h.2]
  rw [strncpy, ht, Nat.sub_self, List.replicate_zero, List.append_nil]

theorem strnlenReads_inside {pos n k : ℕ} (h : k ∈ strnlenReads mem pos n) :
    pos ≤ k ∧ k < pos + n := by
  induction n generalizing pos with
  | zero => simp [strnlenReads] at h
  | succ n ih =>
      rw [strnlenReads, List.mem_cons] at h
      cases h with
      | inl h => omega
      | inr h =>
          by_cases h0 : mem pos = 0
          · simp [h0] at h
          · rw [if_neg h0] at h
            have hk := ih h
            omega

theorem start_mem_strnlenReads {pos n : ℕ} (h : 0 < n) : pos ∈ strnlenReads mem pos n := by
  cases n with
  | zero => omega
  | succ n => rw [strnlenReads]; exact List.mem_cons_self

theorem strncmpReads_inside {p q n k : ℕ} (h : k ∈ strncmpReads mem p q n) :
    (p ≤ k ∧ k < p + n) ∨ (q ≤ k ∧ k < q + n) := by
  induction n generalizing p q with
  | zero => simp [strncmpReads] at h
  | succ n ih =>
      rw [strncmpReads, List.mem_cons, List.mem_cons] at h
      rcases h with h | h | h
      · exact Or.inl (by omega)
      · exact Or.inr (by omega)
      · by_cases h0 : mem p ≠ mem q ∨ mem p = 0
        · simp [h0] at h
        · rw [if_neg h0] at h
          have hk := ih h
          omega

end Places

section Slices

variable {mem : Mem}

theorem slice_congr {mem' : Mem} {p q n : ℕ} (h : ∀ k < n, mem (p + k) = mem' (q + k)) :
    slice mem p n = slice mem' q n := by
  induction n generalizing p q with
  | zero => rfl
  | succ n ih =>
      have h0 : mem p = mem' q := h 0 (Nat.succ_pos n)
      have hs : slice mem (p + 1) n = slice mem' (q + 1) n := by
        apply ih
        intro k hk
        rw [Nat.add_assoc, Nat.add_assoc, Nat.add_comm 1]
        exact h (k + 1) (Nat.succ_lt_succ hk)
      rw [slice, slice, h0, hs]

theorem drop_slice (p n k : ℕ) : (slice mem p n).drop k = slice mem (p + k) (n - k) := by
  induction k generalizing p n with
  | zero => rfl
  | succ k ih =>
      cases n with
      | zero => rw [Nat.zero_sub, slice, slice, List.drop_nil]
      | succ n => rw [slice, List.drop_succ_cons, ih, Nat.add_right_comm, Nat.succ_sub_succ,
          Nat.add_assoc]

theorem take_slice (p : ℕ) {n k : ℕ} (h : k ≤ n) : (slice mem p n).take k = slice mem p k := by
  induction k generalizing p n with
  | zero => rfl
  | succ k ih =>
      cases n with
      | zero => omega
      | succ n => rw [slice, slice, List.take_succ_cons, ih (p + 1) (by omega)]

theorem slice_add (p m n : ℕ) : slice mem p (m + n) = slice mem p m ++ slice mem (p + m) n := by
  have htake := @take_slice mem p _ _ (Nat.le_add_right m n)
  have hdrop := @drop_slice mem p (m + n) m
  rw [Nat.add_sub_cancel_left] at hdrop
  rw [← List.take_append_drop m (slice mem p (m + n)), htake, hdrop]

theorem holds_slice (p n : ℕ) : Holds mem p (slice mem p n) := by
  induction n generalizing p with
  | zero => exact holds_nil mem p
  | succ n ih => exact holds_cons.mpr ⟨rfl, ih (p + 1)⟩

theorem getElem?_slice (mem : Mem) (pos n i : ℕ) :
    (slice mem pos n)[i]? = if i < n then some (mem (pos + i)) else none := by
  induction n generalizing pos i with
  | zero => simp [slice]
  | succ n ih =>
      cases i with
      | zero => simp [slice]
      | succ i =>
          rw [slice, List.getElem?_cons_succ, ih, Nat.add_assoc, Nat.add_comm 1]
          simp only [Nat.add_lt_add_iff_right]

theorem getElem?_slice_of_lt (mem : Mem) (pos n : ℕ) {i : ℕ} (hi : i < n) :
    (slice mem pos n)[i]? = some (mem (pos + i)) := by
  rw [getElem?_slice, if_pos hi]

theorem slice_of_holds {pos n : ℕ} {bs : List UInt8} (h : Holds mem pos bs)
    (hn : bs.length = n) : slice mem pos n = bs := by
  subst hn
  induction bs generalizing pos with
  | nil => rfl
  | cons b bs ih =>
      obtain ⟨hb, hs⟩ := holds_cons.mp h
      rw [List.length_cons, slice, hb, ih hs]

end Slices

section Order

variable {mem : Mem} {p q np nq : ℕ}

theorem lt_of_strncmp_neg (h : strncmp mem p q (min np nq) < 0) :
    slice mem p np < slice mem q nq := by
  induction np generalizing p q nq with
  | zero => simp [strncmp] at h
  | succ np ih =>
      cases nq with
      | zero => simp [strncmp] at h
      | succ nq =>
          rw [Nat.succ_min_succ, strncmp] at h
          rw [slice, slice, List.cons_lt_cons_iff]
          by_cases hne : mem p ≠ mem q
          · rw [if_pos hne] at h
            apply Or.inl
            rw [UInt8.lt_iff_toNat_lt]
            omega
          · rw [if_neg hne] at h
            have he : mem p = mem q := not_not.mp hne
            by_cases h0 : mem p = 0
            · simp [h0] at h
            · rw [if_neg h0] at h
              exact Or.inr ⟨he, ih h⟩

/-- Without a NUL where they agree, strings that compare as equal are in the order of their
lengths. -/
theorem lt_of_strncmp_zero (h : strncmp mem p q (min np nq) = 0) (hlt : np < nq)
    (hn : agreeToNul (slice mem p np) (slice mem q nq) = false) :
    slice mem p np < slice mem q nq := by
  induction np generalizing p q nq with
  | zero =>
      cases nq with
      | zero => omega
      | succ nq => exact List.nil_lt_cons _ _
  | succ np ih =>
      cases nq with
      | zero => omega
      | succ nq =>
          rw [Nat.succ_min_succ, strncmp] at h
          rw [slice, slice] at hn ⊢
          by_cases hne : mem p ≠ mem q
          · rw [if_pos hne] at h
            have hb : (mem p).toNat = (mem q).toNat := by omega
            exact absurd (UInt8.toNat_inj.mp hb) hne
          · rw [if_neg hne] at h
            have he : mem p = mem q := not_not.mp hne
            rw [agreeToNul, he, beq_self_eq_true, Bool.true_and, Bool.or_eq_false_iff] at hn
            rw [if_neg (by simpa [he] using hn.1)] at h
            rw [List.cons_lt_cons_iff]
            exact Or.inr ⟨he, ih h (by omega) hn.2⟩

end Order

end ErofsUtils.CString
