import Mathlib.Algebra.BigOperators.Group.Finset.Basic
import Mathlib.Algebra.BigOperators.Ring.Finset
import Mathlib.Algebra.Order.BigOperators.Group.Finset

/-!
# Canonical codes

The code of a sequence of lengths (RFC 1951, 3.2.2): shorter codes precede longer ones, and codes of
one length follow the order of their symbols. A symbol of length 0 has no code. No code is the
beginning of another one, and under Kraft's inequality every code has room in its length.
-/

namespace CanonicalCode

variable (lens : List ℕ)

def blCount (n : ℕ) : ℕ := if n = 0 then 0 else lens.count n

def firstCode : ℕ → ℕ
  | 0 => 0
  | n + 1 => 2 * (firstCode n + blCount lens n)

/-- The number of bits of the code of a symbol. -/
def len (s : ℕ) : ℕ := lens.getD s 0

def code (s : ℕ) : ℕ := firstCode lens (len lens s) + (lens.take s).count (len lens s)

def symbol (n c : ℕ) : Option ℕ :=
  (List.range lens.length).find? fun s => n ≠ 0 ∧ len lens s = n ∧ code lens s = c

def decodeFrom : ℕ → ℕ → List Bool → Option (ℕ × List Bool)
  | _, _, [] => none
  | n, c, b :: bits =>
    match symbol lens (n + 1) (2 * c + b.toNat) with
    | some s => some (s, bits)
    | none => decodeFrom (n + 1) (2 * c + b.toNat) bits

def decode (bits : List Bool) : Option (ℕ × List Bool) := decodeFrom lens 0 0 bits

variable {lens}

section Prefix

variable {s t n m : ℕ}

theorem lt_length (hs : len lens s ≠ 0) : s < lens.length := by
  by_contra hout
  apply hs
  rw [len, List.getD_eq_getElem?_getD, List.getElem?_eq_none (Nat.le_of_not_lt hout)]
  rfl

theorem getElem?_of_len (hs : len lens s ≠ 0) : lens[s]? = some (len lens s) := by
  have hlt := lt_length hs
  rw [len, List.getD_eq_getElem?_getD, List.getElem?_eq_getElem hlt]
  rfl

/-- The codes of one length go up with the symbols. -/
theorem count_take_lt (hst : s < t) (hs : len lens s ≠ 0) :
    (lens.take s).count (len lens s) < (lens.take t).count (len lens s) := by
  have hsub : ((lens.take (s + 1)).Sublist (lens.take t)) := List.take_sublist_take_left hst
  calc (lens.take s).count (len lens s)
      < (lens.take s).count (len lens s) + 1 := Nat.lt_succ_self _
    _ = (lens.take (s + 1)).count (len lens s) := by
        rw [List.take_add_one, getElem?_of_len hs, Option.toList_some, List.count_append,
          List.count_singleton_self]
    _ ≤ (lens.take t).count (len lens s) := hsub.count_le _

theorem count_take_lt_blCount (hs : len lens s ≠ 0) :
    (lens.take s).count (len lens s) < blCount lens (len lens s) := by
  have h := count_take_lt (lt_length hs) hs
  rw [List.take_length] at h
  rwa [blCount, if_neg hs]

/-- The first code of a length lies behind all shorter ones. -/
theorem le_firstCode (hnm : n < m) :
    2 ^ (m - n) * (firstCode lens n + blCount lens n) ≤ firstCode lens m := by
  induction m, hnm using Nat.le_induction with
  | base =>
      have hone : n.succ - n = 1 := by omega
      rw [hone, pow_one, firstCode]
  | succ m hm ih =>
      have hsub : m + 1 - n = m - n + 1 := by omega
      rw [hsub, pow_succ', Nat.mul_assoc, firstCode]
      exact Nat.mul_le_mul_left 2 (ih.trans (Nat.le_add_right _ _))

theorem prefix_free (hs : len lens s ≠ 0) (ht : len lens t ≠ 0) (hne : s ≠ t)
    (hle : len lens s ≤ len lens t) :
    code lens t / 2 ^ (len lens t - len lens s) ≠ code lens s := by
  rcases Nat.eq_or_lt_of_le hle with heq | hlt
  · rw [heq, Nat.sub_self, pow_zero, Nat.div_one, code, code, ← heq]
    rcases Nat.lt_or_gt_of_ne hne with hst | hts
    · have := count_take_lt hst hs
      omega
    · have := count_take_lt hts ht
      rw [← heq] at this
      omega
  · have hfirst : firstCode lens (len lens s) + blCount lens (len lens s) ≤
        code lens t / 2 ^ (len lens t - len lens s) := by
      rw [Nat.le_div_iff_mul_le (Nat.two_pow_pos _), Nat.mul_comm]
      exact (le_firstCode hlt).trans (Nat.le_add_right _ _)
    have hbelow := count_take_lt_blCount hs
    have hcode : code lens s = firstCode lens (len lens s) +
        (lens.take s).count (len lens s) := rfl
    omega

end Prefix

section Kraft

open Finset

variable {n N s : ℕ}

/-- The codes of up to `n` bits take up their part of the codes of `N` bits. -/
theorem kraft_sum (hn : n ≤ N) : (firstCode lens n + blCount lens n) * 2 ^ (N - n) =
    ∑ k ∈ range (n + 1), blCount lens k * 2 ^ (N - k) := by
  induction n with
  | zero => rw [sum_range_one, firstCode, Nat.zero_add]
  | succ n ih =>
      have hsub : N - n = N - (n + 1) + 1 := by omega
      rw [sum_range_succ, ← ih (by omega), Nat.add_mul, firstCode, hsub, pow_succ']
      congr 1
      rw [← Nat.mul_assoc, Nat.mul_comm 2]

/-- Under Kraft's inequality the codes of a length fit in it. -/
theorem firstCode_add_le (hn : n ≤ N)
    (hkraft : ∑ k ∈ range (N + 1), blCount lens k * 2 ^ (N - k) ≤ 2 ^ N) :
    firstCode lens n + blCount lens n ≤ 2 ^ n := by
  have hsub : ∑ k ∈ range (n + 1), blCount lens k * 2 ^ (N - k) ≤
      ∑ k ∈ range (N + 1), blCount lens k * 2 ^ (N - k) :=
    sum_le_sum_of_subset (range_subset_range.mpr (by omega))
  have hpow : 2 ^ n * 2 ^ (N - n) = 2 ^ N := by
    rw [← pow_add]
    congr 1
    omega
  have h : (firstCode lens n + blCount lens n) * 2 ^ (N - n) ≤ 2 ^ n * 2 ^ (N - n) := by
    rw [kraft_sum hn, hpow]
    exact hsub.trans hkraft
  exact Nat.le_of_mul_le_mul_right h (Nat.two_pow_pos _)

theorem code_lt (hs : len lens s ≠ 0) (hN : len lens s ≤ N)
    (hkraft : ∑ k ∈ range (N + 1), blCount lens k * 2 ^ (N - k) ≤ 2 ^ N) :
    code lens s < 2 ^ len lens s := by
  have hbelow := count_take_lt_blCount hs
  have hfits := firstCode_add_le hN hkraft
  rw [code]
  omega

end Kraft

end CanonicalCode
