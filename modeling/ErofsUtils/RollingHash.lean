import ErofsUtils.Dedupe
import Mathlib.Data.Nat.Digits.Defs
import Mathlib.Data.Int.ModEq
import Mathlib.Tactic.Ring

/-!
# The rolling hash

A window is a number in base 256 whose first byte is the lowest digit, and its hash is this number
modulo `PRIME_NUMBER`. Moving the window back by a byte takes away the highest digit and shifts the
others up. The values in between are listed as they come up, to show that they fit into 64 bits.
-/

namespace ErofsUtils

/-- A value that a `long long` can have. -/
def Fits64 (n : ℤ) : Prop := -2 ^ 63 ≤ n ∧ n < 2 ^ 63

/-- The values that come up in `erofs_rolling_hash_init` with `backwards` set. -/
def rollingHashInitValues : List UInt8 → List ℤ
  | [] => []
  | b :: input =>
    let hash := erofsRollingHashInit input
    rollingHashInitValues input ++ [radix * hash, radix * hash + b.toNat]

def rollingHashAdvanceValues (oldHash : ℤ) (rm : ℕ) (toRemove toAdd : UInt8) : List ℤ :=
  let toRemoveVal : ℤ := (toRemove.toNat * rm % 4294967295 : ℕ)
  let hash := (radix * (oldHash - toRemoveVal)).tmod primeNumber
  [(toRemove.toNat * rm : ℕ), oldHash - toRemoveVal, radix * (oldHash - toRemoveVal),
    hash + toAdd.toNat, (hash + toAdd.toNat).tmod primeNumber + primeNumber]

def rollinghashCalcRmValues (windowSize : ℕ) : List ℤ :=
  (List.range (windowSize - 1)).map fun i => (erofsRollinghashCalcRm (i + 1) * 256 : ℕ)

/-- `rollinghash_rm`, an `unsigned int`, as `z_erofs_dedupe_init` stores it. -/
def storedRm (windowSize : ℕ) : ℕ := u32 (erofsRollinghashCalcRm windowSize)

section Number

def windowNat (input : List UInt8) : ℕ := Nat.ofDigits 256 (input.map UInt8.toNat)

theorem windowNat_cons (b : UInt8) (input : List UInt8) :
    windowNat (b :: input) = b.toNat + 256 * windowNat input := by
  rw [windowNat, List.map_cons, Nat.ofDigits_cons]
  rfl

theorem windowNat_concat (input : List UInt8) (b : UInt8) :
    windowNat (input ++ [b]) = windowNat input + 256 ^ input.length * b.toNat := by
  rw [windowNat, List.map_append, Nat.ofDigits_append, List.length_map, List.map_singleton,
    Nat.ofDigits_singleton]
  rfl

theorem erofsRollingHashInit_cons (b : UInt8) (input : List UInt8) :
    erofsRollingHashInit (b :: input) =
      (radix * erofsRollingHashInit input + b.toNat).tmod primeNumber := rfl

theorem erofsRollingHashInit_eq (input : List UInt8) :
    erofsRollingHashInit input = (windowNat input : ℤ) % primeNumber := by
  induction input with
  | nil => rfl
  | cons b input ih =>
    have hpos : (0 : ℤ) ≤ erofsRollingHashInit input := by
      rw [ih]
      exact Int.emod_nonneg _ (by decide)
    have hsum : (0 : ℤ) ≤ radix * erofsRollingHashInit input + b.toNat := by
      rw [radix]
      omega
    have hmod : 256 * ((windowNat input : ℤ) % primeNumber) + b.toNat ≡
        256 * windowNat input + b.toNat [ZMOD primeNumber] :=
      ((Int.mod_modEq _ _).mul_left 256).add_right _
    rw [erofsRollingHashInit_cons, Int.tmod_eq_emod_of_nonneg hsum, ih, windowNat_cons, radix, hmod]
    push_cast
    rw [Int.add_comm]

theorem erofsRollingHashInit_range (input : List UInt8) :
    0 ≤ erofsRollingHashInit input ∧ erofsRollingHashInit input < primeNumber := by
  rw [erofsRollingHashInit_eq]
  exact ⟨Int.emod_nonneg _ (by decide), Int.emod_lt_of_pos _ (by decide)⟩

end Number

section Multiplier

theorem erofsRollinghashCalcRm_eq (n : ℕ) :
    erofsRollinghashCalcRm (n + 1) = 256 ^ n % 4294967295 := by
  induction n with
  | zero => rfl
  | succ n ih =>
    rw [erofsRollinghashCalcRm, Nat.add_sub_cancel] at ih ⊢
    rw [List.range_succ, List.foldl_concat, ih, Nat.pow_succ, Nat.mod_mul_mod]

/-- The multiplier fits into an `unsigned int`. -/
theorem storedRm_eq (n : ℕ) : storedRm (n + 1) = 256 ^ n % 4294967295 := by
  have hlt : 256 ^ n % 4294967295 < 4294967295 := Nat.mod_lt _ (by decide)
  rw [storedRm, erofsRollinghashCalcRm_eq]
  exact u32_of_lt (by omega)

end Multiplier

section Advance

theorem tmod_modEq (a : ℤ) : a.tmod primeNumber ≡ a [ZMOD primeNumber] := by
  exact Int.modEq_iff_add_fac.mpr ⟨a.tdiv primeNumber, (Int.tmod_add_mul_tdiv a primeNumber).symm⟩

theorem tmod_bounds (a : ℤ) : -primeNumber < a.tmod primeNumber ∧ a.tmod primeNumber < primeNumber := by
  have hlt := Int.tmod_lt_of_pos a (show 0 < primeNumber by decide)
  have hneg := Int.tmod_lt_of_pos (-a) (show 0 < primeNumber by decide)
  rw [Int.neg_tmod] at hneg
  exact ⟨by omega, hlt⟩

theorem tmod_corrected (x : ℤ) :
    (if x.tmod primeNumber < 0 then x.tmod primeNumber + primeNumber else x.tmod primeNumber) =
      x % primeNumber := by
  obtain ⟨hlow, hhigh⟩ := tmod_bounds x
  by_cases hneg : x.tmod primeNumber < 0
  · have hmod := Int.add_modulus_modEq_iff.mpr (tmod_modEq x)
    rw [if_pos hneg, ← hmod.eq]
    exact (Int.emod_eq_of_lt (by omega) (by omega)).symm
  · rw [if_neg hneg, ← (tmod_modEq x).eq]
    exact (Int.emod_eq_of_lt (by omega) hhigh).symm

theorem erofsRollingHashAdvance_eq (oldHash : ℤ) (rm : ℕ) (toRemove toAdd : UInt8) :
    erofsRollingHashAdvance oldHash rm toRemove toAdd =
      (256 * (oldHash - toRemove.toNat * rm) + toAdd.toNat) % primeNumber := by
  have hval : ((toRemove.toNat * rm % 4294967295 : ℕ) : ℤ) ≡ toRemove.toNat * rm
      [ZMOD primeNumber] := by
    push_cast
    exact Int.mod_modEq _ _
  have hsum := ((tmod_modEq (256 * (oldHash - (toRemove.toNat * rm % 4294967295 : ℕ)))).add_right
    (toAdd.toNat : ℤ)).trans (((hval.sub_left oldHash).mul_left 256).add_right _)
  rw [← hsum]
  exact tmod_corrected _

end Advance

section Window

variable {buf : List UInt8} {p w : ℕ}

theorem bytesAt_succ (hp : p < buf.length) (w : ℕ) :
    bytesAt buf p (w + 1) = buf.getD p 0 :: bytesAt buf (p + 1) w := by
  rw [bytesAt, bytesAt, List.drop_eq_getElem_cons hp, List.take_succ_cons,
    List.getD_eq_getElem?_getD, List.getElem?_eq_getElem hp, Option.getD_some]

theorem bytesAt_concat (hp : p + w < buf.length) :
    bytesAt buf p (w + 1) = bytesAt buf p w ++ [buf.getD (p + w) 0] := by
  have hw : w < (buf.drop p).length := by
    rw [List.length_drop]
    omega
  rw [bytesAt, bytesAt, List.take_succ_eq_append_getElem hw, List.getElem_drop,
    List.getD_eq_getElem?_getD, List.getElem?_eq_getElem hp, Option.getD_some]

theorem erofsRollingHashAdvance_window (hw : 0 < w) (hp : p + w < buf.length) :
    erofsRollingHashAdvance (erofsRollingHashInit (bytesAt buf (p + 1) w)) (storedRm w)
        (buf.getD (p + w) 0) (buf.getD p 0) =
      erofsRollingHashInit (bytesAt buf p w) := by
  obtain ⟨n, rfl⟩ : ∃ n, w = n + 1 := ⟨w - 1, by omega⟩
  have hlast : p + 1 + n = p + (n + 1) := by omega
  have hlen : (bytesAt buf (p + 1) n).length = n := by
    rw [length_bytesAt]
    omega
  have hfront : bytesAt buf p (n + 1) = _ := bytesAt_succ (by omega) n
  have hback : bytesAt buf (p + 1) (n + 1) = _ := bytesAt_concat (by omega)
  rw [hlast] at hback
  rw [erofsRollingHashAdvance_eq, erofsRollingHashInit_eq, erofsRollingHashInit_eq, storedRm_eq,
    hfront, hback, windowNat_cons, windowNat_concat, hlen]
  generalize windowNat (bytesAt buf (p + 1) n) = m
  generalize (buf.getD (p + (n + 1)) 0).toNat = x
  generalize (buf.getD p 0).toNat = a
  have hrm : ((256 ^ n % 4294967295 : ℕ) : ℤ) ≡ 256 ^ n [ZMOD primeNumber] := by
    push_cast
    exact Int.mod_modEq _ _
  have hold : ((m + 256 ^ n * x : ℕ) : ℤ) % primeNumber ≡ m + 256 ^ n * x [ZMOD primeNumber] := by
    push_cast
    exact Int.mod_modEq _ _
  have hsub := ((hold.sub (hrm.mul_left (x : ℤ))).mul_left 256).add_right (a : ℤ)
  rw [hsub.eq]
  push_cast
  congr 1
  ring

end Window

section Values

theorem fits64_of_le {n : ℤ} (hlow : -2 ^ 62 ≤ n) (hhigh : n < 2 ^ 62) : Fits64 n := by
  constructor <;> omega

theorem rollingHashInitValues_fit (input : List UInt8) :
    ∀ n ∈ rollingHashInitValues input, Fits64 n := by
  induction input with
  | nil => simp [rollingHashInitValues]
  | cons b input ih =>
    obtain ⟨hlow, hhigh⟩ := erofsRollingHashInit_range input
    have hb := b.toNat_lt
    intro n hn
    rw [rollingHashInitValues, List.mem_append, List.mem_pair] at hn
    rw [primeNumber] at hhigh
    rw [radix] at hn
    rcases hn with hn | rfl | rfl
    · exact ih n hn
    · exact fits64_of_le (by omega) (by omega)
    · exact fits64_of_le (by omega) (by omega)

theorem rollingHashAdvanceValues_fit {oldHash : ℤ} {rm : ℕ} (hold : 0 ≤ oldHash)
    (hlt : oldHash < primeNumber) (hrm : rm < 2 ^ 32) (toRemove toAdd : UInt8) :
    ∀ n ∈ rollingHashAdvanceValues oldHash rm toRemove toAdd, Fits64 n := by
  have hr := toRemove.toNat_lt
  have ha := toAdd.toNat_lt
  have hprod : toRemove.toNat * rm ≤ 255 * 2 ^ 32 := Nat.mul_le_mul (by omega) hrm.le
  have hval : toRemove.toNat * rm % 4294967295 < 4294967295 := Nat.mod_lt _ (by decide)
  intro n hn
  simp only [rollingHashAdvanceValues, List.mem_cons, List.not_mem_nil, or_false] at hn
  generalize toRemove.toNat * rm % 4294967295 = v at hn hval
  have hx := tmod_bounds (radix * (oldHash - v))
  generalize (radix * (oldHash - v)).tmod primeNumber = x at hn hx
  have hy := tmod_bounds (x + toAdd.toNat)
  generalize (x + toAdd.toNat).tmod primeNumber = y at hn hy
  rw [primeNumber] at hlt hx hy hn
  rw [radix] at hn
  rcases hn with rfl | rfl | rfl | rfl | rfl
  · exact fits64_of_le (by omega) (by omega)
  · exact fits64_of_le (by omega) (by omega)
  · exact fits64_of_le (by omega) (by omega)
  · exact fits64_of_le (by omega) (by omega)
  · exact fits64_of_le (by omega) (by omega)

theorem rollinghashCalcRmValues_fit (w : ℕ) : ∀ n ∈ rollinghashCalcRmValues w, Fits64 n := by
  intro n hn
  obtain ⟨i, -, rfl⟩ := List.mem_map.mp hn
  have hlt : 256 ^ i % 4294967295 < 4294967295 := Nat.mod_lt _ (by decide)
  rw [erofsRollinghashCalcRm_eq]
  exact fits64_of_le (by omega) (by omega)

end Values

/-- The hash of a window from that of the window one byte further on is the hash from scratch, and
none of the values in between leaves 64 bits. -/
theorem rollingHash_consistent (buf : List UInt8) {p w : ℕ} (hw : 0 < w) (hp : p + w < buf.length) :
    erofsRollingHashAdvance (erofsRollingHashInit (bytesAt buf (p + 1) w)) (storedRm w)
        (buf.getD (p + w) 0) (buf.getD p 0) = erofsRollingHashInit (bytesAt buf p w) ∧
      (0 ≤ erofsRollingHashInit (bytesAt buf p w) ∧
        erofsRollingHashInit (bytesAt buf p w) < primeNumber) ∧
      storedRm w = erofsRollinghashCalcRm w ∧
      ∀ n ∈ rollingHashInitValues (bytesAt buf p w) ++
        rollingHashAdvanceValues (erofsRollingHashInit (bytesAt buf (p + 1) w)) (storedRm w)
          (buf.getD (p + w) 0) (buf.getD p 0) ++
        rollinghashCalcRmValues w, Fits64 n := by
  obtain ⟨m, rfl⟩ : ∃ m, w = m + 1 := ⟨w - 1, by omega⟩
  have hrm : storedRm (m + 1) = erofsRollinghashCalcRm (m + 1) := by
    rw [storedRm_eq, erofsRollinghashCalcRm_eq]
  have hlt : storedRm (m + 1) < 2 ^ 32 := u32_lt _
  obtain ⟨hlow, hhigh⟩ := erofsRollingHashInit_range (bytesAt buf (p + 1) (m + 1))
  refine ⟨erofsRollingHashAdvance_window hw hp, erofsRollingHashInit_range _, hrm, ?_⟩
  intro n hn
  rw [List.mem_append, List.mem_append] at hn
  rcases hn with (hn | hn) | hn
  · exact rollingHashInitValues_fit _ n hn
  · exact rollingHashAdvanceValues_fit hlow hhigh hlt _ _ n hn
  · exact rollinghashCalcRmValues_fit _ n hn

theorem rollingHash_consistent_two : ∃ hash, hash = erofsRollingHashInit [5, 7] ∧
    erofsRollingHashAdvance (erofsRollingHashInit [7, 9]) (storedRm 2) 9 5 = hash :=
  ⟨_, rfl, (rollingHash_consistent [5, 7, 9] (by decide : 0 < 2)
    (by decide : 0 + 2 < [(5 : UInt8), 7, 9].length)).1⟩

end ErofsUtils
