import ErofsUtils.ByteMemory
import Mathlib.Data.Nat.Bitwise

/-!
# Bit fields in a byte memory

Bits are numbered from the lowest bit of the first byte on. `putBits` is the usual way to
append a field of at most 16 bits at any bit position: it keeps the bits below the position
in their byte, and overwrites the rest of that byte and the two bytes behind it. A field is
read back from a 32-bit word, and later fields do not disturb it.
-/

namespace ErofsUtils.BitPacking
open ByteMemory

/-- Bit `k` behind the byte offset `base`. -/
def memBit (mem : Mem) (base k : ℕ) : Bool := (mem (base + k / 8)).toNat.testBit (k % 8)

/-- The `w`-bit field at bit `pos`, taken from the word that starts in its first byte. -/
def bitField (mem : Mem) (base pos w : ℕ) : ℕ :=
  leNat mem (base + pos / 8) 4 / 2 ^ (pos % 8) % 2 ^ w

def putBits (mem : Mem) (base pos v : ℕ) : Mem :=
  store mem (base + pos / 8)
    [UInt8.ofNat (v * 2 ^ (pos % 8) ||| (mem (base + pos / 8)).toNat % 2 ^ (pos % 8)),
      UInt8.ofNat (v / 2 ^ (8 - pos % 8)), UInt8.ofNat (v / 2 ^ (16 - pos % 8))]

theorem testBit_leNat (mem : Mem) (pos w k : ℕ) :
    (leNat mem pos w).testBit k = (decide (k < 8 * w) && memBit mem pos k) := by
  induction w generalizing pos k with
  | zero => simp [leNat]
  | succ w ih =>
      have hlt : (mem pos).toNat < 2 ^ 8 := (mem pos).toNat_lt
      have hword : leNat mem pos (w + 1) = 2 ^ 8 * leNat mem (pos + 1) w + (mem pos).toNat := by
        rw [leNat]
        omega
      rw [hword, Nat.testBit_two_pow_mul_add _ hlt, ih]
      by_cases hk : k < 8
      · have hdiv : k / 8 = 0 := by omega
        simp [hk, memBit, hdiv, Nat.mod_eq_of_lt hk, show k < 8 * (w + 1) by omega]
      · have hdiv : pos + 1 + (k - 8) / 8 = pos + k / 8 := by omega
        have hmod : (k - 8) % 8 = k % 8 := by omega
        have hiff : k - 8 < 8 * w ↔ k < 8 * (w + 1) := by omega
        simp [hk, memBit, hdiv, hmod, hiff]

theorem testBit_bitField {mem : Mem} {base pos w : ℕ} (hw : pos % 8 + w ≤ 32) (j : ℕ) :
    (bitField mem base pos w).testBit j = (decide (j < w) && memBit mem base (pos + j)) := by
  rw [bitField, Nat.testBit_mod_two_pow, Nat.testBit_div_two_pow, testBit_leNat]
  by_cases hj : j < w
  · have hdiv : base + pos / 8 + (j + pos % 8) / 8 = base + (pos + j) / 8 := by omega
    have hmod : (j + pos % 8) % 8 = (pos + j) % 8 := by omega
    simp [hj, memBit, hdiv, hmod, show j + pos % 8 < 8 * 4 by omega]
  · simp [hj]

/-- A field whose bits are in memory is read back. -/
theorem bitField_eq {mem : Mem} {base pos w v : ℕ} (hw : pos % 8 + w ≤ 32)
    (h : ∀ j < w, memBit mem base (pos + j) = v.testBit j) :
    bitField mem base pos w = v % 2 ^ w := by
  apply Nat.eq_of_testBit_eq
  intro j
  rw [testBit_bitField hw, Nat.testBit_mod_two_pow]
  by_cases hj : j < w
  · simp [hj, h j hj]
  · simp [hj]

theorem memBit_congr {mem mem' : Mem} {base base' k : ℕ}
    (h : mem' (base' + k / 8) = mem (base + k / 8)) :
    memBit mem' base' k = memBit mem base k := by
  rw [memBit, memBit, h]

theorem memBit_add (mem : Mem) (base d k : ℕ) :
    memBit mem base (8 * d + k) = memBit mem (base + d) k := by
  have hdiv : base + (8 * d + k) / 8 = base + d + k / 8 := by omega
  have hmod : (8 * d + k) % 8 = k % 8 := by omega
  rw [memBit, memBit, hdiv, hmod]

theorem memBit_store_leBytes (mem : Mem) (pos : ℕ) {w k : ℕ} (v : ℕ) (hk : k < 8 * w) :
    memBit (store mem pos (leBytes w v)) pos k = v.testBit k := by
  have hword := leNat_of_holds (holds_store mem pos (leBytes w v))
  have hbit := testBit_leNat (store mem pos (leBytes w v)) pos w k
  have hpow : 256 ^ w = 2 ^ (8 * w) := by rw [pow_mul]; rfl
  rw [hword, hpow, Nat.testBit_mod_two_pow, decide_eq_true hk, Bool.true_and, Bool.true_and] at hbit
  exact hbit.symm

section PutBits

variable (mem : Mem) (base pos v : ℕ)

theorem putBits_first :
    putBits mem base pos v (base + pos / 8) =
      UInt8.ofNat (v * 2 ^ (pos % 8) ||| (mem (base + pos / 8)).toNat % 2 ^ (pos % 8)) := by
  simp [putBits, store]

theorem putBits_second :
    putBits mem base pos v (base + pos / 8 + 1) = UInt8.ofNat (v / 2 ^ (8 - pos % 8)) := by
  simp [putBits, store]

theorem putBits_third :
    putBits mem base pos v (base + pos / 8 + 2) = UInt8.ofNat (v / 2 ^ (16 - pos % 8)) := by
  simp [putBits, store]

theorem putBits_of_lt {k : ℕ} (h : k < base + pos / 8) : putBits mem base pos v k = mem k :=
  store_of_lt _ h

theorem putBits_of_ge {k : ℕ} (h : base + pos / 8 + 3 ≤ k) :
    putBits mem base pos v k = mem k :=
  store_of_ge _ h

theorem testBit_ofNat_toNat (n : ℕ) {k : ℕ} (hk : k < 8) :
    (UInt8.ofNat n).toNat.testBit k = n.testBit k := by
  rw [UInt8.toNat_ofNat', Nat.testBit_mod_two_pow]
  simp [hk]

/-- The bits below a new field stay. -/
theorem memBit_putBits_of_lt {k : ℕ} (hk : k < pos) :
    memBit (putBits mem base pos v) base k = memBit mem base k := by
  rcases Nat.lt_or_ge (k / 8) (pos / 8) with hlt | hge
  · exact memBit_congr (putBits_of_lt mem base pos v (by omega))
  · have hdiv : k / 8 = pos / 8 := by omega
    have hmod : k % 8 < pos % 8 := by omega
    rw [memBit, memBit, hdiv, putBits_first, testBit_ofNat_toNat _ (by omega),
      Nat.testBit_or, Nat.testBit_mul_two_pow, Nat.testBit_mod_two_pow]
    simp [hmod]

theorem memBit_putBits {j : ℕ} (hj : pos % 8 + j < 24) :
    memBit (putBits mem base pos v) base (pos + j) = v.testBit j := by
  rw [memBit]
  rcases Nat.lt_or_ge (pos % 8 + j) 8 with h₁ | h₁
  · have hdiv : (pos + j) / 8 = pos / 8 := by omega
    have hmod : (pos + j) % 8 = pos % 8 + j := by omega
    rw [hdiv, hmod, putBits_first, testBit_ofNat_toNat _ h₁, Nat.testBit_or,
      Nat.testBit_mul_two_pow, Nat.testBit_mod_two_pow]
    simp
  · rcases Nat.lt_or_ge (pos % 8 + j) 16 with h₂ | h₂
    · have hdiv : base + (pos + j) / 8 = base + pos / 8 + 1 := by omega
      have hmod : (pos + j) % 8 = pos % 8 + j - 8 := by omega
      have hsum : pos % 8 + j - 8 + (8 - pos % 8) = j := by omega
      rw [hdiv, hmod, putBits_second, testBit_ofNat_toNat _ (by omega),
        Nat.testBit_div_two_pow, hsum]
    · have hdiv : base + (pos + j) / 8 = base + pos / 8 + 2 := by omega
      have hmod : (pos + j) % 8 = pos % 8 + j - 16 := by omega
      have hsum : pos % 8 + j - 16 + (16 - pos % 8) = j := by omega
      rw [hdiv, hmod, putBits_third, testBit_ofNat_toNat _ (by omega),
        Nat.testBit_div_two_pow, hsum]

end PutBits

end ErofsUtils.BitPacking
