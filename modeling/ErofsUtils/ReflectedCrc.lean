import Mathlib.Data.List.Basic
import Mathlib.Logic.Function.Basic

/-!
# Reflected cyclic redundancy checks

A remainder of `w` bits takes in the bytes of a message from their least significant bits on. The
remainder is linear in exclusive or, and no message of up to `w` bits changes without changing it,
wherever the message stands in a longer one.
-/

namespace ReflectedCrc

variable {w : ℕ} (poly : BitVec w)

def shift (x : BitVec w) : BitVec w := (x >>> 1) ^^^ if x.getLsbD 0 then poly else 0

def shifts : ℕ → BitVec w → BitVec w
  | 0, x => x
  | n + 1, x => shifts n (shift poly x)

def byte (c : BitVec w) (b : UInt8) : BitVec w := shifts poly 8 (c ^^^ b.toBitVec.setWidth w)

def crc (c : BitVec w) (p : List UInt8) : BitVec w := p.foldl (byte poly) c

/-- The bytes of a message as a word, the first one lowest. -/
def word : List UInt8 → BitVec w
  | [] => 0
  | b :: p => b.toBitVec.setWidth w ^^^ (word p <<< 8)

theorem xor_cancel {x y z : BitVec w} (h : x ^^^ z = y ^^^ z) : x = y := by
  have hz := congrArg (· ^^^ z) h
  simpa [BitVec.xor_assoc] using hz

theorem shift_getLsbD (x : BitVec w) (i : ℕ) :
    (shift poly x).getLsbD i = (x.getLsbD (1 + i) ^^ (x.getLsbD 0 && poly.getLsbD i)) := by
  unfold shift
  rw [BitVec.getLsbD_xor, BitVec.getLsbD_ushiftRight]
  cases x.getLsbD 0 <;> simp

theorem shift_xor (x y : BitVec w) : shift poly (x ^^^ y) = shift poly x ^^^ shift poly y := by
  apply BitVec.eq_of_getLsbD_eq
  intro i _
  rw [BitVec.getLsbD_xor, shift_getLsbD, shift_getLsbD, shift_getLsbD, BitVec.getLsbD_xor,
    BitVec.getLsbD_xor]
  cases x.getLsbD 0 <;> cases y.getLsbD 0 <;> cases poly.getLsbD i <;> simp

theorem shifts_xor (n : ℕ) (x y : BitVec w) :
    shifts poly n (x ^^^ y) = shifts poly n x ^^^ shifts poly n y := by
  induction n generalizing x y with
  | zero => rfl
  | succ n ih => rw [shifts, shifts, shifts, shift_xor, ih]

/-- The highest bit after a shift tells the bit that was shifted out. -/
theorem shift_injective (hpoly : poly.getLsbD (w - 1) = true) :
    Function.Injective (shift poly) := by
  intro x y hxy
  have hw : 0 < w := by
    by_contra hzero
    rw [BitVec.getLsbD_of_ge poly _ (by omega)] at hpoly
    cases hpoly
  have hbit : ∀ z : BitVec w, (shift poly z).getLsbD (w - 1) = z.getLsbD 0 := by
    intro z
    have hhigh : z.getLsbD (1 + (w - 1)) = false := BitVec.getLsbD_of_ge z _ (by omega)
    rw [shift_getLsbD, hhigh, hpoly, Bool.false_xor, Bool.and_true]
  have hlow : x.getLsbD 0 = y.getLsbD 0 := by rw [← hbit x, hxy, hbit y]
  have hrest : x >>> 1 = y >>> 1 := by
    unfold shift at hxy
    rw [hlow] at hxy
    exact xor_cancel hxy
  apply BitVec.eq_of_getLsbD_eq
  intro i _
  cases i with
  | zero => exact hlow
  | succ i =>
    have hi := congrArg (fun z => BitVec.getLsbD z i) hrest
    simpa [BitVec.getLsbD_ushiftRight, Nat.add_comm] using hi

theorem shifts_injective (hpoly : poly.getLsbD (w - 1) = true) (n : ℕ) :
    Function.Injective (shifts poly n) := by
  induction n with
  | zero => exact Function.injective_id
  | succ n ih => exact ih.comp (shift_injective poly hpoly)

theorem crc_injective (hpoly : poly.getLsbD (w - 1) = true) (p : List UInt8) :
    Function.Injective fun c => crc poly c p := by
  induction p with
  | nil => exact Function.injective_id
  | cons b p ih =>
    intro c d h
    have hbyte : byte poly c b = byte poly d b := ih h
    exact xor_cancel (shifts_injective poly hpoly 8 hbyte)

theorem shifts_shiftLeft (n : ℕ) {x : BitVec w} (h : ∀ i, w ≤ i + n → x.getLsbD i = false) :
    shifts poly n (x <<< n) = x := by
  induction n with
  | zero => exact BitVec.shiftLeft_zero x
  | succ n ih =>
    have hshift : shift poly (x <<< (n + 1)) = x <<< n := by
      apply BitVec.eq_of_getLsbD_eq
      intro i hi
      have hlow : (x <<< (n + 1)).getLsbD 0 = false := by simp [BitVec.getLsbD_shiftLeft]
      rw [shift_getLsbD, hlow, BitVec.getLsbD_shiftLeft, BitVec.getLsbD_shiftLeft]
      by_cases hin : 1 + i < w
      · have hsub : 1 + i - (n + 1) = i - n := by omega
        have hlt : 1 + i < n + 1 ↔ i < n := by omega
        simp [hin, hi, hsub, hlt]
      · have hzero : i < n ∨ x.getLsbD (i - n) = false := by
          by_cases hn : i < n
          · exact Or.inl hn
          · exact Or.inr (h (i - n) (by omega))
        rcases hzero with hn | hn <;> simp [hin, hi, hn]
    rw [shifts, hshift]
    exact ih fun i hi => h i (by omega)

theorem word_getLsbD (p : List UInt8) {i : ℕ} (h : 8 * p.length ≤ i) :
    (word p : BitVec w).getLsbD i = false := by
  induction p generalizing i with
  | nil => simp [word]
  | cons b p ih =>
    rw [List.length_cons] at h
    have hb : b.toBitVec.getLsbD i = false := BitVec.getLsbD_of_ge _ _ (by omega)
    have hp : (word p : BitVec w).getLsbD (i - 8) = false := ih (by omega)
    simp [word, BitVec.getLsbD_xor, BitVec.getLsbD_shiftLeft, BitVec.getLsbD_setWidth, hb, hp]

theorem shifts_add (m n : ℕ) (x : BitVec w) :
    shifts poly (m + n) x = shifts poly n (shifts poly m x) := by
  induction m generalizing x with
  | zero => rw [Nat.zero_add, shifts]
  | succ m ih => rw [Nat.succ_add, shifts, shifts, ih]

theorem crc_eq_shifts (p : List UInt8) (hp : 8 * p.length ≤ w) (c : BitVec w) :
    crc poly c p = shifts poly (8 * p.length) (c ^^^ word p) := by
  induction p generalizing c with
  | nil => simp [crc, word, shifts]
  | cons b p ih =>
    rw [List.length_cons] at hp
    have hword : shifts poly 8 (word p <<< 8) = (word p : BitVec w) :=
      shifts_shiftLeft poly 8 fun i hi => word_getLsbD p (by omega)
    calc crc poly c (b :: p) = crc poly (byte poly c b) p := rfl
      _ = shifts poly (8 * p.length)
            (shifts poly 8 (c ^^^ b.toBitVec.setWidth w) ^^^ word p) := ih (by omega) _
      _ = shifts poly (8 * p.length)
            (shifts poly 8 ((c ^^^ b.toBitVec.setWidth w) ^^^ (word p <<< 8))) := by
          rw [shifts_xor poly 8 (c ^^^ _), hword]
      _ = shifts poly (8 * (b :: p).length) (c ^^^ word (b :: p)) := by
          rw [← shifts_add, word, BitVec.xor_assoc, List.length_cons,
            show 8 + 8 * p.length = 8 * (p.length + 1) by omega]

theorem word_injective {p q : List UInt8} (hlen : p.length = q.length) (hp : 8 * p.length ≤ w)
    (h : (word p : BitVec w) = word q) : p = q := by
  induction p generalizing q with
  | nil => exact (List.eq_nil_of_length_eq_zero hlen.symm).symm
  | cons b p ih =>
    cases q with
    | nil => cases hlen
    | cons d q =>
      rw [List.length_cons] at hp hlen
      rw [List.length_cons] at hlen
      have hbit : ∀ i, (b.toBitVec.setWidth w ^^^ (word p <<< 8)).getLsbD i =
          (d.toBitVec.setWidth w ^^^ (word q <<< 8)).getLsbD i :=
        fun i => congrArg (fun z : BitVec w => z.getLsbD i) h
      have hb : b = d := by
        apply UInt8.toBitVec_inj.1
        apply BitVec.eq_of_getLsbD_eq
        intro i hi
        have hw : i < w := by omega
        simpa [BitVec.getLsbD_xor, BitVec.getLsbD_shiftLeft, hi, hw] using hbit i
      subst hb
      have hwords : (word p : BitVec w) = word q := by
        apply BitVec.eq_of_getLsbD_eq
        intro i hi
        by_cases hin : i + 8 < w
        · have hhigh : b.toBitVec.getLsbD (i + 8) = false := BitVec.getLsbD_of_ge _ _ (by omega)
          have hnot : ¬ i + 8 < 8 := by omega
          simpa [BitVec.getLsbD_xor, BitVec.getLsbD_shiftLeft, hin, hi, hhigh, hnot] using
            hbit (i + 8)
        · rw [word_getLsbD p (by omega), word_getLsbD q (by omega)]
      rw [ih (by omega) (by omega) hwords]

/-- A change within `w` bits of a message changes the remainder. -/
theorem crc_window (hpoly : poly.getLsbD (w - 1) = true) {p q : List UInt8}
    (hlen : p.length = q.length) (hp : 8 * p.length ≤ w) (c : BitVec w) (front back : List UInt8)
    (h : crc poly c (front ++ (p ++ back)) = crc poly c (front ++ (q ++ back))) : p = q := by
  simp only [crc, List.foldl_append] at h
  have hmid : crc poly (crc poly c front) p = crc poly (crc poly c front) q :=
    crc_injective poly hpoly back h
  rw [crc_eq_shifts poly p hp, crc_eq_shifts poly q (by omega), ← hlen] at hmid
  have hword := shifts_injective poly hpoly _ hmid
  rw [BitVec.xor_comm, BitVec.xor_comm _ (word q)] at hword
  exact word_injective hlen hp (xor_cancel hword)

end ReflectedCrc
