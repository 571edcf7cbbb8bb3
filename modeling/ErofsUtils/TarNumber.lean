import ErofsUtils.Numerals

/-!
# Number fields of tar headers

`tarerofs_otoi` and `tarerofs_parsenum`, which accept a field by leaving `errno` at zero. `strtol`
takes white space and a sign for part of a number, and the digits of base 256 are added up without
a check of the sum. The main theorem says for which fields an accepted number is the right one.
-/

namespace ErofsUtils
open Numerals

/-- `EINVAL` and `ERANGE` as values of `errno`. -/
def errnoEinval : ℕ := 22

def errnoErange : ℕ := 34

/-- Conversion to `long long`. -/
def i64 (x : ℤ) : ℤ := x.bmod (2 ^ 64)

/-- `tarerofs_otoi`: the number and `errno`. -/
def tarerofsOtoi (field : List UInt8) : ℤ × ℕ :=
  let inp := field ++ [0]
  let (val, endp, erange) := strtol 8 inp
  let errno := if erange then errnoErange else 0
  let c := endp.headD 0
  (val, if (c = 0 ∧ endp = inp) ∨ (c ≠ 0 ∧ c ≠ 32) then errnoEinval else errno)

/-- `tarerofs_parsenum`: the number and `errno`, which base 256 leaves as it was. -/
def tarerofsParsenum (errno : ℕ) : List UInt8 → ℤ × ℕ
  | [] => tarerofsOtoi []
  | b :: field =>
      if b = 128 then (field.foldl (fun res c => i64 (i64 (res * 256) + c.toNat)) 0, errno)
      else tarerofsOtoi (b :: field)

/-- The characters of an octal field: digits, the space and NUL. -/
def octalChar (c : UInt8) : Bool := isDigit 8 c || c == 32 || c == 0

/-- The digits of an octal field, behind leading spaces and up to a space or NUL. -/
def octalDigits (field : List UInt8) : List UInt8 :=
  (field.dropWhile (· == 32)).takeWhile (isDigit 8)

/-- The number that a field stands for: base 256 behind a byte 0200, or else octal digits. There is
none in a field without digits or with other characters. -/
def tarNumber : List UInt8 → Option ℕ
  | [] => none
  | b :: field =>
      if b = 128 then some (value 256 (field.map UInt8.toNat))
      else if (b :: field).all octalChar ∧ octalDigits (b :: field) ≠ [] then
        some (digitValue 8 (octalDigits (b :: field)))
      else none

structure ParsenumSound (errno : ℕ) (field : List UInt8) : Prop where
  value : (tarerofsParsenum errno field).2 = 0 →
    ∃ v : ℕ, tarNumber field = some v ∧ (tarerofsParsenum errno field).1 = v
  rejects : (∀ v, tarNumber field = some v → 2 ^ 63 ≤ v) → (tarerofsParsenum errno field).2 ≠ 0

/-- The fields that pass for a number: a sum of base 256 that does not fit, white space that starts
with a space and has no digits behind it, and digits up to a space, a NUL or the end in a field with
other characters. -/
def FieldDefect (errno : ℕ) : List UInt8 → Prop
  | [] => False
  | b :: field =>
      if b = 128 then errno = 0 ∧ 2 ^ 63 ≤ value 256 (field.map UInt8.toNat)
      else if digits 8 (b :: field) = [] then b = 32
      else ((behind 8 (b :: field)).headD 0 = 0 ∨ (behind 8 (b :: field)).headD 0 = 32) ∧
        (b :: field).all octalChar = false

section Base256

theorem foldl_i64 (field : List UInt8) :
    field.foldl (fun res c => i64 (i64 (res * 256) + c.toNat)) 0 =
      i64 (value 256 (field.map UInt8.toNat)) := by
  have h := foldl_bmod (2 ^ 64) 256 (field.map UInt8.toNat) 0
  rw [List.foldl_map] at h
  exact h

theorem i64_of_lt {v : ℕ} (h : v < 2 ^ 63) : i64 v = v :=
  Int.bmod_eq_of_le (by omega) (by omega)

theorem parsenumSound_base256 (errno : ℕ) (field : List UInt8) :
    ParsenumSound errno (128 :: field) ↔
      ¬ (errno = 0 ∧ 2 ^ 63 ≤ value 256 (field.map UInt8.toNat)) := by
  have hnumber : tarNumber (128 :: field) = some (value 256 (field.map UInt8.toNat)) := by
    rw [tarNumber, if_pos rfl]
  have hparse : tarerofsParsenum errno (128 :: field) =
      (i64 (value 256 (field.map UInt8.toNat)), errno) := by
    rw [tarerofsParsenum, if_pos rfl, foldl_i64]
  constructor
  · rintro ⟨-, hrejects⟩ ⟨hzero, hbig⟩
    refine hrejects ?_ (by rw [hparse, hzero])
    intro v hv
    rw [hnumber] at hv
    obtain rfl := Option.some.inj hv
    exact hbig
  · intro hno
    refine ⟨?_, ?_⟩
    · intro hzero
      rw [hparse] at hzero ⊢
      have hfits : value 256 (field.map UInt8.toNat) < 2 ^ 63 := by
        by_contra hlt
        exact hno ⟨hzero, Nat.not_lt.mp hlt⟩
      refine ⟨_, hnumber, ?_⟩
      dsimp only
      exact i64_of_lt hfits
    · intro hbig hzero
      rw [hparse] at hzero
      exact hno ⟨hzero, hbig _ hnumber⟩

end Base256

section Octal

variable {field : List UInt8}

theorem digits_nul (field : List UInt8) : digits 8 (field ++ [0]) = digits 8 field :=
  digits_concat_nul (by decide) field

/-- Without digits `endp` is at the start of the field, and a space there passes for its end. -/
theorem tarerofsOtoi_nil (h : digits 8 field = []) :
    tarerofsOtoi field = (0, if field.headD 0 = 32 then 0 else errnoEinval) := by
  have hstrtol : strtol 8 (field ++ [0]) = (0, field ++ [0], false) := by
    rw [strtol, if_pos (by rw [digits_nul, h])]
  unfold tarerofsOtoi
  simp only
  rw [hstrtol]
  simp only [and_true, Bool.false_eq_true, if_false]
  have hhead : (field ++ [0]).headD 0 = field.headD 0 := by
    cases field with
    | nil => rfl
    | cons b field => rfl
  rw [hhead]
  congr 1
  by_cases hspace : field.headD 0 = 32
  · rw [if_pos hspace, hspace]
    decide
  · rw [if_neg hspace, if_pos]
    by_cases hzero : field.headD 0 = 0
    · exact Or.inl hzero
    · exact Or.inr ⟨hzero, hspace⟩

theorem digitValue_small (hlen : field.length ≤ 20) : digitValue 8 (digits 8 field) < 2 ^ 63 := by
  have hlt := digitValue_lt (by decide : 1 < 8) fun c hc => @mem_digits 8 field c hc
  have hpow : 8 ^ (digits 8 field).length ≤ 8 ^ 20 :=
    Nat.pow_le_pow_right (by decide) ((length_digits_le 8 field).trans hlen)
  exact lt_of_lt_of_le hlt (hpow.trans (by decide))

theorem tarerofsOtoi_digits (h : digits 8 field ≠ []) (hlen : field.length ≤ 20) :
    tarerofsOtoi field = (if negative field then -(digitValue 8 (digits 8 field) : ℤ)
      else digitValue 8 (digits 8 field),
      if (behind 8 field).headD 0 = 0 ∨ (behind 8 field).headD 0 = 32 then 0 else errnoEinval) := by
  generalize hv : (if negative field then -(digitValue 8 (digits 8 field) : ℤ)
    else digitValue 8 (digits 8 field)) = v
  have hrange : -2 ^ 63 ≤ v ∧ v ≤ 2 ^ 63 - 1 := by
    have hsmall := digitValue_small hlen
    generalize digitValue 8 (digits 8 field) = n at hv hsmall
    rw [← hv]
    split <;> constructor <;> omega
  have hstrtol : strtol 8 (field ++ [0]) = (v, behind 8 field ++ [0], false) := by
    rw [strtol, if_neg (by rw [digits_nul]; exact h), digits_nul, negative_concat_nul,
      behind_concat_nul (by decide), hv]
    simp only
    rw [min_eq_left hrange.2, max_eq_right hrange.1, decide_eq_false (by omega)]
  have hend : behind 8 field ++ [0] ≠ field ++ [0] := by
    intro heq
    have hlt := length_behind_lt h
    rw [List.append_cancel_right heq] at hlt
    exact absurd hlt (Nat.lt_irrefl _)
  have hhead : (behind 8 field ++ [0]).headD 0 = (behind 8 field).headD 0 := by
    cases behind 8 field with
    | nil => rfl
    | cons b rest => rfl
  unfold tarerofsOtoi
  simp only
  rw [hstrtol]
  simp only [hend, hhead, and_false, false_or, Bool.false_eq_true, if_false]
  congr 1
  by_cases hstop : (behind 8 field).headD 0 = 0 ∨ (behind 8 field).headD 0 = 32
  · rw [if_pos hstop, if_neg (fun hno => hstop.elim hno.1 hno.2)]
  · rw [if_neg hstop, if_pos (not_or.mp hstop)]

theorem digits_of_octalChar (h : field.all octalChar = true) :
    digits 8 field = octalDigits field ∧ negative field = false := by
  have hbody := @body_of_spaces field fun c hc => by
    have hchar := List.all_eq_true.mp h c hc
    unfold octalChar isDigit at hchar
    unfold isspace isSign
    simp only [Bool.or_eq_true, Bool.and_eq_true, decide_eq_true_eq, beq_iff_eq,
      Bool.or_eq_false_iff, beq_eq_false_iff_ne, UInt8.le_iff_toNat_le, ← UInt8.toNat_inj, ne_eq,
      UInt8.reduceToNat] at hchar ⊢
    omega
  exact ⟨by rw [digits, hbody.1, octalDigits], hbody.2⟩

theorem tarNumber_octal {b : UInt8} (hb : b ≠ 128) (h : (b :: field).all octalChar = true)
    (hdigits : digits 8 (b :: field) ≠ []) :
    tarNumber (b :: field) = some (digitValue 8 (digits 8 (b :: field))) := by
  have hsame := (digits_of_octalChar h).1
  rw [tarNumber, if_neg hb, ← hsame, if_pos ⟨h, hdigits⟩]

theorem tarNumber_none {b : UInt8} (hb : b ≠ 128)
    (h : digits 8 (b :: field) = [] ∨ (b :: field).all octalChar = false) :
    tarNumber (b :: field) = none := by
  rw [tarNumber, if_neg hb, if_neg]
  rintro ⟨hall, hne⟩
  rcases h with hnil | hfalse
  · rw [(digits_of_octalChar hall).1] at hnil
    exact hne hnil
  · rw [hfalse] at hall
    exact absurd hall (by decide)

/-- Behind the digits of a field of octal characters is a space, a NUL or the end. -/
theorem behind_of_octalChar (h : field.all octalChar = true) :
    (behind 8 field).headD 0 = 0 ∨ (behind 8 field).headD 0 = 32 := by
  cases heq : behind 8 field with
  | nil => exact Or.inl rfl
  | cons c rest =>
      have hmem : c ∈ field := by
        refine body_subset field ((List.dropWhile_suffix (isDigit 8)).mem ?_)
        change c ∈ behind 8 field
        rw [heq]
        exact List.mem_cons_self
      have hstop : isDigit 8 c = false := by
        have hhead := List.head?_dropWhile_not (isDigit 8) (body field)
        rw [show (body field).dropWhile (isDigit 8) = c :: rest from heq] at hhead
        simpa using hhead
      have hchar := List.all_eq_true.mp h c hmem
      unfold octalChar at hchar
      rw [hstop] at hchar
      simp only [Bool.false_or, Bool.or_eq_true, beq_iff_eq] at hchar
      exact hchar.symm

/-- An octal field without digits is sound unless it starts with a space. -/
theorem parsenumSound_nil {b : UInt8} (hb : b ≠ 128) (hdigits : digits 8 (b :: field) = [])
    (errno : ℕ) : ParsenumSound errno (b :: field) ↔ b ≠ 32 := by
  have hnumber := tarNumber_none hb (Or.inl hdigits)
  have hparse : tarerofsParsenum errno (b :: field) = (0, if b = 32 then 0 else errnoEinval) := by
    rw [tarerofsParsenum, if_neg hb, tarerofsOtoi_nil hdigits]
    rfl
  constructor
  · rintro ⟨hvalue, -⟩ hspace
    obtain ⟨v, hv, -⟩ := hvalue (by rw [hparse, if_pos hspace])
    rw [hnumber] at hv
    exact absurd hv (by simp)
  · intro hspace
    have herrno : (tarerofsParsenum errno (b :: field)).2 ≠ 0 := by
      rw [hparse, if_neg hspace]
      decide
    exact ⟨fun hzero => absurd hzero herrno, fun _ => herrno⟩

/-- An octal field with digits is sound unless it is accepted and has other characters. -/
theorem parsenumSound_digits {b : UInt8} (hb : b ≠ 128) (hdigits : digits 8 (b :: field) ≠ [])
    (hlen : (b :: field).length ≤ 20) (errno : ℕ) : ParsenumSound errno (b :: field) ↔
      ¬ (((behind 8 (b :: field)).headD 0 = 0 ∨ (behind 8 (b :: field)).headD 0 = 32) ∧
        (b :: field).all octalChar = false) := by
  have hparse : tarerofsParsenum errno (b :: field) = tarerofsOtoi (b :: field) := by
    rw [tarerofsParsenum, if_neg hb]
  rw [tarerofsOtoi_digits hdigits hlen] at hparse
  by_cases hstop : (behind 8 (b :: field)).headD 0 = 0 ∨ (behind 8 (b :: field)).headD 0 = 32
  · rw [if_pos hstop] at hparse
    constructor
    · rintro ⟨hvalue, -⟩ ⟨-, hother⟩
      obtain ⟨v, hv, -⟩ := hvalue (by rw [hparse])
      rw [tarNumber_none hb (Or.inr hother)] at hv
      exact absurd hv (by simp)
    · intro hno
      have hall : (b :: field).all octalChar = true := by
        by_contra hother
        exact hno ⟨hstop, Bool.eq_false_of_not_eq_true hother⟩
      have hnumber := tarNumber_octal hb hall hdigits
      rw [(digits_of_octalChar hall).2, if_neg (by decide)] at hparse
      refine ⟨fun _ => ⟨_, hnumber, by rw [hparse]⟩, fun hbig => ?_⟩
      exact absurd (hbig _ hnumber) (Nat.not_le.mpr (digitValue_small hlen))
  · rw [if_neg hstop] at hparse
    have herrno : (tarerofsParsenum errno (b :: field)).2 ≠ 0 := by
      rw [hparse]
      exact (by decide : errnoEinval ≠ 0)
    exact iff_of_true ⟨fun hzero => absurd hzero herrno, fun _ => herrno⟩ fun hno => hstop hno.1

end Octal

/-- A number field is taken for what it stands for, or rejected, exactly if it is none of the fields
that pass for a number. -/
theorem tarerofsParsenum_sound_iff (errno : ℕ) {field : List UInt8}
    (hlen : field.length = 7 ∨ field.length = 8 ∨ field.length = 12) :
    ParsenumSound errno field ↔ ¬ FieldDefect errno field := by
  cases field with
  | nil => exact absurd hlen (by decide)
  | cons b field =>
      rw [FieldDefect]
      by_cases hb : b = 128
      · rw [if_pos hb, hb]
        exact parsenumSound_base256 errno field
      · rw [if_neg hb]
        by_cases hdigits : digits 8 (b :: field) = []
        · rw [if_pos hdigits]
          exact parsenumSound_nil hb hdigits errno
        · rw [if_neg hdigits]
          exact parsenumSound_digits hb hdigits (by omega) errno

/-- A field whose number fits is accepted when `errno` was zero. -/
theorem tarerofsParsenum_of_tarNumber {field : List UInt8} {v : ℕ} (h : tarNumber field = some v)
    (hv : v < 2 ^ 63) (hlen : field.length ≤ 20) : tarerofsParsenum 0 field = ((v : ℤ), 0) := by
  cases field with
  | nil => exact absurd h (by simp [tarNumber])
  | cons b field =>
      by_cases hb : b = 128
      · rw [tarNumber, if_pos hb] at h
        obtain rfl := Option.some.inj h
        rw [tarerofsParsenum, if_pos hb, foldl_i64, i64_of_lt hv]
      · have hnumber := h
        rw [tarNumber, if_neg hb] at h
        split_ifs at h with hplain
        obtain ⟨hsame, hsign⟩ := digits_of_octalChar hplain.1
        have hdigits : digits 8 (b :: field) ≠ [] := hsame ▸ hplain.2
        rw [tarNumber_octal hb hplain.1 hdigits] at hnumber
        obtain rfl := Option.some.inj hnumber
        rw [tarerofsParsenum, if_neg hb, tarerofsOtoi_digits hdigits hlen, hsign,
          if_neg (by decide), if_pos (behind_of_octalChar hplain.1)]

theorem tarerofsParsenum_sound_size :
    ParsenumSound 0 [48, 48, 48, 48, 48, 48, 48, 49, 55, 53, 48, 0] := by
  refine (tarerofsParsenum_sound_iff 0 (by decide)).mpr ?_
  unfold FieldDefect
  decide +kernel

/-- A size of eleven bytes 255 in base 256 is accepted as -1. -/
theorem tarerofsParsenum_negative :
    tarerofsParsenum 0 (128 :: List.replicate 11 255) = (-1, 0) ∧
      ¬ ParsenumSound 0 (128 :: List.replicate 11 255) := by
  have hparse : tarerofsParsenum 0 (128 :: List.replicate 11 255) = (-1, 0) := by decide +kernel
  refine ⟨hparse, ?_⟩
  rintro ⟨hvalue, -⟩
  obtain ⟨v, -, hv⟩ := hvalue (by rw [hparse])
  rw [hparse] at hv
  exact absurd hv (by omega)

end ErofsUtils
