import Mathlib.Data.List.Basic
import Mathlib.Tactic.IntervalCases

/-!
# Base64 and streams of six-bit symbols

The encoding of bytes by symbols of six bits, whose first symbol has the high bits of the first
byte, and next to it the stream in which the first symbol has the low bits. The last section says
which byte strings are the same in both.
-/

namespace ErofsUtils.Base64

def alphabet : List UInt8 :=
  "ABCDEFGHIJKLMNOPQRSTUVWXYZabcdefghijklmnopqrstuvwxyz0123456789+/".toUTF8.data.toList

def symbol (x : ℕ) : UInt8 := alphabet.getD x 0

/-- The character `=`. -/
def pad : UInt8 := 61

/-- The symbols of a byte string, with the high bits first. -/
def sextets : List UInt8 → List ℕ
  | [] => []
  | [a] => [a.toNat / 4, a.toNat % 4 * 16]
  | [a, b] => [a.toNat / 4, a.toNat % 4 * 16 + b.toNat / 16, b.toNat % 16 * 4]
  | a :: b :: c :: rest =>
    a.toNat / 4 :: (a.toNat % 4 * 16 + b.toNat / 16) :: (b.toNat % 16 * 4 + c.toNat / 64) ::
      c.toNat % 64 :: sextets rest

def encode (padded : Bool) (v : List UInt8) : List UInt8 :=
  (sextets v).map symbol ++ List.replicate (if padded then (3 - v.length % 3) % 3 else 0) pad

def unpad (s : List UInt8) : List UInt8 :=
  if s.length % 4 = 0 then
    if s[s.length - 2]? = some pad ∧ s[s.length - 1]? = some pad then s.take (s.length - 2)
    else if s[s.length - 1]? = some pad then s.take (s.length - 1)
    else s
  else s

/-- The whole bytes of a stream with the low bits first, behind `bits` bits of value `ac`. -/
def lowOctets : ℕ → ℕ → List ℕ → List UInt8
  | _, _, [] => []
  | bits, ac, x :: xs =>
    if 8 ≤ bits + 6 then
      UInt8.ofNat (ac + x * 2 ^ bits) :: lowOctets (bits + 6 - 8) ((ac + x * 2 ^ bits) / 256) xs
    else lowOctets (bits + 6) (ac + x * 2 ^ bits) xs

def lowRest : ℕ → ℕ → List ℕ → ℕ
  | _, ac, [] => ac
  | bits, ac, x :: xs =>
    if 8 ≤ bits + 6 then lowRest (bits + 6 - 8) ((ac + x * 2 ^ bits) / 256) xs
    else lowRest (bits + 6) (ac + x * 2 ^ bits) xs

section Symbols

theorem symbol_ne_pad (x : ℕ) (hx : x < 64) : symbol x ≠ pad := by
  have h : ∀ y : Fin 64, symbol y.1 ≠ pad := by decide
  exact h ⟨x, hx⟩

theorem sextets_lt (v : List UInt8) : ∀ x ∈ sextets v, x < 64 := by
  induction v using sextets.induct with
  | case1 => simp [sextets]
  | case2 a =>
    have ha := a.toNat_lt
    simp only [sextets, List.mem_cons, List.not_mem_nil, or_false]
    omega
  | case3 a b =>
    have ha := a.toNat_lt
    have hb := b.toNat_lt
    simp only [sextets, List.mem_cons, List.not_mem_nil, or_false]
    omega
  | case4 a b c rest ih =>
    have ha := a.toNat_lt
    have hb := b.toNat_lt
    have hc := c.toNat_lt
    intro x hx
    simp only [sextets, List.mem_cons] at hx
    rcases hx with hx | hx | hx | hx | hx
    · omega
    · omega
    · omega
    · omega
    · exact ih x hx

theorem pad_notMem_map_symbol (v : List UInt8) : pad ∉ (sextets v).map symbol := by
  intro h
  obtain ⟨x, hx, heq⟩ := List.mem_map.mp h
  exact symbol_ne_pad x (sextets_lt v x hx) heq

/-- Symbols and padding together are a multiple of four. -/
theorem length_sextets (v : List UInt8) :
    ((sextets v).length + (3 - v.length % 3) % 3) % 4 = 0 ∧
      ((sextets v).length % 4 = 0 → v.length % 3 = 0) := by
  induction v using sextets.induct with
  | case1 => simp [sextets]
  | case2 a => simp [sextets]
  | case3 a b => simp [sextets]
  | case4 a b c rest ih =>
    simp only [sextets, List.length_cons]
    omega

end Symbols

section Padding

variable {xs : List UInt8}

/-- Padding that makes the length a multiple of four is found. -/
theorem unpad_append (hpad : pad ∉ xs) {k : ℕ} (hk : k ≤ 2)
    (hlen : (xs.length + k) % 4 = 0 ∨ k = 0) : unpad (xs ++ List.replicate k pad) = xs := by
  have hlast : ∀ i : ℕ, xs[i]? ≠ some pad := by
    intro i h
    exact hpad (List.mem_of_getElem? h)
  obtain rfl | rfl | rfl : k = 0 ∨ k = 1 ∨ k = 2 := by omega
  · simp [unpad, hlast]
  · have h1 : (xs ++ [pad])[xs.length - 1]? ≠ some pad := by
      cases xs with
      | nil => simp at hlen
      | cons c cs =>
        rw [List.getElem?_append_left (by simp)]
        exact hlast _
    have hl : (xs.length + 1) % 4 = 0 := by omega
    have hlength : (xs ++ List.replicate 1 pad).length = xs.length + 1 := by simp
    have htwo : ¬ ((xs ++ List.replicate 1 pad)[xs.length + 1 - 2]? = some pad ∧
        (xs ++ List.replicate 1 pad)[xs.length + 1 - 1]? = some pad) := fun h => h1 h.1
    have hone : (xs ++ List.replicate 1 pad)[xs.length + 1 - 1]? = some pad := by simp
    rw [unpad, hlength, if_pos hl, if_neg htwo, if_pos hone, Nat.add_sub_cancel, List.take_left]
  · have hl : (xs.length + 2) % 4 = 0 := by omega
    simp [unpad, hl]

theorem unpad_encode (padded : Bool) (v : List UInt8) :
    unpad (encode padded v) = (sextets v).map symbol := by
  have hlen := length_sextets v
  apply unpad_append (pad_notMem_map_symbol v)
  · split <;> omega
  · rw [List.length_map]
    cases padded with
    | false => exact Or.inr rfl
    | true => exact Or.inl hlen.1

end Padding

section LowFirst

variable {xs : List ℕ}

theorem lowOctets_four {x₀ x₁ x₂ x₃ : ℕ} (h₀ : x₀ < 64) (h₁ : x₁ < 64) (h₂ : x₂ < 64)
    (h₃ : x₃ < 64) :
    lowOctets 0 0 (x₀ :: x₁ :: x₂ :: x₃ :: xs) =
      UInt8.ofNat (x₀ + x₁ * 64) :: UInt8.ofNat (x₁ / 4 + x₂ * 16) ::
        UInt8.ofNat (x₂ / 16 + x₃ * 4) :: lowOctets 0 0 xs := by
  have e₁ : (x₀ + x₁ * 64) / 256 = x₁ / 4 := by omega
  have e₂ : (x₁ / 4 + x₂ * 16) / 256 = x₂ / 16 := by omega
  have e₃ : (x₂ / 16 + x₃ * 4) / 256 = 0 := by omega
  simp [lowOctets, e₁, e₂, e₃]

theorem lowRest_four {x₀ x₁ x₂ x₃ : ℕ} (h₀ : x₀ < 64) (h₁ : x₁ < 64) (h₂ : x₂ < 64)
    (h₃ : x₃ < 64) : lowRest 0 0 (x₀ :: x₁ :: x₂ :: x₃ :: xs) = lowRest 0 0 xs := by
  have e₁ : (x₀ + x₁ * 64) / 256 = x₁ / 4 := by omega
  have e₂ : (x₁ / 4 + x₂ * 16) / 256 = x₂ / 16 := by omega
  have e₃ : (x₂ / 16 + x₃ * 4) / 256 = 0 := by omega
  simp [lowRest, e₁, e₂, e₃]

/-- What is left over are the high bits of the last symbol. -/
theorem lowRest_ne_zero : ∀ {xs : List ℕ}, (∀ x ∈ xs, x < 64) →
    (lowRest 0 0 xs ≠ 0 ↔ ∃ x ∈ xs.getLast?, 2 ^ (6 - 6 * xs.length % 8) ≤ x)
  | [], _ => by simp [lowRest]
  | [x], _ => by
    simp [lowRest]
    omega
  | [x, y], h => by
    have hx := h x (by simp)
    simp [lowRest]
    omega
  | [x, y, z], h => by
    have hx := h x (by simp)
    have hy := h y (by simp)
    have e : (x + y * 64) / 256 = y / 4 := by omega
    simp [lowRest, e]
    omega
  | x :: y :: z :: w :: xs, h => by
    have hw := h w (by simp)
    have hxs : ∀ u ∈ xs, u < 64 := by
      intro u hu
      exact h u (by simp [hu])
    have ih := lowRest_ne_zero hxs
    rw [lowRest_four (h x (by simp)) (h y (by simp)) (h z (by simp)) hw, ih]
    have hlen : 6 * (x :: y :: z :: w :: xs).length % 8 = 6 * xs.length % 8 := by
      simp only [List.length_cons]
      omega
    rw [hlen]
    cases xs with
    | nil => simp; omega
    | cons u us => simp [List.getLast?_cons_cons]

end LowFirst

section Same

/-- Three bytes whose four symbols say the same in both streams, and are none of them the last
one of the alphabet. -/
def SameGroup (a b c : UInt8) : Prop :=
  c = a ∧ (a = 0x00 ∨ a = 0x55 ∨ a = 0xaa) ∧ b.toNat / 4 % 16 = a.toNat % 16 ∧
    b.toNat / 64 = b.toNat % 4

/-- Each group of three bytes is the same in both streams; the last group is filled up with
zeros. -/
def SameGroups : List UInt8 → Prop
  | [] => True
  | [a] => SameGroup a 0 0
  | [a, b] => SameGroup a b 0
  | a :: b :: c :: rest => SameGroup a b c ∧ SameGroups rest

theorem digit_inj {d d' m m' : ℕ} (hd : d < 4) (hd' : d' < 4) (h : d + 4 * m = d' + 4 * m') :
    d = d' ∧ m = m' := by
  omega

theorem first_octet_eq {a q : ℕ} (ha : a < 256) (hq : q < 4) :
    a / 4 + q * 64 = a ↔ a = 85 * q := by
  interval_cases q <;> omega

theorem last_octet_eq {c r : ℕ} (hc : c < 256) (hr : r < 4) :
    r + c % 64 * 4 = c ↔ c = 85 * r := by
  interval_cases r <;> omega

/-- The three bytes of a group, the second one by its digits in base four. -/
theorem same_digits {a b₀ b₁ b₂ b₃ c : ℕ} (ha : a < 256) (h₀ : b₀ < 4) (h₁ : b₁ < 4)
    (h₂ : b₂ < 4) (h₃ : b₃ < 4) (hc : c < 256) :
    (c = a ∧ (a = 0 ∨ a = 85 ∨ a = 170) ∧ b₁ + 4 * b₂ = a % 16 ∧ b₃ = b₀) ↔
      (a / 4 ≠ 63 ∧ a % 4 * 16 + (b₂ + 4 * b₃) ≠ 63 ∧ (b₀ + 4 * b₁) * 4 + c / 64 ≠ 63 ∧
        c % 64 ≠ 63) ∧
      a / 4 + b₂ * 64 = a ∧
      a % 4 * 4 + b₃ + (b₀ * 4 + c / 64) * 16 = b₀ + 4 * (b₁ + 4 * (b₂ + 4 * b₃)) ∧
      b₁ + c % 64 * 4 = c := by
  rw [first_octet_eq ha h₂, last_octet_eq hc h₁]
  constructor
  · rintro ⟨rfl, h | h | h, hb, rfl⟩
    · omega
    · omega
    · omega
  · rintro ⟨⟨h63, -, -, -⟩, rfl, h, rfl⟩
    have hlow : 85 * b₂ % 4 = b₂ := by omega
    have hhigh : 85 * b₁ / 64 = b₁ := by omega
    rw [hlow, hhigh] at h
    have hpow : b₃ + 4 * (b₂ + 4 * (b₁ + 4 * b₀)) = b₀ + 4 * (b₁ + 4 * (b₂ + 4 * b₃)) := by
      omega
    obtain ⟨rfl, hpow⟩ := digit_inj h₃ h₀ hpow
    obtain ⟨rfl, hpow⟩ := digit_inj h₂ h₁ hpow
    omega

theorem ofNat_eq_iff (n : ℕ) (a : UInt8) : UInt8.ofNat n = a ↔ n % 256 = a.toNat := by
  rw [← UInt8.toNat_inj, UInt8.toNat_ofNat']

theorem sameGroup_iff (a b c : UInt8) :
    SameGroup a b c ↔
      (a.toNat / 4 ≠ 63 ∧ a.toNat % 4 * 16 + b.toNat / 16 ≠ 63 ∧
        b.toNat % 16 * 4 + c.toNat / 64 ≠ 63 ∧ c.toNat % 64 ≠ 63) ∧
      UInt8.ofNat (a.toNat / 4 + (a.toNat % 4 * 16 + b.toNat / 16) * 64) = a ∧
      UInt8.ofNat ((a.toNat % 4 * 16 + b.toNat / 16) / 4 +
        (b.toNat % 16 * 4 + c.toNat / 64) * 16) = b ∧
      UInt8.ofNat ((b.toNat % 16 * 4 + c.toNat / 64) / 16 + c.toNat % 64 * 4) = c := by
  have ha := a.toNat_lt
  have hb := b.toNat_lt
  have hc := c.toNat_lt
  obtain ⟨b₀, b₁, b₂, b₃, h₀, h₁, h₂, h₃, heq⟩ : ∃ b₀ b₁ b₂ b₃, b₀ < 4 ∧ b₁ < 4 ∧ b₂ < 4 ∧
      b₃ < 4 ∧ b.toNat = b₀ + 4 * (b₁ + 4 * (b₂ + 4 * b₃)) :=
    ⟨b.toNat % 4, b.toNat / 4 % 4, b.toNat / 16 % 4, b.toNat / 64, by omega⟩
  have ea : ∀ n : UInt8, a = n ↔ a.toNat = n.toNat := fun n => UInt8.toNat_inj.symm
  have hdiv : b.toNat / 16 = b₂ + 4 * b₃ := by omega
  have hmod : b.toNat % 16 = b₀ + 4 * b₁ := by omega
  have hmid : b.toNat / 4 % 16 = b₁ + 4 * b₂ := by omega
  have hhigh : b.toNat / 64 = b₃ := by omega
  have hlow : b.toNat % 4 = b₀ := by omega
  rw [SameGroup, ← UInt8.toNat_inj, ea, ea, ea, hdiv, hmod, hmid, hhigh, hlow, ofNat_eq_iff,
    ofNat_eq_iff, ofNat_eq_iff, heq]
  have e₀ : (a.toNat / 4 + (a.toNat % 4 * 16 + (b₂ + 4 * b₃)) * 64) % 256 =
      a.toNat / 4 + b₂ * 64 := by omega
  have e₁ : ((a.toNat % 4 * 16 + (b₂ + 4 * b₃)) / 4 +
      ((b₀ + 4 * b₁) * 4 + c.toNat / 64) * 16) % 256 =
        a.toNat % 4 * 4 + b₃ + (b₀ * 4 + c.toNat / 64) * 16 := by
    have hd : (a.toNat % 4 * 16 + (b₂ + 4 * b₃)) / 4 = a.toNat % 4 * 4 + b₃ := by omega
    rw [hd]
    omega
  have e₂ : (((b₀ + 4 * b₁) * 4 + c.toNat / 64) / 16 + c.toNat % 64 * 4) % 256 =
      b₁ + c.toNat % 64 * 4 := by
    have hd : ((b₀ + 4 * b₁) * 4 + c.toNat / 64) / 16 = b₁ := by omega
    rw [hd]
    omega
  rw [e₀, e₁, e₂]
  exact same_digits ha h₀ h₁ h₂ h₃ hc

/-- The bytes that are read back from the symbols in the other stream. -/
theorem sameGroups_iff (v : List UInt8) :
    SameGroups v ↔
      63 ∉ sextets v ∧ lowOctets 0 0 (sextets v) = v ∧ lowRest 0 0 (sextets v) = 0 := by
  induction v using sextets.induct with
  | case1 => simp [SameGroups, sextets, lowOctets, lowRest]
  | case2 a =>
    have ha := a.toNat_lt
    have hrest : (a.toNat / 4 + a.toNat % 4 * 16 * 64) / 256 = a.toNat % 4 * 16 / 4 := by omega
    have hzero : UInt8.ofNat (a.toNat % 4 * 16 / 4) = 0 ↔ a.toNat % 4 * 16 / 4 = 0 := by
      rw [ofNat_eq_iff, UInt8.toNat_zero]
      omega
    have hgroup := sameGroup_iff a 0 0
    simp only [UInt8.toNat_zero, Nat.zero_div, Nat.zero_mod, Nat.zero_mul, Nat.add_zero,
      hzero] at hgroup
    have hlow : lowOctets 0 0 (sextets [a]) =
        [UInt8.ofNat (a.toNat / 4 + a.toNat % 4 * 16 * 64)] := by
      simp [lowOctets, sextets]
    have hleft : lowRest 0 0 (sextets [a]) = a.toNat % 4 * 16 / 4 := by
      simp [lowRest, sextets, hrest]
    rw [SameGroups, hgroup, hlow, hleft, sextets, List.mem_cons, List.mem_singleton,
      List.cons.injEq]
    constructor
    · rintro ⟨⟨h1, h2, -⟩, h3, h4, -⟩
      exact ⟨by omega, ⟨h3, rfl⟩, h4⟩
    · rintro ⟨h1, ⟨h2, -⟩, h3⟩
      exact ⟨⟨by omega, by omega, by omega, by omega⟩, h2, h3, rfl⟩
  | case3 a b =>
    have ha := a.toNat_lt
    have hb := b.toNat_lt
    have e₁ : (a.toNat / 4 + (a.toNat % 4 * 16 + b.toNat / 16) * 64) / 256 =
        (a.toNat % 4 * 16 + b.toNat / 16) / 4 := by omega
    have e₂ : ((a.toNat % 4 * 16 + b.toNat / 16) / 4 + b.toNat % 16 * 4 * 16) / 256 =
        b.toNat % 16 * 4 / 16 := by omega
    have hzero : UInt8.ofNat (b.toNat % 16 * 4 / 16) = 0 ↔ b.toNat % 16 * 4 / 16 = 0 := by
      rw [ofNat_eq_iff, UInt8.toNat_zero]
      omega
    have hgroup := sameGroup_iff a b 0
    simp only [UInt8.toNat_zero, Nat.zero_div, Nat.zero_mod, Nat.zero_mul, Nat.add_zero,
      hzero] at hgroup
    have hlow : lowOctets 0 0 (sextets [a, b]) =
        [UInt8.ofNat (a.toNat / 4 + (a.toNat % 4 * 16 + b.toNat / 16) * 64),
          UInt8.ofNat ((a.toNat % 4 * 16 + b.toNat / 16) / 4 + b.toNat % 16 * 4 * 16)] := by
      simp [lowOctets, sextets, e₁]
    have hleft : lowRest 0 0 (sextets [a, b]) = b.toNat % 16 * 4 / 16 := by
      simp [lowRest, sextets, e₁, e₂]
    rw [SameGroups, hgroup, hlow, hleft, sextets, List.mem_cons, List.mem_cons,
      List.mem_singleton, List.cons.injEq, List.cons.injEq]
    constructor
    · rintro ⟨⟨h1, h2, h3, -⟩, h4, h5, h6⟩
      exact ⟨by omega, ⟨h4, h5, rfl⟩, h6⟩
    · rintro ⟨h1, ⟨h2, h3, -⟩, h4⟩
      exact ⟨⟨by omega, by omega, by omega, by omega⟩, h2, h3, h4⟩
  | case4 a b c rest ih =>
    have hlt := sextets_lt (a :: b :: c :: rest)
    simp only [sextets, List.forall_mem_cons] at hlt
    obtain ⟨h₀, h₁, h₂, h₃, -⟩ := hlt
    rw [SameGroups, sextets, lowOctets_four h₀ h₁ h₂ h₃, lowRest_four h₀ h₁ h₂ h₃,
      sameGroup_iff, ih]
    simp only [List.mem_cons, not_or, List.cons.injEq, ne_eq, eq_comm]
    tauto

end Same

end ErofsUtils.Base64
