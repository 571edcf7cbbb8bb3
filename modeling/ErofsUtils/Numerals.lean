import Mathlib.Data.List.TakeWhile
import Mathlib.Data.Nat.Digits.Lemmas
import Mathlib.Tactic.Linarith

/-!
# Numbers from bytes

The number of a list of digits with the highest one first, by itself and in two's complement, and
`strtol` of C for bases up to ten: white space, a sign, digits, and the place behind them.
-/

namespace ErofsUtils.Numerals

section Value

/-- The number of a list of digits, the highest one first. -/
def value (base : ℕ) (ds : List ℕ) : ℕ := ds.foldl (fun v d => v * base + d) 0

theorem value_eq_ofDigits (base : ℕ) (ds : List ℕ) :
    value base ds = Nat.ofDigits base ds.reverse := by
  rw [value, Nat.ofDigits_eq_foldr, List.foldr_reverse]
  congr 1
  funext v d
  simp only [Nat.cast_id]
  ring

theorem value_lt {base : ℕ} {ds : List ℕ} (hbase : 1 < base) (h : ∀ d ∈ ds, d < base) :
    value base ds < base ^ ds.length := by
  have hlt : Nat.ofDigits base ds.reverse < base ^ ds.reverse.length :=
    Nat.ofDigits_lt_base_pow_length hbase fun d hd => h d (List.mem_reverse.mp hd)
  rwa [← value_eq_ofDigits, List.length_reverse] at hlt

/-- Horner's rule in two's complement wraps once. -/
theorem foldl_bmod (m base : ℕ) (ds : List ℕ) (v : ℕ) :
    ds.foldl (fun (res : ℤ) (d : ℕ) => ((res * base).bmod m + d).bmod m) ((v : ℤ).bmod m) =
      ((ds.foldl (fun v d => v * base + d) v : ℕ) : ℤ).bmod m := by
  induction ds generalizing v with
  | nil => rfl
  | cons d ds ih =>
      rw [List.foldl_cons, List.foldl_cons, ← ih, Int.bmod_add_bmod]
      congr 1
      rw [← Int.bmod_add_bmod, Int.bmod_mul_bmod, Int.bmod_add_bmod]
      push_cast
      rfl

end Value

section Strtol

def isspace (c : UInt8) : Bool := c == 32 || (9 ≤ c && c ≤ 13)

def isSign (c : UInt8) : Bool := c == 43 || c == 45

def isDigit (base : ℕ) (c : UInt8) : Bool := 48 ≤ c.toNat && c.toNat < 48 + base

/-- The text behind white space and a sign. -/
def body (s : List UInt8) : List UInt8 :=
  match s.dropWhile isspace with
  | [] => []
  | c :: rest => if isSign c then rest else c :: rest

def negative (s : List UInt8) : Bool := (s.dropWhile isspace).head? == some 45

def digits (base : ℕ) (s : List UInt8) : List UInt8 := (body s).takeWhile (isDigit base)

def behind (base : ℕ) (s : List UInt8) : List UInt8 := (body s).dropWhile (isDigit base)

def digitValue (base : ℕ) (ds : List UInt8) : ℕ := value base (ds.map fun c => c.toNat - 48)

/-- `strtol(s, &endp, base)` where `long` has 64 bits: the value, `endp` and whether `errno` becomes
`ERANGE`. Without digits `endp` is `s`. -/
def strtol (base : ℕ) (s : List UInt8) : ℤ × List UInt8 × Bool :=
  if digits base s = [] then (0, s, false)
  else
    let v : ℤ := if negative s then -digitValue base (digits base s)
      else digitValue base (digits base s)
    (max (-2 ^ 63) (min v (2 ^ 63 - 1)), behind base s, decide (v < -2 ^ 63 ∨ 2 ^ 63 - 1 < v))

variable {base : ℕ} {s : List UInt8}

theorem lt_of_isDigit {c : UInt8} (h : isDigit base c = true) : c.toNat - 48 < base := by
  unfold isDigit at h
  simp only [Bool.and_eq_true, decide_eq_true_eq] at h
  omega

theorem mem_digits {c : UInt8} (h : c ∈ digits base s) : isDigit base c = true :=
  List.mem_takeWhile_imp h

theorem digitValue_lt (hbase : 1 < base) {ds : List UInt8} (h : ∀ c ∈ ds, isDigit base c = true) :
    digitValue base ds < base ^ ds.length := by
  have hlt : value base (ds.map fun c => c.toNat - 48) <
      base ^ (ds.map fun c => c.toNat - 48).length := by
    refine value_lt hbase ?_
    intro d hd
    obtain ⟨c, hc, rfl⟩ := List.mem_map.mp hd
    exact lt_of_isDigit (h c hc)
  rwa [List.length_map] at hlt

theorem body_subset (s : List UInt8) : body s ⊆ s := by
  have hsub : s.dropWhile isspace ⊆ s := (List.dropWhile_suffix isspace).subset
  unfold body
  split
  · exact List.nil_subset s
  · next c rest heq =>
      rw [heq] at hsub
      split
      · exact fun d hd => hsub (List.mem_cons_of_mem c hd)
      · exact hsub

theorem length_body_le (s : List UInt8) : (body s).length ≤ s.length := by
  have hle := (List.dropWhile_suffix (l := s) isspace).length_le
  unfold body
  split
  · exact Nat.zero_le _
  · next c rest heq =>
      rw [heq, List.length_cons] at hle
      split
      · omega
      · exact hle

theorem length_digits_le (base : ℕ) (s : List UInt8) : (digits base s).length ≤ s.length :=
  (List.takeWhile_prefix _).length_le.trans (length_body_le s)

theorem length_behind_lt (h : digits base s ≠ []) : (behind base s).length < s.length := by
  have hsplit : digits base s ++ behind base s = body s := List.takeWhile_append_dropWhile
  have hlen := congrArg List.length hsplit
  rw [List.length_append] at hlen
  have hpos := List.length_pos_of_ne_nil h
  have hle := length_body_le s
  omega

/-- A byte behind the text that is no part of a number. -/
theorem dropWhile_concat {p : UInt8 → Bool} {a : UInt8} (ha : p a = false) (s : List UInt8) :
    (s ++ [a]).dropWhile p = s.dropWhile p ++ [a] := by
  induction s with
  | nil => simp [ha]
  | cons c s ih =>
      rw [List.cons_append, List.dropWhile_cons, List.dropWhile_cons]
      split
      · exact ih
      · rfl

theorem takeWhile_concat {p : UInt8 → Bool} {a : UInt8} (ha : p a = false) (s : List UInt8) :
    (s ++ [a]).takeWhile p = s.takeWhile p := by
  induction s with
  | nil => simp [ha]
  | cons c s ih =>
      rw [List.cons_append, List.takeWhile_cons, List.takeWhile_cons]
      split
      · rw [ih]
      · rfl

theorem body_concat_nul (s : List UInt8) : body (s ++ [0]) = body s ++ [0] := by
  unfold body
  rw [dropWhile_concat (by decide)]
  cases s.dropWhile isspace with
  | nil => rfl
  | cons c rest =>
      rw [List.cons_append]
      simp only
      split <;> rfl

theorem digits_concat_nul (hbase : isDigit base 0 = false) (s : List UInt8) :
    digits base (s ++ [0]) = digits base s := by
  rw [digits, body_concat_nul, takeWhile_concat hbase]
  rfl

theorem behind_concat_nul (hbase : isDigit base 0 = false) (s : List UInt8) :
    behind base (s ++ [0]) = behind base s ++ [0] := by
  rw [behind, body_concat_nul, dropWhile_concat hbase]
  rfl

theorem negative_concat_nul (s : List UInt8) : negative (s ++ [0]) = negative s := by
  unfold negative
  rw [dropWhile_concat (by decide)]
  cases s.dropWhile isspace with
  | nil => rfl
  | cons c rest => rfl

theorem body_of_spaces (h : ∀ c ∈ s, (isspace c = true → c = 32) ∧ isSign c = false) :
    body s = s.dropWhile (· == 32) ∧ negative s = false := by
  have hdrop : s.dropWhile isspace = s.dropWhile (· == 32) := by
    induction s with
    | nil => rfl
    | cons c s ih =>
        have hc : isspace c = (c == 32) := by
          rw [Bool.eq_iff_iff, beq_iff_eq]
          exact ⟨(h c List.mem_cons_self).1, fun heq => heq ▸ rfl⟩
        rw [List.dropWhile_cons, List.dropWhile_cons, hc,
          ih fun c' hc' => h c' (List.mem_cons_of_mem _ hc')]
  unfold body negative
  rw [hdrop]
  cases heq : s.dropWhile (· == 32) with
  | nil => exact ⟨rfl, rfl⟩
  | cons c rest =>
      have hmem : c ∈ s := (List.dropWhile_suffix _).mem (heq ▸ List.mem_cons_self)
      have hsign := (h c hmem).2
      refine ⟨if_neg (by rw [hsign]; decide), ?_⟩
      rw [List.head?_cons]
      unfold isSign at hsign
      simp only [Bool.or_eq_false_iff] at hsign
      simpa using hsign.2

end Strtol

end ErofsUtils.Numerals
