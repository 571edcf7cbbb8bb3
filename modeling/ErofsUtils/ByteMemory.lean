import Mathlib.Data.List.Basic
import Mathlib.Tactic.Ring

/-!
# Byte memories and little-endian words

A memory is a total map from offsets to bytes, and a stored structure is a list of bytes
held from some offset on. The lemmas below read a word back from a memory that holds its
bytes, and move between a list of fixed-size records and each of its records.
-/

namespace ErofsUtils.ByteMemory

abbrev Mem := ℕ → UInt8

/-- The `w`-byte little-endian word at `pos`. -/
def leNat (mem : Mem) (pos : ℕ) : ℕ → ℕ
  | 0 => 0
  | w + 1 => (mem pos).toNat + 256 * leNat mem (pos + 1) w

/-- The `w` low bytes of `n`, least significant first. -/
def leBytes : ℕ → ℕ → List UInt8
  | 0, _ => []
  | w + 1, n => UInt8.ofNat n :: leBytes w (n / 256)

def Holds (mem : Mem) (pos : ℕ) (bs : List UInt8) : Prop :=
  ∀ i b, bs[i]? = some b → mem (pos + i) = b

/-- `memcpy` into a memory. -/
def store (mem : Mem) (pos : ℕ) (bs : List UInt8) : Mem := fun k =>
  if pos ≤ k then (bs[k - pos]?).getD (mem k) else mem k

@[simp] theorem length_leBytes (w n : ℕ) : (leBytes w n).length = w := by
  induction w generalizing n with
  | zero => rfl
  | succ w ih => simp only [leBytes, List.length_cons, ih]

theorem holds_nil (mem : Mem) (pos : ℕ) : Holds mem pos [] := by
  intro i b h
  simp at h

theorem holds_cons {mem : Mem} {pos : ℕ} {b : UInt8} {bs : List UInt8} :
    Holds mem pos (b :: bs) ↔ mem pos = b ∧ Holds mem (pos + 1) bs := by
  constructor
  · intro h
    refine ⟨by simpa using h 0 b rfl, ?_⟩
    intro i c hc
    rw [Nat.add_right_comm, Nat.add_assoc]
    exact h (i + 1) c (by simpa using hc)
  · rintro ⟨hb, hs⟩ i c hc
    cases i with
    | zero =>
        have hc' : b = c := by simpa using hc
        rw [Nat.add_zero, hb, hc']
    | succ i =>
        rw [← Nat.add_assoc, Nat.add_right_comm]
        exact hs i c (by simpa using hc)

theorem holds_append {mem : Mem} {pos : ℕ} {xs ys : List UInt8} :
    Holds mem pos (xs ++ ys) ↔ Holds mem pos xs ∧ Holds mem (pos + xs.length) ys := by
  induction xs generalizing pos with
  | nil => simp [holds_nil]
  | cons x xs ih =>
      rw [List.cons_append, holds_cons, holds_cons, ih, and_assoc, List.length_cons,
        Nat.add_assoc pos, Nat.add_comm 1]

theorem holds_congr {mem mem' : Mem} {pos : ℕ} {bs : List UInt8}
    (h : ∀ k, pos ≤ k → k < pos + bs.length → mem' k = mem k) (hb : Holds mem pos bs) :
    Holds mem' pos bs := by
  intro i b hi
  have hlt : i < bs.length := (List.getElem?_eq_some_iff.mp hi).1
  rw [h (pos + i) (by omega) (by omega)]
  exact hb i b hi

theorem holds_store (mem : Mem) (pos : ℕ) (bs : List UInt8) :
    Holds (store mem pos bs) pos bs := by
  intro i b h
  simp [store, h]

theorem store_of_lt {mem : Mem} {pos k : ℕ} (bs : List UInt8) (h : k < pos) :
    store mem pos bs k = mem k := by
  simp [store, Nat.not_le.mpr h]

theorem store_of_ge {mem : Mem} {pos k : ℕ} (bs : List UInt8) (h : pos + bs.length ≤ k) :
    store mem pos bs k = mem k := by
  have hn : bs[k - pos]? = none := List.getElem?_eq_none (by omega)
  simp [store, hn]

theorem store_nil (mem : Mem) (pos : ℕ) : store mem pos [] = mem := by
  funext k
  unfold store
  rw [List.getElem?_nil, Option.getD_none, ite_self]

theorem store_append (mem : Mem) (pos : ℕ) (xs ys : List UInt8) :
    store (store mem pos xs) (pos + xs.length) ys = store mem pos (xs ++ ys) := by
  funext k
  by_cases hk : pos + xs.length ≤ k
  · have he : k - (pos + xs.length) = k - pos - xs.length := by omega
    rw [store, if_pos hk, store_of_ge _ hk, store, if_pos (by omega),
      List.getElem?_append_right (by omega), he]
  · rw [store_of_lt _ (by omega), store, store]
    by_cases hp : pos ≤ k
    · rw [if_pos hp, if_pos hp, List.getElem?_append_left (by omega)]
    · rw [if_neg hp, if_neg hp]

/-- A word is read back from the bytes that were stored for it. -/
theorem leNat_of_holds {mem : Mem} {pos w n : ℕ} (h : Holds mem pos (leBytes w n)) :
    leNat mem pos w = n % 256 ^ w := by
  induction w generalizing pos n with
  | zero => simp [leNat, Nat.mod_one]
  | succ w ih =>
      obtain ⟨hb, hs⟩ := holds_cons.mp h
      rw [leNat, hb, ih hs, pow_succ', Nat.mod_mul, UInt8.toNat_ofNat']

theorem leNat_of_holds_of_lt {mem : Mem} {pos w n : ℕ} (h : Holds mem pos (leBytes w n))
    (hn : n < 256 ^ w) : leNat mem pos w = n := by
  rw [leNat_of_holds h, Nat.mod_eq_of_lt hn]

theorem leNat_lt (mem : Mem) (pos w : ℕ) : leNat mem pos w < 256 ^ w := by
  induction w generalizing pos with
  | zero => simp [leNat]
  | succ w ih =>
      have hb : (mem pos).toNat < 256 := (mem pos).toNat_lt
      have hs := ih (pos + 1)
      rw [leNat, pow_succ]
      omega

theorem leNat_congr {mem mem' : Mem} {pos pos' w : ℕ}
    (h : ∀ k < w, mem' (pos' + k) = mem (pos + k)) :
    leNat mem' pos' w = leNat mem pos w := by
  induction w generalizing pos pos' with
  | zero => rfl
  | succ w ih =>
      have h0 : mem' pos' = mem pos := h 0 (Nat.succ_pos w)
      have hs : leNat mem' (pos' + 1) w = leNat mem (pos + 1) w := by
        apply ih
        intro k hk
        rw [Nat.add_assoc, Nat.add_assoc, Nat.add_comm 1]
        exact h (k + 1) (by omega)
      rw [leNat, leNat, h0, hs]

section Records

variable {α : Type*} {enc : α → List UInt8} {k : ℕ}

theorem length_flatMap_records (henc : ∀ a, (enc a).length = k) (rs : List α) :
    (rs.flatMap enc).length = k * rs.length := by
  induction rs with
  | nil => simp
  | cons r rs ih =>
      rw [List.flatMap_cons, List.length_append, henc, ih, List.length_cons, Nat.mul_succ]
      omega

/-- A record of an array of fixed-size records sits at its index times the record size. -/
theorem holds_record (henc : ∀ a, (enc a).length = k) {mem : Mem} {pos : ℕ} {rs : List α}
    (h : Holds mem pos (rs.flatMap enc)) {i : ℕ} {r : α} (hi : rs[i]? = some r) :
    Holds mem (pos + k * i) (enc r) := by
  induction rs generalizing pos i with
  | nil => simp at hi
  | cons a rs ih =>
      rw [List.flatMap_cons, holds_append, henc] at h
      cases i with
      | zero =>
          have ha : a = r := by simpa using hi
          rw [← ha]
          exact h.1
      | succ i =>
          have hr := ih h.2 (by simpa using hi)
          rwa [Nat.mul_succ, Nat.add_comm (k * i), ← Nat.add_assoc]

end Records

end ErofsUtils.ByteMemory
