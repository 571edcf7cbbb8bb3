import ErofsUtils.ReadData

/-!
# A file that is written from its start

A descriptor of a file that has just been created: the bytes written so far and the position.
`lseek` moves the position without a write, and the next write fills the gap with zeroes; without
one the file stays as long as it was.
-/

namespace ErofsUtils

/-- Zeroes at the end of a byte string are not seen. -/
theorem fileByte_append_replicate (bs : List UInt8) (n i : ℕ) :
    fileByte (bs ++ List.replicate n 0) i = fileByte bs i := by
  rcases Nat.lt_or_ge i bs.length with hlt | hge
  · exact fileByte_append_left hlt
  · rw [fileByte_append_right hge, fileByte, fileByte, List.getElem?_eq_none hge,
      List.getElem?_replicate]
    split_ifs <;> rfl

/-- The most bytes one `write` takes. -/
def maxRwCount : ℕ := 0x7ffff000

structure OutFile where
  bytes : List UInt8
  pos : ℕ
  deriving DecidableEq, Repr

namespace OutFile

/-- A file as `open` with `O_CREAT` and `O_TRUNC` or `O_EXCL` leaves it. -/
def empty : OutFile := ⟨[], 0⟩

def put (f : OutFile) (bs : List UInt8) : OutFile :=
  if bs = [] then f
  else {
    bytes := f.bytes.take f.pos ++ List.replicate (f.pos - f.bytes.length) 0 ++ bs ++
      f.bytes.drop (f.pos + bs.length)
    pos := f.pos + bs.length }

/-- `write`; a longer buffer is written in part. -/
def write (f : OutFile) (bs : List UInt8) : OutFile := f.put (bs.take maxRwCount)

/-- `lseek` with `SEEK_CUR`. -/
def skip (f : OutFile) (n : ℕ) : OutFile := { f with pos := f.pos + n }

@[simp] theorem empty_bytes : empty.bytes = [] := rfl

@[simp] theorem empty_pos : empty.pos = 0 := rfl

@[simp] theorem skip_bytes (f : OutFile) (n : ℕ) : (f.skip n).bytes = f.bytes := rfl

@[simp] theorem skip_pos (f : OutFile) (n : ℕ) : (f.skip n).pos = f.pos + n := rfl

@[simp] theorem put_nil (f : OutFile) : f.put [] = f := if_pos rfl

@[simp] theorem put_pos (f : OutFile) (bs : List UInt8) :
    (f.put bs).pos = f.pos + bs.length := by
  unfold put
  split_ifs with hnil
  · rw [hnil, List.length_nil, Nat.add_zero]
  · rfl

theorem write_of_le (f : OutFile) {bs : List UInt8} (h : bs.length ≤ maxRwCount) :
    f.write bs = f.put bs := by
  rw [write, List.take_of_length_le h]

@[simp] theorem write_pos (f : OutFile) (bs : List UInt8) :
    (f.write bs).pos = f.pos + min maxRwCount bs.length := by
  rw [write, put_pos, List.length_take]

def Appending (f : OutFile) : Prop := f.bytes.length ≤ f.pos

theorem appending_empty : empty.Appending := Nat.le_refl 0

theorem Appending.skip {f : OutFile} (h : f.Appending) (n : ℕ) : (f.skip n).Appending :=
  Nat.le_trans h (Nat.le_add_right _ _)

section Put

variable {f : OutFile} {bs cs data : List UInt8}

theorem Appending.put_eq (h : f.Appending) (hne : bs ≠ []) :
    f.put bs = ⟨f.bytes ++ List.replicate (f.pos - f.bytes.length) 0 ++ bs,
      f.pos + bs.length⟩ := by
  have hdrop : f.bytes.drop (f.pos + bs.length) = [] :=
    List.drop_eq_nil_of_le (Nat.le_trans h (Nat.le_add_right _ _))
  rw [OutFile.put, if_neg hne, List.take_of_length_le h, hdrop, List.append_nil]

theorem Appending.length_put (h : f.Appending) (hne : bs ≠ []) :
    (f.put bs).bytes.length = f.pos + bs.length := by
  have happ : f.bytes.length ≤ f.pos := h
  rw [h.put_eq hne, List.length_append, List.length_append, List.length_replicate]
  omega

theorem Appending.put (h : f.Appending) (bs : List UInt8) : (f.put bs).Appending := by
  unfold Appending
  rcases eq_or_ne bs [] with rfl | hne
  · rw [put_nil]
    exact h
  · rw [h.length_put hne, put_pos]

theorem Appending.write (h : f.Appending) (bs : List UInt8) : (f.write bs).Appending :=
  h.put _

theorem Appending.put_put (h : f.Appending) : (f.put bs).put cs = f.put (bs ++ cs) := by
  rcases eq_or_ne bs [] with rfl | hb
  · rw [put_nil, List.nil_append]
  rcases eq_or_ne cs [] with rfl | hc
  · rw [put_nil, List.append_nil]
  have hend := h.length_put hb
  have hne : bs ++ cs ≠ [] := by simp [hb]
  rw [(h.put bs).put_eq hc, hend, put_pos, Nat.sub_self, List.replicate_zero, List.append_nil,
    h.put_eq hb, h.put_eq hne, List.length_append, List.append_assoc, Nat.add_assoc]

/-- The file agrees with `data` up to the position, where a gap behind its end counts as
zeroes. -/
def Copies (f : OutFile) (data : List UInt8) : Prop :=
  ∀ i < f.pos, fileByte f.bytes i = fileByte data i

theorem copies_empty (data : List UInt8) : empty.Copies data :=
  fun i hi => absurd hi (Nat.not_lt_zero i)

theorem Copies.skip (h : f.Copies data) (happ : f.Appending) {n : ℕ}
    (hzero : ∀ i, f.pos ≤ i → i < f.pos + n → fileByte data i = 0) :
    (f.skip n).Copies data := by
  intro i hi
  rw [skip_pos] at hi
  rw [skip_bytes]
  rcases Nat.lt_or_ge i f.pos with hlt | hge
  · exact h i hlt
  · rw [hzero i hge hi, fileByte, List.getElem?_eq_none (Nat.le_trans happ hge)]
    rfl

theorem Copies.put (h : f.Copies data) (happ : f.Appending) (n : ℕ) :
    (f.put (fileBytes data f.pos (f.pos + n))).Copies data := by
  have hlen : (fileBytes data f.pos (f.pos + n)).length = n := by
    rw [length_fileBytes, Nat.add_sub_cancel_left]
  rcases eq_or_ne (fileBytes data f.pos (f.pos + n)) [] with hnil | hne
  · rw [hnil, put_nil]
    exact h
  intro i hi
  rw [put_pos, hlen] at hi
  have hpad : (f.bytes ++ List.replicate (f.pos - f.bytes.length) 0).length = f.pos := by
    rw [List.length_append, List.length_replicate]
    exact Nat.add_sub_cancel' happ
  rw [happ.put_eq hne]
  rcases Nat.lt_or_ge i f.pos with hlt | hge
  · rw [fileByte_append_left (by rwa [hpad]), fileByte_append_replicate]
    exact h i hlt
  · rw [fileByte_append_right (by rwa [hpad]), hpad, fileByte,
      getElem?_fileBytes (by omega), Option.getD_some, Nat.add_sub_cancel' hge]

end Put

end OutFile

end ErofsUtils
