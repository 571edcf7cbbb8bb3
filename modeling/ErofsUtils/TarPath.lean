import ErofsUtils.CString
import Mathlib.Data.List.DropRight
import Mathlib.Data.Vector.Basic

/-!
# Paths of tar entries

How `tarerofs_parse_tar` puts a path together from the two fields of a ustar header, and how
`tarerofs_parse_pax_header` takes it from a record. An operation on a buffer gives `none` when an
index is outside the buffer.
-/

namespace ErofsUtils.TarPath
open CString

def slash : UInt8 := 47

def pathMax : ℕ := 4096

/-- The fields of a `struct tar_header` that make up the path. -/
structure NameFields where
  nameField : List.Vector UInt8 100
  prefixField : List.Vector UInt8 155

def setAt (path : List UInt8) (i : ℕ) (c : UInt8) : Option (List UInt8) :=
  if i < path.length then some (path.set i c) else none

def memcpyAt (path : List UInt8) (i : ℕ) (field : List UInt8) : Option (List UInt8) :=
  if i + field.length ≤ path.length then
    some (path.take i ++ field ++ path.drop (i + field.length))
  else none

def strlen (path : List UInt8) : Option ℕ := path.idxOf? 0

/-- A field is copied to the index `j`, and a NUL behind it. -/
def copyField (path : List UInt8) (j : ℕ) (field : List UInt8) : Option (List UInt8) := do
  let path ← memcpyAt path j field
  setAt path (j + field.length) 0

/-- `while (path[j - 1] == '/') path[--j] = '\0'`. With `j = 0` the index is `-1` for the `int` of
a record and `2 ^ 32 - 1` for the `unsigned int` of a header. -/
def trimSlashes (path : List UInt8) : ℕ → Option (List UInt8)
  | 0 => none
  | j + 1 =>
    match path[j]? with
    | none => none
    | some c => if c = slash then trimSlashes (path.set j 0) j else some path

/-- The prefix of the header, with a slash behind it; `j` is its length. -/
def copyPrefix (path prefixField : List UInt8) : Option (List UInt8 × ℕ) :=
  if upToNul prefixField ≠ [] then do
    let path ← copyField path 0 prefixField
    let j ← strlen path
    let c ← path[j - 1]?
    if c ≠ slash then
      let path ← setAt path j slash
      let path ← setAt path (j + 1) 0
      some (path, j + 1)
    else some (path, j)
  else some (path, 0)

/-- The path of an entry without a path of its own in front of it, in the buffer `path`. -/
def ustarPath (path : List UInt8) (th : NameFields) : Option (List UInt8) := do
  let (path, j) ← copyPrefix path th.prefixField.toList
  let path ← copyField path j th.nameField.toList
  let j ← strlen path
  trimSlashes path j

/-- The path of a record `path=`: `strdup` of the value, behind which the newline of the record has
become a NUL, and the loop from the length of the value on. -/
def paxPath (value : List UInt8) : Option (List UInt8) :=
  trimSlashes (upToNul value ++ [0]) value.length

/-- A path is one of the prefix, a slash and the name; a slash that the prefix ends with is not
doubled. -/
def joinPath (pre name : List UInt8) : List UInt8 :=
  if pre = [] then name
  else if pre.getLast? = some slash then pre ++ name
  else pre ++ slash :: name

/-- All indices are inside the buffer, and the path is `text` without the slashes at its end. -/
def Normalised (result : Option (List UInt8)) (text : List UInt8) : Prop :=
  ∃ path, result = some path ∧ upToNul path = text.rdropWhile (· = slash)

section Buffers

variable {s rest : List UInt8}

theorem field_append_zero (field rest : List UInt8) :
    ∃ rest', field ++ 0 :: rest = upToNul field ++ 0 :: rest' := by
  induction field with
  | nil => exact ⟨rest, rfl⟩
  | cons c field ih =>
    by_cases hc : c = 0
    · subst hc
      exact ⟨field ++ 0 :: rest, by simp [upToNul]⟩
    · obtain ⟨rest', ih⟩ := ih
      refine ⟨rest', ?_⟩
      rw [List.cons_append, ih, upToNul, upToNul, List.takeWhile_cons_of_pos (by simpa using hc),
        List.cons_append]

theorem strlen_append_zero (h : 0 ∉ s) : strlen (s ++ 0 :: rest) = some s.length := by
  induction s with
  | nil => simp [strlen, List.idxOf?_cons]
  | cons c s ih =>
    rw [List.mem_cons, not_or] at h
    have hc : (c == 0) = false := by
      rw [beq_eq_false_iff_ne]
      exact Ne.symm h.1
    rw [List.cons_append, strlen, List.idxOf?_cons, hc]
    simp only [Bool.false_eq_true, if_false]
    rw [← strlen, ih h.2, Option.map_some, List.length_cons]

theorem copyField_append (q field : List UInt8) (hroom : field.length < rest.length) :
    copyField (q ++ rest) q.length field =
      some (q ++ (field ++ 0 :: rest.drop (field.length + 1))) := by
  obtain ⟨c, hdrop⟩ : ∃ c, rest.drop field.length = c :: rest.drop (field.length + 1) :=
    ⟨rest[field.length], List.drop_eq_getElem_cons hroom⟩
  have hcopy : memcpyAt (q ++ rest) q.length field =
      some (q ++ field ++ (c :: rest.drop (field.length + 1))) := by
    rw [memcpyAt, if_pos (by rw [List.length_append]; omega), List.take_left,
      List.drop_append, List.drop_of_length_le (by omega), List.nil_append,
      Nat.add_sub_cancel_left, hdrop]
  have hset : setAt (q ++ field ++ (c :: rest.drop (field.length + 1)))
      (q.length + field.length) 0 = some (q ++ field ++ 0 :: rest.drop (field.length + 1)) := by
    rw [setAt, if_pos (by simp), ← List.length_append, List.set_append_right _ _ (le_refl _),
      Nat.sub_self, List.set_cons_zero]
  rw [copyField, hcopy, Option.bind_eq_bind, Option.bind_some, hset, List.append_assoc]

/-- The loop puts NULs over the slashes at the end. -/
theorem trimSlashes_append (htext : ∃ c ∈ s, c ≠ slash) (tail : List UInt8) :
    ∃ n, trimSlashes (s ++ tail) s.length =
      some (s.rdropWhile (· = slash) ++ (List.replicate n 0 ++ tail)) := by
  induction s using List.reverseRecOn generalizing tail with
  | nil => simp at htext
  | append_singleton s c ih =>
    have hget : (s ++ [c] ++ tail)[s.length]? = some c := by simp
    rw [List.length_append, List.length_singleton, trimSlashes, hget]
    by_cases hc : c = slash
    · have hset : (s ++ [c] ++ tail).set s.length 0 = s ++ 0 :: tail := by
        rw [List.append_assoc, List.set_append_right _ _ (le_refl _), Nat.sub_self,
          List.singleton_append, List.set_cons_zero]
      have hrest : ∃ c ∈ s, c ≠ slash := by
        obtain ⟨c', hc', hne⟩ := htext
        rcases List.mem_append.mp hc' with hc' | hc'
        · exact ⟨c', hc', hne⟩
        · rw [List.mem_singleton.mp hc'] at hne
          exact absurd hc hne
      obtain ⟨n, ih⟩ := ih hrest (0 :: tail)
      refine ⟨n + 1, ?_⟩
      simp only [if_pos hc]
      rw [hset, ih, List.rdropWhile_concat_pos _ _ _ (by simpa using hc), List.replicate_succ',
        List.append_assoc, List.singleton_append]
    · refine ⟨0, ?_⟩
      simp only [if_neg hc]
      rw [List.rdropWhile_concat_neg _ _ _ (by simpa using hc), List.replicate_zero,
        List.nil_append]

/-- The loop that finds nothing but slashes looks in front of the buffer. -/
theorem trimSlashes_of_slashes (hs : ∀ c ∈ s, c = slash) (tail : List UInt8) :
    trimSlashes (s ++ tail) s.length = none := by
  induction s using List.reverseRecOn generalizing tail with
  | nil => rfl
  | append_singleton s c ih =>
    have hget : (s ++ [c] ++ tail)[s.length]? = some c := by simp
    have hset : (s ++ [c] ++ tail).set s.length 0 = s ++ 0 :: tail := by
      rw [List.append_assoc, List.set_append_right _ _ (le_refl _), Nat.sub_self,
        List.singleton_append, List.set_cons_zero]
    have hc : c = slash := hs c (by simp)
    rw [List.length_append, List.length_singleton, trimSlashes, hget]
    simp only [if_pos hc]
    rw [hset]
    apply ih
    intro c' hc'
    exact hs c' (List.mem_append_left _ hc')

/-- The loop from the end of a string that a NUL ends. -/
theorem normalised_trimSlashes (hs : 0 ∉ s) :
    Normalised (trimSlashes (s ++ 0 :: rest) s.length) s ↔ ∃ c ∈ s, c ≠ slash := by
  by_cases htext : ∃ c ∈ s, c ≠ slash
  · refine iff_of_true ?_ htext
    obtain ⟨n, htrim⟩ := trimSlashes_append htext (0 :: rest)
    refine ⟨_, htrim, ?_⟩
    have hzeros : List.replicate n 0 ++ 0 :: rest = 0 :: (List.replicate n 0 ++ rest) := by
      rw [← List.cons_append, ← List.replicate_succ, List.replicate_succ', List.append_assoc,
        List.singleton_append]
    rw [hzeros]
    apply upToNul_append_zero
    intro hmem
    exact hs ((List.rdropWhile_prefix _ s).subset hmem)
  · refine iff_of_false ?_ htext
    rintro ⟨path, htrim, -⟩
    rw [trimSlashes_of_slashes (by simpa using htext)] at htrim
    cases htrim

end Buffers

section Header

theorem setAt_append (q rest : List UInt8) (b c : UInt8) :
    setAt (q ++ b :: rest) q.length c = some (q ++ c :: rest) := by
  rw [setAt, if_pos (by simp), List.set_append_right _ _ (le_refl _), Nat.sub_self,
    List.set_cons_zero]

theorem getLast?_append_eq {s : List UInt8} (hs : s ≠ []) (rest : List UInt8) :
    (s ++ rest)[s.length - 1]? = s.getLast? := by
  have hpos := List.length_pos_iff.mpr hs
  rw [List.getElem?_append_left (by omega), List.getLast?_eq_getElem?]

/-- What stands in the buffer in front of the name is the prefix with its slash. -/
theorem copyPrefix_eq {path pre : List UInt8} (hpath : path.length = pathMax)
    (hpre : pre.length = 155) :
    ∃ q rest, copyPrefix path pre = some (q ++ rest, q.length) ∧
      (q ++ rest).length = pathMax ∧ q.length ≤ 156 ∧ 0 ∉ q ∧
      ∀ name, q ++ name = joinPath (upToNul pre) name := by
  have hno := zero_notMem_upToNul pre
  have hle := length_upToNul_le pre
  by_cases hempty : upToNul pre = []
  · refine ⟨[], path, ?_, hpath, by simp, by simp, ?_⟩
    · rw [copyPrefix, if_neg (not_not.mpr hempty)]
      rfl
    · intro name
      rw [joinPath, if_pos hempty, List.nil_append]
  · have hcopy := @copyField_append path [] pre (by rw [hpre, hpath, pathMax]; omega)
    rw [List.nil_append, List.nil_append, List.length_nil] at hcopy
    obtain ⟨rest, hfield⟩ := field_append_zero pre (path.drop (pre.length + 1))
    have hlen : (upToNul pre ++ 0 :: rest).length = pathMax := by
      rw [← hfield, List.length_append, List.length_cons, List.length_drop, hpath, hpre, pathMax]
    rw [List.length_append, List.length_cons, pathMax] at hlen
    obtain ⟨c, hlast⟩ : ∃ c, (upToNul pre).getLast? = some c :=
      ⟨_, List.getLast?_eq_some_getLast hempty⟩
    rw [copyPrefix, if_pos hempty, hcopy, hfield, Option.bind_eq_bind, Option.bind_some,
      strlen_append_zero hno, Option.bind_eq_bind, Option.bind_some, getLast?_append_eq hempty,
      hlast, Option.bind_eq_bind, Option.bind_some]
    by_cases hc : c = slash
    · refine ⟨upToNul pre, 0 :: rest, ?_, ?_, by omega, hno, ?_⟩
      · rw [if_neg (not_not.mpr hc)]
      · rw [List.length_append, List.length_cons, pathMax]
        omega
      · intro name
        rw [joinPath, if_neg hempty, hlast, hc, if_pos rfl]
    · obtain ⟨b, rest, rfl⟩ : ∃ b rest', rest = b :: rest' := by
        cases rest with
        | nil => simp at hlen; omega
        | cons b rest => exact ⟨b, rest, rfl⟩
      have hset := setAt_append (upToNul pre ++ [slash]) rest b 0
      rw [List.append_assoc, List.append_assoc, List.length_append, List.length_singleton] at hset
      refine ⟨upToNul pre ++ [slash], 0 :: rest, ?_, ?_, ?_, ?_, ?_⟩
      · simp only [List.singleton_append] at hset
        rw [if_pos hc, setAt_append, Option.bind_some, hset]
        simp
      · simp only [List.length_append, List.length_cons, List.length_nil, pathMax] at hlen ⊢
        omega
      · rw [List.length_append, List.length_singleton]
        omega
      · simp only [List.mem_append, List.mem_singleton, not_or]
        exact ⟨hno, by decide⟩
      · intro name
        have hne : some c ≠ some slash := by simpa using hc
        rw [joinPath, if_neg hempty, hlast, if_neg hne, List.append_assoc, List.singleton_append]

/-- The path of a header is the joined path without the slashes at its end exactly if it has more
than slashes. -/
theorem normalised_ustarPath {path : List UInt8} (hpath : path.length = pathMax)
    (th : NameFields) :
    Normalised (ustarPath path th)
        (joinPath (upToNul th.prefixField.toList) (upToNul th.nameField.toList)) ↔
      ∃ c ∈ joinPath (upToNul th.prefixField.toList) (upToNul th.nameField.toList), c ≠ slash := by
  obtain ⟨q, rest, hprefix, hlen, hq, hno, hjoin⟩ :=
    copyPrefix_eq hpath th.prefixField.toList_length
  have hname := th.nameField.toList_length
  rw [List.length_append, pathMax] at hlen
  have hcopy := @copyField_append rest q th.nameField.toList (by omega)
  obtain ⟨rest', hfield⟩ := field_append_zero th.nameField.toList
    (rest.drop (th.nameField.toList.length + 1))
  have hno' : 0 ∉ q ++ upToNul th.nameField.toList := by
    rw [List.mem_append, not_or]
    exact ⟨hno, zero_notMem_upToNul _⟩
  rw [ustarPath, hprefix, Option.bind_eq_bind, Option.bind_some]
  simp only
  rw [hcopy, hfield, ← List.append_assoc, Option.bind_eq_bind, Option.bind_some,
    strlen_append_zero hno', Option.bind_eq_bind, Option.bind_some, ← hjoin]
  exact normalised_trimSlashes hno'

/-- The path of a record is its value without the slashes at its end exactly if the value has more
than slashes, and no NUL. -/
theorem normalised_paxPath (value : List UInt8) :
    Normalised (paxPath value) value ↔ 0 ∉ value ∧ ∃ c ∈ value, c ≠ slash := by
  by_cases h0 : 0 ∈ value
  · refine iff_of_false ?_ fun h => h.1 h0
    rintro ⟨path, -, hpath⟩
    have hno := zero_notMem_upToNul path
    rw [hpath] at hno
    have hsplit : value.rdropWhile (· = slash) ++ value.rtakeWhile (· = slash) = value :=
      List.rdropWhile_append_rtakeWhile
    rw [← hsplit, List.mem_append] at h0
    rcases h0 with h0 | h0
    · exact hno h0
    · have h := List.mem_rtakeWhile_imp h0
      rw [decide_eq_true_eq] at h
      exact absurd h (by decide)
  · have hc : upToNul value = value := by
      rw [upToNul, List.takeWhile_eq_self_iff]
      intro c hc
      rw [decide_eq_true_eq]
      rintro rfl
      exact h0 hc
    rw [paxPath, hc, normalised_trimSlashes h0, and_iff_right h0]

/-- Both paths are normalised exactly if there is something else than slashes; the value of a
record must not have a NUL either. The bytes of the buffer and of the fields are arbitrary. -/
theorem entryPath_normalised (path : List.Vector UInt8 pathMax) (th : NameFields)
    (value : List UInt8) :
    (Normalised (ustarPath path.toList th)
          (joinPath (upToNul th.prefixField.toList) (upToNul th.nameField.toList)) ↔
        ∃ c ∈ joinPath (upToNul th.prefixField.toList) (upToNul th.nameField.toList),
          c ≠ slash) ∧
      (Normalised (paxPath value) value ↔ 0 ∉ value ∧ ∃ c ∈ value, c ≠ slash) :=
  ⟨normalised_ustarPath path.toList_length th, normalised_paxPath value⟩

def emptyFields : NameFields := ⟨.replicate 100 0, .replicate 155 0⟩

/-- The loop on an empty path looks at an index outside the buffer. -/
theorem entryPath_outside :
    ¬ ((∀ (path : List.Vector UInt8 pathMax) (th : NameFields),
        Normalised (ustarPath path.toList th)
          (joinPath (upToNul th.prefixField.toList) (upToNul th.nameField.toList))) ∧
      ∀ value, Normalised (paxPath value) value) := by
  rintro ⟨hustar, -⟩
  have h := hustar (.replicate pathMax 0) emptyFields
  rw [normalised_ustarPath (List.Vector.toList_length _)] at h
  obtain ⟨c, hc, -⟩ := h
  have hempty : joinPath (upToNul emptyFields.prefixField.toList)
      (upToNul emptyFields.nameField.toList) = [] := by decide
  rw [hempty] at hc
  cases hc

end Header

end ErofsUtils.TarPath
