import ErofsUtils.CString

/-!
# Paths as strings

When a string is a path that stays below the place it starts from, how that depends on the names
it was put together from, and what a buffer that grows and shrinks by one name at a time keeps.
A name may have slashes of its own, and it may have a NUL, where the string of a path ends.
-/

namespace ErofsUtils.PathStrings
open ByteMemory CString

/-- A name that stands for an entry of the directory it is looked up in. -/
def IsComponent (c : List UInt8) : Prop := c ≠ [] ∧ 47 ∉ c ∧ c ≠ [46] ∧ c ≠ [46, 46]

/-- A path that goes from entry to entry, each below the one before. -/
def Inside (path : List UInt8) : Prop :=
  ∃ cs : List (List UInt8), (∀ c ∈ cs, IsComponent c) ∧ path = cs.flatMap (47 :: ·)

/-- No part of a name between slashes is empty, `.` or `..`. -/
def SafeName (name : List UInt8) : Prop :=
  ∀ part ∈ name.splitOn 47, part ≠ [] ∧ part ≠ [46] ∧ part ≠ [46, 46]

instance (name : List UInt8) : Decidable (SafeName name) := by
  unfold SafeName
  infer_instance

/-- The names that a path leads through: slashes that follow one another count as one. -/
def pathComponents (s : List UInt8) : List (List UInt8) := (s.splitOn 47).filter (· ≠ [])

/-- Names that keep a path inside, up to the first one with a NUL. -/
def SafeNames : List (List UInt8) → Prop
  | [] => True
  | name :: names => SafeName (upToNul name) ∧ (0 ∉ name → SafeNames names)

/-- What a buffer holds after `start` and a slash and a name for each of `names`. -/
def grown (start : List UInt8) (names : List (List UInt8)) : List UInt8 :=
  start ++ names.flatMap fun name => 47 :: strncpy name

section Components

theorem inside_nil : Inside [] := ⟨[], fun _ h => absurd h List.not_mem_nil, rfl⟩

theorem slash_notMem_of_mem_splitOn {s part : List UInt8} (h : part ∈ s.splitOn 47) :
    47 ∉ part := by
  induction s generalizing part with
  | nil =>
      rw [List.splitOn_nil, List.mem_singleton] at h
      rw [h]
      exact List.not_mem_nil
  | cons b s ih =>
      rw [List.splitOn_cons_eq_if_modifyHead] at h
      split at h
      · rcases List.mem_cons.mp h with rfl | h
        · exact List.not_mem_nil
        · exact ih h
      · next hb =>
          obtain ⟨first, rest, hs⟩ := List.exists_cons_of_ne_nil (List.splitOn_ne_nil 47 s)
          rw [hs] at h ih
          rcases List.mem_cons.mp h with rfl | h
          · rw [List.mem_cons, not_or]
            exact ⟨fun he => hb (beq_iff_eq.mpr he.symm), ih List.mem_cons_self⟩
          · exact ih (List.mem_cons_of_mem _ h)

theorem isComponent_of_mem_splitOn {s part : List UInt8} (hs : SafeName s)
    (h : part ∈ s.splitOn 47) : IsComponent part :=
  ⟨(hs part h).1, slash_notMem_of_mem_splitOn h, (hs part h).2⟩

theorem intercalate_slash (c : List UInt8) (cs : List (List UInt8)) :
    47 :: [47].intercalate (c :: cs) = (c :: cs).flatMap (47 :: ·) := by
  induction cs generalizing c with
  | nil => simp
  | cons d cs ih => rw [List.intercalate_cons_cons, List.flatMap_cons, ← ih d]; simp

theorem inside_cons_iff {name : List UInt8} : Inside (47 :: name) ↔ SafeName name := by
  constructor
  · rintro ⟨cs, hcs, heq⟩
    cases cs with
    | nil => cases heq
    | cons c cs =>
        rw [← intercalate_slash, List.cons.injEq] at heq
        intro part hpart
        rw [heq.2, List.splitOn_intercalate 47 (fun d hd => (hcs d hd).2.1)
          (List.cons_ne_nil c cs)] at hpart
        exact ⟨(hcs part hpart).1, (hcs part hpart).2.2⟩
  · intro hs
    refine ⟨name.splitOn 47, fun c hc => isComponent_of_mem_splitOn hs hc, ?_⟩
    obtain ⟨c, cs, hsplit⟩ := List.exists_cons_of_ne_nil (List.splitOn_ne_nil 47 name)
    rw [hsplit, ← intercalate_slash, ← hsplit, List.intercalate_splitOn]

theorem safeName_append {a b : List UInt8} :
    SafeName (a ++ 47 :: b) ↔ SafeName a ∧ SafeName b := by
  unfold SafeName
  rw [List.splitOn_append_cons_self, List.forall_mem_append]

theorem Inside.head {b : UInt8} {s : List UInt8} (h : Inside (b :: s)) : b = 47 := by
  obtain ⟨cs, -, heq⟩ := h
  cases cs with
  | nil => cases heq
  | cons c cs => exact (List.cons.inj heq).1

theorem inside_append_iff {start name : List UInt8} :
    Inside (start ++ 47 :: name) ↔ Inside start ∧ SafeName name := by
  cases start with
  | nil => exact inside_cons_iff.trans (by simp [inside_nil])
  | cons b s =>
      by_cases hb : b = 47
      · rw [hb, List.cons_append, inside_cons_iff, inside_cons_iff, safeName_append]
      · constructor
        · intro h
          exact absurd h.head hb
        · intro h
          exact absurd h.1.head hb

theorem pathComponents_flatMap {cs : List (List UInt8)} (h : ∀ c ∈ cs, IsComponent c) :
    pathComponents (cs.flatMap (47 :: ·)) = cs := by
  cases cs with
  | nil => rfl
  | cons c cs =>
      rw [← intercalate_slash, pathComponents, List.splitOn_cons_eq_if_modifyHead,
        if_pos (by rfl),
        List.splitOn_intercalate 47 (fun d hd => (h d hd).2.1) (List.cons_ne_nil c cs),
        List.filter_cons_of_neg (by simp), List.filter_eq_self]
      intro d hd
      exact decide_eq_true (h d hd).1

end Components

section Names

theorem upToNul_cons_slash (s : List UInt8) : upToNul (47 :: s) = 47 :: upToNul s :=
  List.takeWhile_cons_of_pos (by decide)

theorem upToNul_strncpy (name : List UInt8) : upToNul (strncpy name) = upToNul name := by
  unfold strncpy
  change upToNul (upToNul name ++ _) = upToNul name
  rw [upToNul_append_of_notMem (zero_notMem_upToNul name)]
  cases name.length - (upToNul name).length with
  | zero => simp [upToNul]
  | succ n => simp [upToNul]

@[simp] theorem length_strncpy (src : List UInt8) : (strncpy src).length = src.length := by
  have hle : (src.takeWhile (· ≠ 0)).length ≤ src.length :=
    (List.takeWhile_sublist _).length_le
  rw [strncpy, List.length_append, List.length_replicate]
  omega

theorem zero_mem_strncpy {name : List UInt8} : 0 ∈ strncpy name ↔ 0 ∈ name := by
  constructor
  · intro h
    by_contra hn
    rw [strncpy_of_zero_notMem hn] at h
    exact hn h
  · intro h
    by_contra hn
    have hname : upToNul name = strncpy name := by
      rw [← upToNul_strncpy, upToNul_of_notMem hn]
    have hsub : (upToNul name).Sublist name := List.takeWhile_sublist _
    rw [hname] at hsub
    rw [hsub.eq_of_length (length_strncpy name)] at hn
    exact hn h

theorem grown_nil (start : List UInt8) : grown start [] = start := by
  rw [grown, List.flatMap_nil, List.append_nil]

theorem grown_cons (start name : List UInt8) (names : List (List UInt8)) :
    grown start (name :: names) = grown (start ++ 47 :: strncpy name) names := by
  rw [grown, grown, List.flatMap_cons, List.append_assoc]

theorem grown_snoc (start name : List UInt8) (names : List (List UInt8)) :
    grown start (names ++ [name]) = grown start names ++ 47 :: strncpy name := by
  rw [grown, grown, List.flatMap_append, List.flatMap_singleton, List.append_assoc]

/-- A path stays inside exactly when what it starts from does and the names keep it there. -/
theorem inside_grown_iff {start : List UInt8} {names : List (List UInt8)} :
    Inside (upToNul (grown start names)) ↔
      Inside (upToNul start) ∧ (0 ∉ start → SafeNames names) := by
  induction names generalizing start with
  | nil =>
      rw [grown_nil]
      simp [SafeNames]
  | cons name names ih =>
      rw [grown_cons, ih]
      by_cases h0 : 0 ∈ start
      · -- nothing after a NUL is part of the string
        rw [upToNul_append_of_mem h0]
        simp [h0]
      · rw [upToNul_append_of_notMem h0, upToNul_of_notMem h0, upToNul_cons_slash,
          upToNul_strncpy, inside_append_iff, SafeNames, List.mem_append, List.mem_cons,
          zero_mem_strncpy, and_assoc]
        simp [h0]

end Names

section Buffer

/-- The string in a buffer up to `pos`, with the NUL there if it has one, is as it was. -/
structure SameUpTo (pos : ℕ) (m m' : Mem) : Prop where
  below : ∀ i < pos, m' i = m i
  stop : m pos = 0 → m' pos = 0

theorem SameUpTo.refl (pos : ℕ) (m : Mem) : SameUpTo pos m m := ⟨fun _ _ => rfl, id⟩

theorem SameUpTo.trans {pos : ℕ} {m m' m'' : Mem} (h : SameUpTo pos m m')
    (h' : SameUpTo pos m' m'') : SameUpTo pos m m'' :=
  ⟨fun i hi => (h'.below i hi).trans (h.below i hi), fun h0 => h'.stop (h.stop h0)⟩

/-- Bytes are put at `pos` for what happens beyond them, and then a NUL. -/
theorem SameUpTo.push_pop {pos after : ℕ} {m m' : Mem} {bytes : List UInt8}
    (h : SameUpTo after (store m pos bytes) m') (hpos : pos < after) :
    SameUpTo pos m (store m' pos [0]) := by
  constructor
  · intro i hi
    rw [store_of_lt _ hi, h.below i (by omega), store_of_lt _ hi]
  · intro _
    simp [store]

/-- The string at the start of a buffer of `size` bytes. -/
def cString (size : ℕ) (mem : Mem) : List UInt8 := slice mem 0 (strnlen mem 0 size)

theorem slice_strnlen {mem : Mem} {pos size : ℕ} {s : List UInt8}
    (h : Holds mem pos (s ++ [0])) (hsize : s.length < size) :
    slice mem pos (strnlen mem pos size) = upToNul s := by
  induction s generalizing pos size with
  | nil =>
      have h0 : mem pos = 0 := (holds_cons.mp h).1
      cases size with
      | zero => omega
      | succ size => rw [strnlen, if_pos h0]; rfl
  | cons b s ih =>
      obtain ⟨hb, hs⟩ := holds_cons.mp h
      rw [List.length_cons] at hsize
      cases size with
      | zero => omega
      | succ size =>
          rw [strnlen, upToNul]
          by_cases h0 : b = 0
          · rw [if_pos (hb.trans h0), List.takeWhile_cons_of_neg (by simpa using h0)]
            rfl
          · rw [if_neg (by rw [hb]; exact h0), List.takeWhile_cons_of_pos (by simpa using h0),
              slice, hb]
            exact congrArg (b :: ·) (ih hs (by omega))

theorem cString_of_holds {mem : Mem} {size : ℕ} {s : List UInt8} (h : Holds mem 0 (s ++ [0]))
    (hsize : s.length < size) : cString size mem = upToNul s :=
  slice_strnlen h hsize

end Buffer

end ErofsUtils.PathStrings
