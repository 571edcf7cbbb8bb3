import ErofsUtils.IndexWriter

/-!
# Where the slots of an extent are

An extent that starts at byte `s` has its head in slot `s / blksz`, one slot for every
further lcluster whose end it reaches, and the slot behind those carries the offset at
which it ends. The file has one slot for each logical cluster.
-/

namespace ErofsUtils

variable {blksz : ℕ}

theorem extentSpan_pos (hb : 0 < blksz) {pos : ℕ} {e : InmemExtent}
    (h : blksz ≤ pos % blksz + e.length) : 0 < extentSpan blksz pos e :=
  Nat.div_pos h hb

/-- An extent ends as many lclusters behind its first one as its span says. -/
theorem div_add_extentSpan (hb : 0 < blksz) (pos : ℕ) (e : InmemExtent) :
    (pos + e.length) / blksz = pos / blksz + extentSpan blksz pos e := by
  have h : pos + e.length = blksz * (pos / blksz) + (pos % blksz + e.length) := by
    rw [← Nat.add_assoc, Nat.div_add_mod]
  rw [h, Nat.mul_add_div hb, extentSpan]

theorem length_extentSlots (pos : ℕ) (e : InmemExtent) :
    (extentSlots blksz pos e).length = max (extentSpan blksz pos e) 1 := by
  unfold extentSlots
  split_ifs with h0
  · simp [h0]
  · simp only [List.length_map, List.length_range]
    omega

theorem spans_append {pos : ℕ} {pre es : List InmemExtent} (h : Spans blksz pos (pre ++ es)) :
    Spans blksz (pos + totalLength pre) es := by
  induction pre generalizing pos with
  | nil => simpa using h
  | cons e pre ih =>
      rw [totalLength_cons, ← Nat.add_assoc]
      exact ih h.2.2.2

/-- The slots of the extents behind `pre` start at the lcluster they start in. -/
theorem fileSlots_append (hb : 0 < blksz) {pos : ℕ} {pre es : List InmemExtent}
    (h : Spans blksz pos (pre ++ es)) (hes : es ≠ []) :
    ∃ front, fileSlots blksz pos (pre ++ es) =
        front ++ fileSlots blksz (pos + totalLength pre) es ∧
      pos / blksz + front.length = (pos + totalLength pre) / blksz := by
  induction pre generalizing pos with
  | nil => exact ⟨[], by simp, by simp⟩
  | cons e pre ih =>
      obtain ⟨hlen, hlt, hspan, hrest⟩ := h
      have hspan := extentSpan_pos hb (hspan (by simp [hes]))
      obtain ⟨front, heq, hfront⟩ := ih hrest
      refine ⟨extentSlots blksz pos e ++ front, ?_, ?_⟩
      · rw [List.cons_append, fileSlots, if_neg (by omega), heq, totalLength_cons,
          Nat.add_assoc, List.append_assoc]
      · have hdiv := div_add_extentSpan hb pos e
        rw [List.length_append, length_extentSlots, totalLength_cons, ← Nat.add_assoc pos,
          ← hfront]
        omega

theorem length_fileSlots (hb : 0 < blksz) {pos : ℕ} {es : List InmemExtent}
    (h : Spans blksz pos es) :
    pos / blksz + (fileSlots blksz pos es).length =
      (pos + totalLength es + (blksz - 1)) / blksz := by
  induction es generalizing pos with
  | nil =>
      have hdm := Nat.div_add_mod pos blksz
      rw [fileSlots, totalLength_nil, Nat.add_zero]
      have hsum : pos + (blksz - 1) = blksz * (pos / blksz) + (pos % blksz + (blksz - 1)) := by
        omega
      rw [hsum, Nat.mul_add_div hb]
      have hmod := Nat.mod_lt pos hb
      split_ifs with h0
      · have hzero : (pos % blksz + (blksz - 1)) / blksz = 0 := Nat.div_eq_of_lt (by omega)
        rw [hzero]
        rfl
      · have hone : (pos % blksz + (blksz - 1)) / blksz = 1 :=
          Nat.div_eq_of_lt_le (by omega) (by omega)
        rw [hone]
        rfl
  | cons e es ih =>
      obtain ⟨hlen, hlt, hspan, hrest⟩ := h
      have hdiv := div_add_extentSpan hb pos e
      have hdm := Nat.div_add_mod pos blksz
      rw [fileSlots, List.length_append, length_extentSlots, totalLength_cons,
        ← Nat.add_assoc pos]
      by_cases h0 : extentSpan blksz pos e = 0
      · have hes : es = [] := by
          by_contra hne
          have := extentSpan_pos hb (hspan hne)
          omega
        have hlt' : pos % blksz + e.length < blksz := by
          by_contra! hge
          have := extentSpan_pos hb hge
          omega
        have hsum : pos + e.length + (blksz - 1) =
            blksz * (pos / blksz) + (pos % blksz + e.length + (blksz - 1)) := by omega
        have hone : (pos % blksz + e.length + (blksz - 1)) / blksz = 1 :=
          Nat.div_eq_of_lt_le (by omega) (by omega)
        rw [hes, totalLength_nil, Nat.add_zero, hsum, Nat.mul_add_div hb, hone, h0]
        rfl
      · rw [if_neg h0, ← ih hrest, hdiv]
        omega

section Extent

variable {pre post : List InmemExtent} {e : InmemExtent}

theorem getElem?_fileSlots (hb : 0 < blksz) (h : Spans blksz 0 (pre ++ e :: post)) (i : ℕ) :
    (fileSlots blksz 0 (pre ++ e :: post))[totalLength pre / blksz + i]? =
      (fileSlots blksz (totalLength pre) (e :: post))[i]? := by
  obtain ⟨front, heq, hfront⟩ := fileSlots_append hb h (by simp)
  rw [Nat.zero_add] at heq hfront
  rw [Nat.zero_div, Nat.zero_add] at hfront
  rw [heq, ← hfront, List.getElem?_append_right (by omega), Nat.add_sub_cancel_left]

theorem slot_of_lt_span (hb : 0 < blksz) (h : Spans blksz 0 (pre ++ e :: post)) {i : ℕ}
    (hi : i < extentSpan blksz (totalLength pre) e) :
    (fileSlots blksz 0 (pre ++ e :: post))[totalLength pre / blksz + i]? =
      some (.extent e (totalLength pre % blksz) i
        (extentSpan blksz (totalLength pre) e - i)) := by
  rw [getElem?_fileSlots hb h, fileSlots, List.getElem?_append_left, extentSlots,
    if_neg (by omega), List.getElem?_map, List.getElem?_range hi]
  · rfl
  · rw [length_extentSlots]
    omega

/-- The tail-end block: an extent that does not reach the end of its first lcluster. -/
theorem slot_of_span_zero (hb : 0 < blksz) (h : Spans blksz 0 (pre ++ e :: post))
    (h0 : extentSpan blksz (totalLength pre) e = 0) :
    (fileSlots blksz 0 (pre ++ e :: post))[totalLength pre / blksz]? =
      some (.extent { e with partialRef := false } (totalLength pre % blksz) 0 0) := by
  have hslot := getElem?_fileSlots hb h 0
  rw [Nat.add_zero] at hslot
  rw [hslot, fileSlots, extentSlots, if_pos h0]
  rfl

theorem slot_head (hb : 0 < blksz) (h : Spans blksz 0 (pre ++ e :: post)) :
    ∃ p d1, (fileSlots blksz 0 (pre ++ e :: post))[totalLength pre / blksz]? =
      some (.extent { e with partialRef := p } (totalLength pre % blksz) 0 d1) := by
  by_cases h0 : extentSpan blksz (totalLength pre) e = 0
  · exact ⟨false, 0, slot_of_span_zero hb h h0⟩
  · exact ⟨e.partialRef, _, slot_of_lt_span hb h (Nat.pos_of_ne_zero h0)⟩

/-- A slot that starts a new part of the file at `clusterofs`. -/
def Slot.StartsAt (clusterofs : ℕ) : Slot → Prop
  | .extent _ ofs d0 _ => d0 = 0 ∧ ofs = clusterofs
  | .pad ofs => ofs = clusterofs

theorem slot_after (hb : 0 < blksz) (h : Spans blksz 0 (pre ++ e :: post))
    (h0 : extentSpan blksz (totalLength pre) e ≠ 0)
    (hmore : post ≠ [] ∨ (totalLength pre + e.length) % blksz ≠ 0) :
    ∃ s : Slot, (fileSlots blksz 0 (pre ++ e :: post))[totalLength pre / blksz +
        extentSpan blksz (totalLength pre) e]? = some s ∧
      s.StartsAt ((totalLength pre + e.length) % blksz) := by
  have hlen : (extentSlots blksz (totalLength pre) e).length =
      extentSpan blksz (totalLength pre) e := by
    rw [length_extentSlots]
    omega
  rw [getElem?_fileSlots hb h, fileSlots, if_neg h0, List.getElem?_append_right (by omega),
    hlen, Nat.sub_self]
  cases post with
  | nil =>
      have hne : (totalLength pre + e.length) % blksz ≠ 0 := by simpa using hmore
      rw [fileSlots, if_neg hne]
      exact ⟨_, rfl, rfl⟩
  | cons e' post =>
      rw [fileSlots, extentSlots]
      split_ifs with h1
      · exact ⟨_, rfl, rfl, rfl⟩
      · refine ⟨.extent e' ((totalLength pre + e.length) % blksz) 0
          (extentSpan blksz (totalLength pre + e.length) e'), ?_, rfl, rfl⟩
        rw [List.getElem?_append_left (by simp; omega), List.getElem?_map,
          List.getElem?_range (Nat.pos_of_ne_zero h1)]
        rfl

end Extent

/-- The lcluster belongs to an extent, or is the pad entry behind the last one. -/
theorem slot_cases_from (hb : 0 < blksz) {pos : ℕ} {es : List InmemExtent}
    (h : Spans blksz pos es) {j : ℕ} (hj : j < (fileSlots blksz pos es).length) :
    (∃ pre e post i, es = pre ++ e :: post ∧
        pos / blksz + j = (pos + totalLength pre) / blksz + i ∧
        i < max (extentSpan blksz (pos + totalLength pre) e) 1) ∨
      ((fileSlots blksz pos es)[j]? = some (.pad ((pos + totalLength es) % blksz)) ∧
        (pos + totalLength es) % blksz ≠ 0) := by
  induction es generalizing pos j with
  | nil =>
      rw [fileSlots] at hj ⊢
      split_ifs at hj ⊢ with h0
      · simp at hj
      · obtain rfl : j = 0 := by simpa using hj
        exact Or.inr ⟨by simp, by simpa using h0⟩
  | cons e es ih =>
      obtain ⟨hlen, hlt, hspan, hrest⟩ := h
      rcases Nat.lt_or_ge j (extentSlots blksz pos e).length with hin | hout
      · rw [length_extentSlots] at hin
        exact Or.inl ⟨[], e, es, j, rfl, by simp, by simpa using hin⟩
      · rw [fileSlots] at hj ⊢
        by_cases h0 : extentSpan blksz pos e = 0
        · rw [if_pos h0, List.append_nil] at hj
          omega
        · rw [if_neg h0, List.length_append] at hj
          rw [if_neg h0, List.getElem?_append_right hout]
          have hl : (extentSlots blksz pos e).length = extentSpan blksz pos e := by
            rw [length_extentSlots]
            omega
          have hdiv := div_add_extentSpan hb pos e
          rw [hl] at hj hout ⊢
          rw [totalLength_cons, ← Nat.add_assoc]
          rcases ih hrest (show j - extentSpan blksz pos e < _ by omega) with
            ⟨pre, e', post, i, rfl, hi, hlti⟩ | hpad
          · refine Or.inl ⟨e :: pre, e', post, i, rfl, ?_, ?_⟩
            · rw [totalLength_cons, ← Nat.add_assoc]
              omega
            · rwa [totalLength_cons, ← Nat.add_assoc]
          · exact Or.inr hpad

theorem slot_cases (hb : 0 < blksz) {es : List InmemExtent} (h : Spans blksz 0 es) {lcn : ℕ}
    (hlcn : lcn < (fileSlots blksz 0 es).length) :
    (∃ pre e post i, es = pre ++ e :: post ∧ lcn = totalLength pre / blksz + i ∧
        i < max (extentSpan blksz (totalLength pre) e) 1) ∨
      ((fileSlots blksz 0 es)[lcn]? = some (.pad (totalLength es % blksz)) ∧
        totalLength es % blksz ≠ 0) := by
  simpa using slot_cases_from hb h hlcn

end ErofsUtils
