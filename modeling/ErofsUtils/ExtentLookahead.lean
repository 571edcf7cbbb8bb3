import ErofsUtils.ExtentLength

/-!
# Lookahead distances

How far each slot of an extent leads on. A FULL slot holds the distance to the next head modulo
`2 ^ 16`. In a COMPACT pack the reader counts NONHEAD slots up to the next head, or to the end of
the pack, where the last slot stores the rest of the distance unless its bit 11 marks it as a count.
-/

namespace ErofsUtils
open ByteMemory BitPacking

section Full

variable {vi : Inode} {blk : BlkRead} {pre post : List InmemExtent} {e : InmemExtent}

/-- The lookahead distance of a slot that the extent covers to its end. -/
theorem FullInode.load_lookahead (hf : FullInode vi blk (pre ++ e :: post)) {i : ℕ} (h0 : i ≠ 0)
    (hi : i < extentSpan vi.sbi.blksz (totalLength pre) e) (m : Maprecorder) :
    ∃ m', zErofsLoadClusterFromDisk vi blk m (totalLength pre / vi.sbi.blksz + i) true =
        .ok m' ∧ m'.type = .nonhead ∧ m'.clusterofs = u16 (2 ^ vi.zLogicalClusterbits) ∧
      m'.delta1 = u16 (extentSpan vi.sbi.blksz (totalLength pre) e - i) := by
  rw [hf.load (slot_of_lt_span vi.sbi.blksz_pos hf.spans hi), Slot.index]
  by_cases h1 : i = 1 ∧ vi.sbi.bigPcluster = true
  · obtain ⟨rfl, hbig⟩ := h1
    rw [legacyDecodeIndex_cblkcnt vi _ e _ _ hbig hf.big]
    exact ⟨_, rfl, rfl, rfl, rfl⟩
  · rw [legacyDecodeIndex_nonhead vi _ e _ _ _ h0 h1]
    exact ⟨_, rfl, rfl, rfl, rfl⟩

theorem FullInode.looksAhead (hf : FullInode vi blk (pre ++ e :: post))
    (hspan : extentSpan vi.sbi.blksz (totalLength pre) e ≤ 2 ^ 16) : LooksAhead vi blk pre e := by
  intro i h0 hi m
  obtain ⟨m', hload, htype, -, hd1⟩ := hf.load_lookahead h0 hi m
  rw [u16_of_lt (by omega)] at hd1
  exact ⟨m', hload, htype, by omega, by omega⟩

/-- The distances in a longer extent lead to a slot from which the next head is a multiple of
`2 ^ 16` away, and the one stored there is zero. -/
theorem FullInode.heldBack (hf : FullInode vi blk (pre ++ e :: post))
    (hspan : 2 ^ 16 < extentSpan vi.sbi.blksz (totalLength pre) e) :
    ∃ last, 1 ≤ last ∧ last + 1 < extentSpan vi.sbi.blksz (totalLength pre) e ∧
      HeldBack vi blk pre last := by
  refine ⟨1 + (extentSpan vi.sbi.blksz (totalLength pre) e - 1) % 2 ^ 16, by omega, by omega, ?_⟩
  intro i h0 hi m
  obtain ⟨m', hload, htype, hofs, hd1⟩ := hf.load_lookahead h0 (by omega) m
  refine ⟨m', hload, htype, hofs, ?_⟩
  rw [hd1, u16]
  omega

end Full

section Distance

variable {dec : ℕ → ℕ × LclusterType}

theorem getCompactedLaDistance_head {n i k d1 : ℕ} (hk : k ≤ n)
    (hnon : ∀ j < k, (dec (i + j)).2 = .nonhead) (hhead : (dec (i + k)).2 ≠ .nonhead) :
    getCompactedLaDistance dec n i d1 = d1 + k := by
  induction k generalizing n i d1 with
  | zero =>
      rw [Nat.add_zero] at hhead
      rw [getCompactedLaDistance.eq_def]
      simp [hhead]
  | succ k ih =>
      have h0 := hnon 0 (by omega)
      rw [Nat.add_zero] at h0
      obtain ⟨n, rfl⟩ : ∃ n', n = n' + 1 := Nat.exists_eq_succ_of_ne_zero (by omega)
      rw [getCompactedLaDistance.eq_def]
      simp only [h0, ne_eq, not_true, if_false]
      rw [ih (by omega) ?_ ?_]
      · omega
      · intro j hj
        rw [Nat.add_right_comm]
        exact hnon (j + 1) (by omega)
      · rwa [Nat.add_right_comm]

/-- The count runs to the end of the pack. -/
theorem getCompactedLaDistance_last {n i d1 : ℕ}
    (hnon : ∀ j ≤ n, (dec (i + j)).2 = .nonhead) :
    getCompactedLaDistance dec n i d1 =
      if (dec (i + n)).1 &&& d0Cblkcnt = 0 then d1 + n + (dec (i + n)).1 else d1 + n + 1 := by
  induction n generalizing i d1 with
  | zero =>
      have h0 := hnon 0 le_rfl
      rw [getCompactedLaDistance.eq_def]
      simp only [Nat.add_zero] at h0 ⊢
      simp only [h0, ne_eq, not_true, if_false]
      split_ifs <;> omega
  | succ n ih =>
      have h0 := hnon 0 (by omega)
      rw [Nat.add_zero] at h0
      rw [getCompactedLaDistance.eq_def]
      simp only [h0, ne_eq, not_true, if_false]
      rw [ih (fun j hj => by
        rw [Nat.add_right_comm]
        exact hnon (j + 1) (by omega)), Nat.add_right_comm i 1 n, Nat.add_assoc i n 1]
      split_ifs <;> omega

theorem unpackCompactedSlot_delta1 {vi : Inode} {m m' : Maprecorder} {vcnt i base : ℕ}
    (ht : (dec i).2 = .nonhead)
    (h : unpackCompactedSlot vi m dec vcnt i base true = .ok m') :
    m'.delta1 = u16 (getCompactedLaDistance dec (vcnt - 1 - i) i 0) := by
  unfold unpackCompactedSlot at h
  simp only [ht, if_true] at h
  split_ifs at h <;> cases h <;> rfl

end Distance

section Compact

variable {vi : Inode} {blkaddr isize : ℕ} {blk : BlkRead} {mem' : Mem}
  {pre post : List InmemExtent} {e : InmemExtent}

theorem CompactFile.same_pack {es : List InmemExtent} (hf : CompactFile vi blkaddr es) {lcn l : ℕ}
    (hge : (vi.packPlace lcn).first ≤ l)
    (hlt : l < (vi.packPlace lcn).first + (vi.packPlace lcn).vcnt) :
    vi.packPlace l = vi.packPlace lcn := by
  have hmpos : vi.mpos % 8 = 0 := by
    unfold Inode.mpos roundUp
    omega
  obtain ⟨hcounts, -⟩ := @counts_compactedCounts _ _ _ (vi.sbi.blkRoundUp vi.iSize) hmpos hf.two
  exact hcounts.same_pack hge hlt

theorem cvAt_next (hs : Spans vi.sbi.blksz 0 (pre ++ e :: post)) :
    (cvAt vi (pre ++ e :: post) (totalLength pre / vi.sbi.blksz +
      extentSpan vi.sbi.blksz (totalLength pre) e)).clustertype ≠ .nonhead := by
  have hdiv := div_add_extentSpan vi.sbi.blksz_pos (totalLength pre) e
  have hsplit : pre ++ e :: post = (pre ++ [e]) ++ post := by simp
  have hpos : totalLength pre / vi.sbi.blksz + extentSpan vi.sbi.blksz (totalLength pre) e =
      totalLength (pre ++ [e]) / vi.sbi.blksz := by
    rw [← hdiv, totalLength_concat]
  rw [hpos]
  rw [hsplit] at hs ⊢
  rcases Nat.lt_or_ge (totalLength (pre ++ [e]) / vi.sbi.blksz)
      (fileSlots vi.sbi.blksz 0 (pre ++ [e] ++ post)).length with hlt | hge
  · exact cvAt_boundary hs hlt
  · rw [cvAt, List.getElem?_eq_none hge]
    simp [CompressindexVec.zero]

/-- The last slot of a pack leads on to the distance it stores: it is a NONHEAD slot of the extent
that is not taken for a count. -/
def StoresDistance (vi : Inode) (pre : List InmemExtent) (e : InmemExtent) (z : ℕ) : Prop :=
  ¬ (z = 1 ∧ vi.sbi.bigPcluster = true) ∧
    min (u16 (extentSpan vi.sbi.blksz (totalLength pre) e - z))
      (2 ^ compactedLobits vi.zLogicalClusterbits - 1) &&& d0Cblkcnt = 0

/-- No pack ends with a slot of the extent from `i` on in front of `z`. -/
def NoEndBefore (vi : Inode) (pre : List InmemExtent) (i z : ℕ) : Prop :=
  ∀ j, i ≤ j → j < z → ¬ vi.EndsPack (totalLength pre / vi.sbi.blksz + j)

/-- Where a slot of an extent leads: to the next head if it is in the pack, else behind the pack,
or from its last slot `z` on by the distance stored there. -/
inductive LeadsOn (vi : Inode) (pre : List InmemExtent) (e : InmemExtent) (i : ℕ) : ℕ → Prop
  | head (hi : i < extentSpan vi.sbi.blksz (totalLength pre) e)
      (hpack : NoEndBefore vi pre i (extentSpan vi.sbi.blksz (totalLength pre) e)) :
      LeadsOn vi pre e i (extentSpan vi.sbi.blksz (totalLength pre) e)
  | pack {z : ℕ} (hi : i ≤ z) (hz : z < extentSpan vi.sbi.blksz (totalLength pre) e)
      (hpack : NoEndBefore vi pre i z)
      (hnot : ¬ StoresDistance vi pre e z) : LeadsOn vi pre e i (z + 1)
  | distance {z : ℕ} (hi : i ≤ z) (hz : z < extentSpan vi.sbi.blksz (totalLength pre) e)
      (hpack : NoEndBefore vi pre i z)
      (hends : vi.EndsPack (totalLength pre / vi.sbi.blksz + z))
      (hstores : StoresDistance vi pre e z) :
      LeadsOn vi pre e i (z + u16 (extentSpan vi.sbi.blksz (totalLength pre) e - z))

/-- The largest value of the field shows bit 11, so that a stored distance is not cut off. -/
theorem StoresDistance.eq {z : ℕ} (h : StoresDistance vi pre e z) :
    min (u16 (extentSpan vi.sbi.blksz (totalLength pre) e - z))
      (2 ^ compactedLobits vi.zLogicalClusterbits - 1) =
        u16 (extentSpan vi.sbi.blksz (totalLength pre) e - z) := by
  rw [min_eq_left]
  by_contra hlt
  have hbit := h.2
  rw [min_eq_right (by omega)] at hbit
  apply (and_d0Cblkcnt_ne_zero _).mpr _ hbit
  rw [Nat.testBit_two_pow_sub_one]
  have : 12 ≤ compactedLobits vi.zLogicalClusterbits := Nat.le_max_right _ _
  simp only [decide_eq_true_eq]
  omega

theorem CompactDevice.lookahead
    (hd : CompactDevice vi blkaddr (pre ++ e :: post) blk mem' isize)
    (hclear : ExtentClear vi pre e ∨ vi.sbi.bigPcluster = true) {i : ℕ} (h0 : i ≠ 0)
    (hi : i < extentSpan vi.sbi.blksz (totalLength pre) e) (m : Maprecorder) :
    ∃ m', zErofsLoadClusterFromDisk vi blk m (totalLength pre / vi.sbi.blksz + i) true =
        .ok m' ∧ m'.type = .nonhead ∧ m'.clusterofs = u16 (2 ^ vi.zLogicalClusterbits) ∧
      LeadsOn vi pre e i (i + m'.delta1) := by
  have hf := hd.file
  have hlcn := hf.lcn_lt (i := i) (by omega)
  obtain ⟨m', hok, -, htype, hofs, -⟩ := hd.load_nonhead hclear h0 hi hlcn m true
  refine ⟨m', hok, htype, hofs, ?_⟩
  obtain ⟨hshape, hfirst, hlast, -, -⟩ := hf.place hlcn
  obtain ⟨dec, base, hload, hdec, -⟩ := hd.load hlcn m true
  have hsame (l : ℕ) := @CompactFile.same_pack _ _ _ hf (totalLength pre / vi.sbi.blksz + i) l
  have hvcnt : (vi.packPlace (totalLength pre / vi.sbi.blksz + i)).vcnt ≤ 16 := by
    rcases hshape.cases_shift with ⟨-, h, -, -⟩ | ⟨-, h, -, -⟩ <;> omega
  rw [hok] at hload
  obtain ⟨k, hk⟩ := Nat.exists_eq_add_of_le hfirst
  rw [show totalLength pre / vi.sbi.blksz + i -
    (vi.packPlace (totalLength pre / vi.sbi.blksz + i)).first = k by omega] at hload
  -- the slots from `k` on, as far as they belong to the extent
  have hnon (j : ℕ) (hj : k + j < (vi.packPlace (totalLength pre / vi.sbi.blksz + i)).vcnt)
      (hin : i + j < extentSpan vi.sbi.blksz (totalLength pre) e) :
      (dec (k + j)).2 = .nonhead := by
    rw [hdec _ hj, ← Nat.add_assoc, ← hk, Nat.add_assoc]
    by_cases h1 : i + j = 1 ∧ vi.sbi.bigPcluster = true
    · rw [h1.1, cvAt_cblkcnt hf.spans h1.2 (by omega)]
      rfl
    · rw [cvAt_nonhead hf.spans (by omega) hin h1]
      rfl
  have hd1 := unpackCompactedSlot_delta1 (hnon 0 (by omega) hi) hload.symm
  have hends (z : ℕ) (hz : totalLength pre / vi.sbi.blksz + z <
      (vi.packPlace (totalLength pre / vi.sbi.blksz + i)).first +
        (vi.packPlace (totalLength pre / vi.sbi.blksz + i)).vcnt) (hiz : i ≤ z) :
      vi.EndsPack (totalLength pre / vi.sbi.blksz + z) ↔ totalLength pre / vi.sbi.blksz + z + 1 =
        (vi.packPlace (totalLength pre / vi.sbi.blksz + i)).first +
          (vi.packPlace (totalLength pre / vi.sbi.blksz + i)).vcnt := by
    unfold Inode.EndsPack
    rw [hsame _ (by omega) hz]
  clear hsame hload hok
  generalize vi.packPlace (totalLength pre / vi.sbi.blksz + i) = p at *
  -- `n` slots follow in the pack
  obtain ⟨n, hn⟩ : ∃ n, p.vcnt = k + n + 1 := ⟨p.vcnt - 1 - k, by omega⟩
  rw [Nat.add_zero, hn, show k + n + 1 - 1 - k = n by omega] at hd1
  rcases Nat.lt_or_ge (i + n) (extentSpan vi.sbi.blksz (totalLength pre) e) with hin | hout
  · have hz := (hends (i + n) (by omega) (by omega)).mpr (by omega)
    have hpack : NoEndBefore vi pre i (i + n) := by
      intro j hij hjn hend
      have := (hends j (by omega) hij).mp hend
      omega
    rw [getCompactedLaDistance_last (fun j hj => hnon j (by omega) (by omega)), Nat.zero_add]
      at hd1
    by_cases h1 : i + n = 1 ∧ vi.sbi.bigPcluster = true
    · have hslot := hdec.cblkcnt hf.spans h1.2 (by omega) (k := k + n) (by omega) (by omega)
      rw [hslot, if_neg (u16_or_d0Cblkcnt _), u16_of_lt (by omega)] at hd1
      rw [hd1, ← Nat.add_assoc]
      exact .pack (by omega) hin hpack (fun h => h.1 h1)
    · have hslot := hdec.last hf.spans (by omega) hin h1 (k := k + n) (by omega) (by omega)
      rw [hslot] at hd1
      simp only at hd1
      by_cases hstores : StoresDistance vi pre e (i + n)
      · have hle := Nat.min_le_right
          (u16 (extentSpan vi.sbi.blksz (totalLength pre) e - (i + n)))
          (2 ^ compactedLobits vi.zLogicalClusterbits - 1)
        have h14 : 2 ^ compactedLobits vi.zLogicalClusterbits ≤ 2 ^ 14 :=
          Nat.pow_le_pow_right (by decide) (by
            have := hf.lclusterbits_le
            unfold compactedLobits
            omega)
        rw [if_pos hstores.2, u16_of_lt (by omega), hstores.eq] at hd1
        rw [hd1, ← Nat.add_assoc]
        exact .distance (by omega) hin hpack hz hstores
      · rw [if_neg (fun h => hstores ⟨h1, h⟩), u16_of_lt (by omega)] at hd1
        rw [hd1, ← Nat.add_assoc]
        exact .pack (by omega) hin hpack hstores
  · obtain ⟨j, hj⟩ := Nat.exists_eq_add_of_le hi.le
    have hnext : (dec (k + j)).2 ≠ .nonhead := by
      rw [hdec _ (by omega), show p.first + (k + j) = totalLength pre / vi.sbi.blksz +
        extentSpan vi.sbi.blksz (totalLength pre) e by omega]
      exact cvAt_next hf.spans
    rw [getCompactedLaDistance_head (k := j) (by omega)
      (fun l hl => hnon l (by omega) (by omega)) hnext, Nat.zero_add, u16_of_lt (by omega)] at hd1
    rw [hd1, ← hj]
    refine .head hi ?_
    intro l hil hl hend
    have := (hends l (by omega) hil).mp hend
    omega

/-- No pack ends with a NONHEAD slot of the extent from which the next head is a multiple of
`2 ^ 16` away. -/
def DistancesStored (vi : Inode) (pre : List InmemExtent) (e : InmemExtent) : Prop :=
  ∀ z, z ≠ 0 → z < extentSpan vi.sbi.blksz (totalLength pre) e →
    ¬ (z = 1 ∧ vi.sbi.bigPcluster = true) → vi.EndsPack (totalLength pre / vi.sbi.blksz + z) →
    (extentSpan vi.sbi.blksz (totalLength pre) e - z) % 2 ^ 16 ≠ 0

theorem CompactDevice.looksAhead
    (hd : CompactDevice vi blkaddr (pre ++ e :: post) blk mem' isize)
    (hclear : ExtentClear vi pre e ∨ vi.sbi.bigPcluster = true)
    (hstored : DistancesStored vi pre e) : LooksAhead vi blk pre e := by
  intro i h0 hi m
  obtain ⟨m', hload, htype, -, hlead⟩ := hd.lookahead hclear h0 hi m
  refine ⟨m', hload, htype, ?_⟩
  generalize hnext : i + m'.delta1 = next at hlead
  cases hlead with
  | head hi hpack => exact ⟨by omega, le_rfl⟩
  | pack hiz hz hpack hnot => exact ⟨by omega, hz⟩
  | @distance z hiz hz hpack hends hstores =>
      have hne := hstored z (by omega) hz hstores.1 hends
      rw [← u16] at hne
      have hle : u16 (extentSpan vi.sbi.blksz (totalLength pre) e - z) ≤
          extentSpan vi.sbi.blksz (totalLength pre) e - z := Nat.mod_le _ _
      exact ⟨by omega, by omega⟩

/-- A walk does not get past a slot that stores a distance of zero. -/
theorem CompactDevice.heldBack
    (hd : CompactDevice vi blkaddr (pre ++ e :: post) blk mem' isize)
    (hclear : ExtentClear vi pre e ∨ vi.sbi.bigPcluster = true)
    (hnot : ¬ DistancesStored vi pre e) :
    ∃ last, 1 ≤ last ∧ last + 1 < extentSpan vi.sbi.blksz (totalLength pre) e ∧
      HeldBack vi blk pre last := by
  unfold DistancesStored at hnot
  push Not at hnot
  obtain ⟨last, h0, hlt, h1, hends, hmod⟩ := hnot
  refine ⟨last, by omega, by omega, ?_⟩
  intro i hi0 hi m
  obtain ⟨m', hload, htype, hofs, hlead⟩ := hd.lookahead hclear hi0 (by omega) m
  refine ⟨m', hload, htype, hofs, ?_⟩
  have hfirst {z : ℕ} (hpack : NoEndBefore vi pre i z) : z ≤ last := by
    by_contra hlast
    exact hpack last hi (by omega) hends
  generalize hnext : i + m'.delta1 = next at hlead
  cases hlead with
  | head _ hpack => exact hfirst hpack
  | @pack z hiz hz hpack hnot =>
      have hne : z ≠ last := by
        rintro rfl
        apply hnot
        refine ⟨fun h => h1 h.1 h.2, ?_⟩
        rw [u16, hmod, Nat.zero_min]
        rfl
      have := hfirst hpack
      omega
  | @distance z hiz hz hpack hends hstores =>
      have := hfirst hpack
      unfold u16
      omega

/-- Without big pclusters a slot that shows bit 11 is not accepted. -/
theorem CompactDevice.load_unclear
    (hd : CompactDevice vi blkaddr (pre ++ e :: post) blk mem' isize)
    (hbig : vi.sbi.bigPcluster = false) (hnot : ¬ ExtentClear vi pre e) :
    ∃ i, i ≠ 0 ∧ i < extentSpan vi.sbi.blksz (totalLength pre) e ∧
      ∀ m lookahead, zErofsLoadClusterFromDisk vi blk m (totalLength pre / vi.sbi.blksz + i)
        lookahead = .error .efscorrupted := by
  have hf := hd.file
  unfold ExtentClear at hnot
  push Not at hnot
  obtain ⟨i, h0, hi, h1, hends, hbit⟩ := hnot
  refine ⟨i, h0, hi, ?_⟩
  intro m lookahead
  have hlcn := hf.lcn_lt (i := i) (by omega)
  obtain ⟨-, hfirst, hlast, -, -⟩ := hf.place hlcn
  obtain ⟨dec, base, hload, hdec, -⟩ := hd.load hlcn m lookahead
  unfold Inode.EndsPack at hends
  have hslot := hdec.last hf.spans h0 hi (fun h => h1 h.1 h.2)
    (k := totalLength pre / vi.sbi.blksz + i -
      (vi.packPlace (totalLength pre / vi.sbi.blksz + i)).first) (by omega) (by omega)
  rw [hload]
  unfold unpackCompactedSlot
  simp only [hslot, if_true, if_pos hbit, hf.big, hbig, Bool.false_eq_true, not_false_eq_true]

end Compact

end ErofsUtils
