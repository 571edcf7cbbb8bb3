import ErofsUtils.CompactAddress

/-!
# Counting blocks inside a pack

The reader walks back from a head through the slots of its pack and adds up the blocks of
the extents it meets. The walk is followed extent by extent, from the last one on: either
the extent's slots are all in the pack and the walk continues at its head, or the pack
starts inside the extent and the walk stops there.
-/

namespace ErofsUtils
open ByteMemory BitPacking

/-- What the block address of the pack with first lcluster `first` stands for. Without big
pclusters it is one less than the address of the first head. -/
structure BaseOk (vi : Inode) (blkaddr : ℕ) (es : List InmemExtent) (first base : ℕ) :
    Prop where
  atHead : ∀ pre rest, es = pre ++ rest → AllCounted vi pre →
    first = totalLength pre / vi.sbi.blksz → first < (fileSlots vi.sbi.blksz 0 es).length →
      (base + (!vi.sbi.bigPcluster).toNat) % 2 ^ 32 = (blkaddr + totalBlocks pre) % 2 ^ 32
  inside : ∀ pre e post i, es = pre ++ e :: post → AllCounted vi (pre ++ [e]) → i ≠ 0 →
    i < extentSpan vi.sbi.blksz (totalLength pre) e →
    first = totalLength pre / vi.sbi.blksz + i →
      base % 2 ^ 32 = (blkaddr + totalBlocks pre +
        if vi.sbi.bigPcluster = true ∧ 2 ≤ i then e.compressedblks else 0) % 2 ^ 32

theorem headtype_ne_nonhead (e : InmemExtent) : e.headtype ≠ .nonhead := by
  rcases e.headtype_cases with h | h <;> simp [h]

/-- Nothing but a head or the pad entry is at the start of a part of the file. -/
theorem cvAt_boundary {vi : Inode} {pre rest : List InmemExtent}
    (hs : Spans vi.sbi.blksz 0 (pre ++ rest))
    (hlt : totalLength pre / vi.sbi.blksz < (fileSlots vi.sbi.blksz 0 (pre ++ rest)).length) :
    (cvAt vi (pre ++ rest) (totalLength pre / vi.sbi.blksz)).clustertype ≠ .nonhead := by
  have hb := vi.sbi.blksz_pos
  cases rest with
  | cons e post =>
      rw [(cvAt_head hs).1]
      exact headtype_ne_nonhead e
  | nil =>
      rw [List.append_nil] at hs hlt ⊢
      rcases slot_cases hb hs hlt with ⟨pre', e, post, i, rfl, hi, hlti⟩ | ⟨hpad, -⟩
      · -- a slot of an extent lies in front of the end of the file
        have hi0 : i = 0 := by
          by_contra h0
          have hdiv := div_add_extentSpan hb (totalLength pre') e
          have hmono : (totalLength pre' + e.length) / vi.sbi.blksz ≤
              totalLength (pre' ++ e :: post) / vi.sbi.blksz := by
            apply Nat.div_le_div_right
            rw [totalLength_append, totalLength_cons]
            omega
          omega
        rw [hi, hi0, Nat.add_zero, (cvAt_head hs).1]
        exact headtype_ne_nonhead e
      · rw [cvAt, hpad]
        simp [CompressindexVec.ofIndex, Slot.index, LclusterIndex.type]

theorem baseOk {vi : Inode} {es : List InmemExtent} (hs : Spans vi.sbi.blksz 0 es)
    (blkaddr first n : ℕ) :
    BaseOk vi blkaddr es first (packAddr vi.sbi.bigPcluster
      (runningCarry vi blkaddr es first) (cvSlice (cvAt vi es) first (n + 1))) := by
  have hslice : cvSlice (cvAt vi es) first (n + 1) =
      cvAt vi es first :: (cvSlice (cvAt vi es) (first + 1) n) := by
    unfold cvSlice
    rw [List.range_succ_eq_map, List.map_cons, List.map_map]
    simp only [Nat.add_zero, List.cons.injEq, true_and]
    apply List.map_congr_left
    intro i _
    rw [Function.comp_apply, Nat.add_assoc, Nat.add_comm 1]
  rw [hslice]
  refine ⟨?_, ?_⟩
  · rintro pre rest rfl hc rfl hlt
    have htype := cvAt_boundary hs hlt
    obtain ⟨haddr, hdummy⟩ := headCarry vi blkaddr hs hc
    rw [packAddr_cons _ (fun _ h _ => absurd h htype)]
    generalize runningCarry vi blkaddr (pre ++ rest) (totalLength pre / vi.sbi.blksz) = c
      at haddr hdummy ⊢
    rw [← haddr]
    cases hb : vi.sbi.bigPcluster with
    | false => simp [hdummy hb]
    | true => cases c.2 <;> simp [htype, u32]
  · rintro pre e post i rfl hc h0 hi rfl
    obtain ⟨hpre, he⟩ := hc.concat
    have hinner := innerCarry hs he (headCarry vi blkaddr hs hpre) h0 hi.le
    unfold InnerCarry at hinner
    generalize runningCarry vi blkaddr (pre ++ e :: post)
      (totalLength pre / vi.sbi.blksz + i) = c at hinner ⊢
    have hnon : (cvAt vi (pre ++ e :: post)
        (totalLength pre / vi.sbi.blksz + i)).clustertype = .nonhead := by
      by_cases h1 : i = 1 ∧ vi.sbi.bigPcluster = true
      · obtain ⟨rfl, hb⟩ := h1
        rw [cvAt_cblkcnt hs hb hi]
      · rw [cvAt_nonhead hs h0 hi h1]
    rw [packAddr_cons]
    · rw [if_neg (fun h => h.1 hnon)]
      split_ifs at hinner ⊢
      · exact hinner.1
      · exact hinner.1
    · intro hb _ hbit
      by_cases h1 : i = 1
      · subst h1
        rw [cvAt_cblkcnt hs hb hi, delta0_mk_deltas] at hbit
        exact absurd hbit (u16_or_d0Cblkcnt _)
      · rw [if_pos ⟨hb, by omega⟩] at hinner
        exact hinner.2

section Walk

variable {vi : Inode} {blkaddr lobits vcnt first base : ℕ} {dec : ℕ → ℕ × LclusterType}
  {pre rest : List InmemExtent} {e : InmemExtent}

/-- The slots of a pack in front of its last one, as the reader decodes them. -/
def SlotsDecoded (vi : Inode) (es : List InmemExtent) (lobits vcnt first : ℕ)
    (dec : ℕ → ℕ × LclusterType) : Prop :=
  ∀ i < vcnt, dec i = (cvAt vi es (first + i)).field lobits vcnt i

theorem SlotsDecoded.head (hd : SlotsDecoded vi (pre ++ e :: rest) lobits vcnt first dec)
    (hs : Spans vi.sbi.blksz 0 (pre ++ e :: rest)) {k : ℕ} (hk : k < vcnt)
    (hpos : first + k = totalLength pre / vi.sbi.blksz) : (dec k).2 = e.headtype := by
  rw [hd k hk, hpos]
  exact (cvAt_head hs).1

theorem SlotsDecoded.cblkcnt (hd : SlotsDecoded vi (pre ++ e :: rest) lobits vcnt first dec)
    (hs : Spans vi.sbi.blksz 0 (pre ++ e :: rest)) (hb : vi.sbi.bigPcluster = true)
    (h2 : 2 ≤ extentSpan vi.sbi.blksz (totalLength pre) e) {k : ℕ} (hk : k < vcnt)
    (hpos : first + k = totalLength pre / vi.sbi.blksz + 1) :
    dec k = (u16 (e.compressedblks ||| d0Cblkcnt), .nonhead) := by
  rw [hd k hk, hpos, cvAt_cblkcnt hs hb h2]
  unfold CompressindexVec.field CompressindexVec.offset
  rw [delta0_mk_deltas, if_pos rfl, if_pos (u16_or_d0Cblkcnt _)]

theorem SlotsDecoded.nonhead (hd : SlotsDecoded vi (pre ++ e :: rest) lobits vcnt first dec)
    (hs : Spans vi.sbi.blksz 0 (pre ++ e :: rest)) {i : ℕ} (h0 : i ≠ 0)
    (hi : i < extentSpan vi.sbi.blksz (totalLength pre) e)
    (h1 : ¬ (i = 1 ∧ vi.sbi.bigPcluster = true)) {k : ℕ} (hk : k + 1 < vcnt)
    (hpos : first + k = totalLength pre / vi.sbi.blksz + i) :
    dec k = (min i (d0Cblkcnt - 1), .nonhead) := by
  rw [hd k (by omega), hpos, cvAt_nonhead hs h0 hi h1]
  unfold CompressindexVec.field CompressindexVec.offset
  rw [delta0_mk_deltas, (u16_min_d0Cblkcnt i).1, if_pos rfl,
    if_neg (not_not.mpr (u16_min_d0Cblkcnt i).2), if_neg (by omega)]

theorem compactedNblkBig_head {k n : ℕ} (h : (dec k).2 ≠ .nonhead) :
    compactedNblkBig dec (k + 1) n = compactedNblkBig dec k (n + 1) := by
  rw [compactedNblkBig, if_neg h]

theorem compactedNblkBig_cblkcnt {k n c : ℕ} (hc : c < d0Cblkcnt)
    (h : dec k = (u16 (c ||| d0Cblkcnt), .nonhead)) :
    compactedNblkBig dec (k + 1) n = compactedNblkBig dec (k - 1) (n + c) := by
  have hne := u16_or_d0Cblkcnt c
  rw [compactedNblkBig, h]
  simp only [if_true]
  rw [if_pos hne, u16_or_of_lt hc, Nat.add_sub_cancel]

theorem compactedNblkBig_nonhead {k n d : ℕ} (hd : 2 ≤ d)
    (h : dec k = (min d (d0Cblkcnt - 1), .nonhead)) :
    compactedNblkBig dec (k + 1) n =
      compactedNblkBig dec (k - (min d (d0Cblkcnt - 1) - 2)) n := by
  rw [compactedNblkBig, h]
  simp only [if_true]
  rw [if_neg (not_not.mpr (u16_min_d0Cblkcnt d).2), if_neg (by
    unfold d0Cblkcnt
    omega)]

/-- The walk back to the head of a big pcluster that reaches the end of two lclusters, up
to the slot of its block count or the start of the pack. -/
theorem compactedNblkBig_extent
    (hd : SlotsDecoded vi (pre ++ e :: rest) lobits vcnt first dec)
    (hs : Spans vi.sbi.blksz 0 (pre ++ e :: rest)) (hb : vi.sbi.bigPcluster = true)
    (h2 : 2 ≤ extentSpan vi.sbi.blksz (totalLength pre) e) (hlt : e.compressedblks < d0Cblkcnt)
    (hv : vcnt ≤ 16) {i n : ℕ} (h0 : i ≠ 0) (hi : i < vcnt)
    (hpos : first + i = totalLength pre / vi.sbi.blksz +
      extentSpan vi.sbi.blksz (totalLength pre) e) :
    compactedNblkBig dec i n =
      if i + 1 < extentSpan vi.sbi.blksz (totalLength pre) e then .ok n
      else compactedNblkBig dec (i - extentSpan vi.sbi.blksz (totalLength pre) e)
        (n + e.compressedblks) := by
  obtain ⟨k, rfl⟩ := Nat.exists_eq_succ_of_ne_zero h0
  generalize hspan : extentSpan vi.sbi.blksz (totalLength pre) e = span at *
  -- the step at the slot that stores the block count
  have hcount {t m : ℕ} (ht : t < vcnt)
      (htpos : first + t = totalLength pre / vi.sbi.blksz + 1) :
      compactedNblkBig dec (t + 1) m = compactedNblkBig dec (t - 1) (m + e.compressedblks) :=
    compactedNblkBig_cblkcnt hlt (hd.cblkcnt hs hb (by omega) ht htpos)
  rcases Nat.lt_or_ge span 3 with h3 | h3
  · obtain rfl : span = 2 := by omega
    rw [if_neg (by omega), Nat.succ_eq_add_one, hcount (by omega) (by omega)]
    congr 1
  · have hnon := hd.nonhead hs (i := span - 1) (by omega) (by omega) (by omega)
      (k := k) (by omega) (by omega)
    rw [Nat.succ_eq_add_one, compactedNblkBig_nonhead (by omega) hnon]
    have hd0 : d0Cblkcnt = 2048 := rfl
    split_ifs with hin
    · -- the pack starts behind the slot of the block count
      have hj : k - (min (span - 1) (d0Cblkcnt - 1) - 2) = 0 := by
        rw [hd0]
        omega
      rw [hj, compactedNblkBig]
    · obtain ⟨t, ht⟩ : ∃ t, t + span = k + 2 := ⟨k + 2 - span, by omega⟩
      have hj : k - (min (span - 1) (d0Cblkcnt - 1) - 2) = t + 1 := by
        rw [hd0]
        omega
      rw [hj, hcount (by omega) (by omega)]
      congr 1
      omega

/-- With big pclusters, the blocks counted in front of a head lead from the pack's address
to the head's. -/
theorem compactedNblkBig_eq {pre rest : List InmemExtent}
    (hd : SlotsDecoded vi (pre ++ rest) lobits vcnt first dec)
    (hs : Spans vi.sbi.blksz 0 (pre ++ rest)) (hb : vi.sbi.bigPcluster = true)
    (hbase : BaseOk vi blkaddr (pre ++ rest) first base) (hv : vcnt ≤ 16)
    (hc : AllCounted vi pre) {i n : ℕ} (hi : i < vcnt)
    (hpos : first + i = totalLength pre / vi.sbi.blksz)
    (hlen : first < (fileSlots vi.sbi.blksz 0 (pre ++ rest)).length) :
    ∃ r, compactedNblkBig dec i n = .ok (n + r) ∧
      (base + r) % 2 ^ 32 = (blkaddr + totalBlocks pre) % 2 ^ 32 := by
  induction pre using List.reverseRecOn generalizing rest i n with
  | nil =>
      rw [totalLength_nil, Nat.zero_div] at hpos
      obtain ⟨rfl, rfl⟩ : first = 0 ∧ i = 0 := by omega
      refine ⟨0, by rw [compactedNblkBig]; rfl, ?_⟩
      have := hbase.atHead [] rest rfl hc (by simp) hlen
      simpa [hb] using this
  | append_singleton pre e ih =>
      rcases Nat.eq_zero_or_pos i with hz | hpos'
      · subst hz
        refine ⟨0, by rw [compactedNblkBig]; rfl, ?_⟩
        have := hbase.atHead (pre ++ [e]) rest rfl hc (by omega) hlen
        simpa [hb] using this
      · have hcount := hc
        obtain ⟨hpre, he⟩ := hc.concat
        rw [List.append_assoc, List.singleton_append] at hd hs hbase hlen
        rw [totalLength_concat, div_add_extentSpan vi.sbi.blksz_pos] at hpos
        rw [totalBlocks_concat]
        have hspan := he.span_pos
        have hnn := Nat.zero_le (totalLength pre / vi.sbi.blksz)
        rcases Nat.lt_or_ge (extentSpan vi.sbi.blksz (totalLength pre) e) 2 with h2 | h2
        · -- a single slot, which counts as one block
          obtain ⟨k, rfl⟩ := Nat.exists_eq_succ_of_ne_zero (Nat.pos_iff_ne_zero.mp hpos')
          have hhead := hd.head hs (k := k) (by omega) (by omega)
          obtain ⟨r, hr, haddr⟩ := ih (n := n + 1) hd hs hbase hpre (i := k) (by omega)
            (by omega) hlen
          have hone := he.single (fun h => by omega)
          refine ⟨r + 1, ?_, ?_⟩
          · rw [Nat.succ_eq_add_one, compactedNblkBig_head (by
              rw [hhead]
              exact headtype_ne_nonhead e), hr, Nat.add_right_comm, Nat.add_assoc]
          · rw [hone]
            omega
        · rw [compactedNblkBig_extent hd hs hb h2 he.lt hv (by omega) hi hpos]
          split_ifs with hin
          · refine ⟨0, rfl, ?_⟩
            have := hbase.inside pre e rest
              (extentSpan vi.sbi.blksz (totalLength pre) e - i) rfl hcount (by omega)
              (by omega) (by omega)
            rw [if_pos ⟨hb, by omega⟩] at this
            omega
          · rcases Nat.lt_or_ge i (extentSpan vi.sbi.blksz (totalLength pre) e) with hlt | hge
            · -- the pack starts at the slot of the block count
              rw [Nat.sub_eq_zero_of_le hlt.le, compactedNblkBig]
              refine ⟨e.compressedblks, rfl, ?_⟩
              have := hbase.inside pre e rest
                (extentSpan vi.sbi.blksz (totalLength pre) e - i) rfl hcount (by omega)
                (by omega) (by omega)
              rw [if_neg (by omega)] at this
              omega
            · obtain ⟨r, hr, haddr⟩ := ih (n := n + e.compressedblks) hd hs hbase hpre
                (i := i - extentSpan vi.sbi.blksz (totalLength pre) e) (by omega) (by omega)
                hlen
              refine ⟨r + e.compressedblks, ?_, by omega⟩
              rw [hr]
              congr 1
              omega

theorem compactedNblk_eq {pre rest : List InmemExtent}
    (hd : SlotsDecoded vi (pre ++ rest) lobits vcnt first dec)
    (hs : Spans vi.sbi.blksz 0 (pre ++ rest)) (hb : vi.sbi.bigPcluster = false)
    (hbase : BaseOk vi blkaddr (pre ++ rest) first base) (hv : vcnt ≤ 16)
    (hc : AllCounted vi pre) {i n : ℕ} (hi : i < vcnt)
    (hpos : first + i = totalLength pre / vi.sbi.blksz)
    (hlen : first < (fileSlots vi.sbi.blksz 0 (pre ++ rest)).length) :
    ∃ r, compactedNblk dec i n = n + r ∧
      (base + 1 + r) % 2 ^ 32 = (blkaddr + totalBlocks pre) % 2 ^ 32 := by
  induction pre using List.reverseRecOn generalizing rest i n with
  | nil =>
      rw [totalLength_nil, Nat.zero_div] at hpos
      obtain ⟨rfl, rfl⟩ : first = 0 ∧ i = 0 := by omega
      refine ⟨0, by rw [compactedNblk]; rfl, ?_⟩
      have := hbase.atHead [] rest rfl hc (by simp) hlen
      simpa [hb] using this
  | append_singleton pre e ih =>
      rcases Nat.eq_zero_or_pos i with hz | hpos'
      · subst hz
        refine ⟨0, by rw [compactedNblk]; rfl, ?_⟩
        have := hbase.atHead (pre ++ [e]) rest rfl hc (by omega) hlen
        simpa [hb] using this
      · have hcount := hc
        obtain ⟨hpre, he⟩ := hc.concat
        rw [List.append_assoc, List.singleton_append] at hd hs hbase hlen
        rw [totalLength_concat, div_add_extentSpan vi.sbi.blksz_pos] at hpos
        rw [totalBlocks_concat, he.single (by simp [hb])]
        have hspan := he.span_pos
        have hnn := Nat.zero_le (totalLength pre / vi.sbi.blksz)
        obtain ⟨k, rfl⟩ := Nat.exists_eq_succ_of_ne_zero (Nat.pos_iff_ne_zero.mp hpos')
        rw [Nat.succ_eq_add_one, compactedNblk]
        rcases Nat.lt_or_ge (extentSpan vi.sbi.blksz (totalLength pre) e) 2 with h2 | h2
        · have hhead := hd.head hs (k := k) (by omega) (by omega)
          obtain ⟨r, hr, haddr⟩ := ih (n := n + 1) hd hs hbase hpre (i := k) (by omega)
            (by omega) hlen
          rw [if_neg (by
            rw [hhead]
            exact headtype_ne_nonhead e), hr]
          exact ⟨r + 1, by omega, by omega⟩
        · have hnon := hd.nonhead hs
            (i := extentSpan vi.sbi.blksz (totalLength pre) e - 1) (by omega) (by omega)
            (by simp [hb]) (k := k) (by omega) (by omega)
          have hd0 : d0Cblkcnt = 2048 := rfl
          rw [if_pos (by rw [hnon]), hnon]
          simp only
          split_ifs with hin
          · obtain ⟨r, hr, haddr⟩ := ih (n := n + 1) hd hs hbase hpre
              (i := k - min (extentSpan vi.sbi.blksz (totalLength pre) e - 1) (d0Cblkcnt - 1))
              (by omega) (by omega) hlen
            exact ⟨r + 1, by rw [hr]; omega, by omega⟩
          · refine ⟨0, rfl, ?_⟩
            have := hbase.inside pre e rest
              (extentSpan vi.sbi.blksz (totalLength pre) e - (k + 1)) rfl hcount (by omega)
              (by omega) (by omega)
            rw [if_neg (by simp [hb])] at this
            omega

end Walk

end ErofsUtils
