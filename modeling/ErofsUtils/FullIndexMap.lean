import ErofsUtils.FullIndex

/-!
# Mapping through the FULL indexes that were written

Every offset of a file maps to the extent that contains it. The lookback from any lcluster
of an extent ends at its head, in steps of at most `Z_EROFS_LI_D0_CBLKCNT - 1` lclusters.
The block count is found in the first NONHEAD slot, where it shares the field with the bit
that marks it: a pcluster of exactly that many blocks is not read back.
-/

namespace ErofsUtils
open ByteMemory

theorem dvd_fullIndexAlign (n : ℕ) : 8 ∣ Inode.fullIndexAlign n := by
  unfold Inode.fullIndexAlign roundUp
  omega

section Load

variable {vi : Inode} {blk : BlkRead} {es : List InmemExtent}

theorem FullInode.dvd_blksz (hf : FullInode vi blk es) : 8 ∣ vi.sbi.blksz :=
  pow_dvd_pow 2 (le_trans (by decide : 3 ≤ 9) hf.blksz_ge)

theorem FullInode.blksz_le_u16 (hf : FullInode vi blk es) : vi.sbi.blksz ≤ 2 ^ 16 :=
  Nat.pow_le_pow_right (by decide) hf.blksz_le

theorem FullInode.lcn_lt (hf : FullInode vi blk es) {lcn : ℕ}
    (hlcn : lcn < (fileSlots vi.sbi.blksz 0 es).length) : lcn < 2 ^ 32 := by
  have hlen := length_fileSlots vi.sbi.blksz_pos hf.spans
  rw [Nat.zero_div, Nat.zero_add, Nat.zero_add, ← hf.size] at hlen
  change _ = vi.sbi.blkRoundUp vi.iSize at hlen
  have hlt := hf.metasize_lt
  omega

theorem legacyLoad_of_record {di : LclusterIndex} (hdi : di.Fits)
    (hlayout : vi.datalayout = .compressedFull) (h8 : 8 ∣ vi.sbi.blksz) {lcn : ℕ}
    (hlcn : lcn < 2 ^ 32)
    (hrec : DeviceHolds vi.sbi blk
      (Inode.fullIndexAlign (vi.iloc + vi.inodeIsize + vi.xattrIsize) + 8 * lcn) di.encode)
    (m : Maprecorder) (lookahead : Bool) :
    zErofsLoadClusterFromDisk vi blk m lcn lookahead =
      legacyDecodeIndex vi { m with
        nextpackoff :=
          Inode.fullIndexAlign (vi.iloc + vi.inodeIsize + vi.xattrIsize) + lcn * 8 + 8
        lcn := lcn } di := by
  obtain ⟨kaddr, hblk, hholds⟩ := hrec.block h8
    (Nat.dvd_add (dvd_fullIndexAlign _) (Nat.dvd_mul_right 8 lcn)) (by simp) (by simp)
  have hdec := LclusterIndex.decode_of_holds hdi hholds
  rw [Nat.mul_comm] at hblk hdec
  simp only [zErofsLoadClusterFromDisk, hlayout, legacyLoadClusterFromDisk,
    zErofsReloadIndexes, u32_of_lt hlcn, hblk, hdec]

theorem FullInode.load (hf : FullInode vi blk es) {lcn : ℕ} {s : Slot}
    (hs : (fileSlots vi.sbi.blksz 0 es)[lcn]? = some s) (m : Maprecorder) (lookahead : Bool) :
    zErofsLoadClusterFromDisk vi blk m lcn lookahead =
      legacyDecodeIndex vi { m with
        nextpackoff :=
          Inode.fullIndexAlign (vi.iloc + vi.inodeIsize + vi.xattrIsize) + lcn * 8 + 8
        lcn := lcn } (s.index vi) := by
  have hidx : (zErofsWriteIndexes vi es)[lcn]? = some (s.index vi) := by
    rw [zErofsWriteIndexes_eq vi hf.spans, List.getElem?_map, hs]
    rfl
  exact legacyLoad_of_record (slotIndex_fits vi s) hf.layout hf.dvd_blksz
    (hf.lcn_lt (List.getElem?_eq_some_iff.mp hs).1)
    (hf.indexes.record LclusterIndex.length_encode hidx) m lookahead

theorem FullInode.u16_mod (hf : FullInode vi blk es) (n : ℕ) :
    u16 (n % vi.sbi.blksz) = n % vi.sbi.blksz := by
  have := Nat.mod_lt n vi.sbi.blksz_pos
  have := hf.blksz_le_u16
  exact u16_of_lt (by omega)

theorem FullInode.load_start (hf : FullInode vi blk es) {lcn n : ℕ} {s : Slot}
    (hs : (fileSlots vi.sbi.blksz 0 es)[lcn]? = some s)
    (hstart : s.StartsAt (n % vi.sbi.blksz)) (m : Maprecorder) (lookahead : Bool) :
    ∃ m', zErofsLoadClusterFromDisk vi blk m lcn lookahead = .ok m' ∧ m'.lcn = lcn ∧
      (m'.type = .plain ∨ m'.type = .head1) ∧ m'.clusterofs = n % vi.sbi.blksz ∧
      m'.compressedblks = m.compressedblks ∧ m'.headtype = m.headtype := by
  rw [hf.load hs]
  cases s with
  | extent e ofs d0 d1 =>
      obtain ⟨rfl, rfl⟩ := hstart
      rw [Slot.index, legacyDecodeIndex_head]
      exact ⟨_, rfl, rfl, e.headtype_cases, hf.u16_mod n, rfl, rfl⟩
  | pad ofs =>
      rw [show ofs = n % vi.sbi.blksz from hstart, legacyDecodeIndex_pad]
      exact ⟨_, rfl, rfl, Or.inl rfl, hf.u16_mod n, rfl, rfl⟩

end Load

section Extent

variable {vi : Inode} {blk : BlkRead} {pre post : List InmemExtent} {e : InmemExtent}

theorem FullInode.load_head (hf : FullInode vi blk (pre ++ e :: post)) (m : Maprecorder)
    (lookahead : Bool) :
    ∃ m', zErofsLoadClusterFromDisk vi blk m (totalLength pre / vi.sbi.blksz) lookahead =
        .ok m' ∧
      m'.lcn = totalLength pre / vi.sbi.blksz ∧ m'.type = e.headtype ∧
      m'.clusterofs = totalLength pre % vi.sbi.blksz ∧ m'.pblk = e.headBlkaddr vi ∧
      m'.compressedblks = m.compressedblks := by
  obtain ⟨p, d1, hs⟩ := slot_head vi.sbi.blksz_pos hf.spans
  rw [hf.load hs, Slot.index, legacyDecodeIndex_head]
  exact ⟨_, rfl, rfl, rfl, hf.u16_mod _, rfl, rfl⟩

/-- The block counts that a lookup inside `e` may have recorded. -/
def Recorded (vi : Inode) (pos : ℕ) (e : InmemExtent) (c : ℕ) : Prop :=
  vi.sbi.bigPcluster = true ∧ 2 ≤ extentSpan vi.sbi.blksz pos e ∧
    c = storedCblkcnt e.compressedblks

theorem FullInode.load_nonhead (hf : FullInode vi blk (pre ++ e :: post)) {i : ℕ} (h0 : i ≠ 0)
    (hi : i < extentSpan vi.sbi.blksz (totalLength pre) e) (m : Maprecorder)
    (lookahead : Bool) :
    ∃ m', zErofsLoadClusterFromDisk vi blk m (totalLength pre / vi.sbi.blksz + i) lookahead =
        .ok m' ∧
      m'.lcn = totalLength pre / vi.sbi.blksz + i ∧ m'.type = .nonhead ∧
      m'.clusterofs = u16 (2 ^ vi.zLogicalClusterbits) ∧ m'.delta0 ≠ 0 ∧ m'.delta0 ≤ i ∧
      m'.headtype = m.headtype ∧
      (i = 1 → vi.sbi.bigPcluster = true → m'.delta0 = 1 ∧
        m'.compressedblks = storedCblkcnt e.compressedblks) ∧
      (m'.compressedblks = m.compressedblks ∨
        Recorded vi (totalLength pre) e m'.compressedblks) := by
  rw [hf.load (slot_of_lt_span vi.sbi.blksz_pos hf.spans hi), Slot.index]
  by_cases h1 : i = 1 ∧ vi.sbi.bigPcluster = true
  · obtain ⟨rfl, hb⟩ := h1
    rw [legacyDecodeIndex_cblkcnt vi _ e _ _ hb hf.big]
    exact ⟨_, rfl, rfl, rfl, rfl, Nat.one_ne_zero, le_rfl, rfl, fun _ _ => ⟨rfl, rfl⟩,
      Or.inr ⟨hb, hi, rfl⟩⟩
  · rw [legacyDecodeIndex_nonhead vi _ e _ _ _ h0 h1]
    refine ⟨_, rfl, rfl, rfl, rfl, ?_, Nat.min_le_left _ _, rfl, ?_, Or.inl rfl⟩
    · simp only [d0Cblkcnt]
      omega
    · intro hi1 hb
      exact absurd ⟨hi1, hb⟩ h1

end Extent

/-- What a lookup finds out about an extent besides its place: the block counts that a load inside
it may record, and the address at its head. -/
structure Shown where
  count : ℕ → InmemExtent → ℕ → Prop
  addr : InmemExtent → ℕ → Prop

def Shown.written (vi : Inode) : Shown where
  count := Recorded vi
  addr := fun e pblk => pblk = e.headBlkaddr vi

/-- What the loads of an index return for the extent `e` of `pre ++ e :: post`, in either layout:
at its head, at a later lcluster of it, and where a new part of the file starts. -/
structure Indexed (vi : Inode) (blk : BlkRead) (pre : List InmemExtent) (e : InmemExtent)
    (post : List InmemExtent) (shown : Shown) : Prop where
  blksz_ge : 9 ≤ vi.sbi.blkszbits
  blksz_le : vi.sbi.blkszbits ≤ 16
  lclusterbits : vi.zLogicalClusterbits = vi.sbi.blkszbits
  big : vi.zAdvise.bigPcluster1 = vi.sbi.bigPcluster
  size : vi.iSize = totalLength (pre ++ e :: post)
  size_lt : vi.iSize < 2 ^ 63
  spans : Spans vi.sbi.blksz 0 (pre ++ e :: post)
  head : ∀ m lookahead,
    ∃ m', zErofsLoadClusterFromDisk vi blk m (totalLength pre / vi.sbi.blksz) lookahead =
        .ok m' ∧
      m'.lcn = totalLength pre / vi.sbi.blksz ∧ m'.type = e.headtype ∧
      m'.clusterofs = totalLength pre % vi.sbi.blksz ∧ shown.addr e m'.pblk ∧
      m'.compressedblks = m.compressedblks
  nonhead : ∀ i, i ≠ 0 → i < extentSpan vi.sbi.blksz (totalLength pre) e → ∀ m lookahead,
    ∃ m', zErofsLoadClusterFromDisk vi blk m (totalLength pre / vi.sbi.blksz + i) lookahead =
        .ok m' ∧
      m'.lcn = totalLength pre / vi.sbi.blksz + i ∧ m'.type = .nonhead ∧
      m'.clusterofs = u16 (2 ^ vi.zLogicalClusterbits) ∧ m'.delta0 ≠ 0 ∧ m'.delta0 ≤ i ∧
      m'.headtype = m.headtype ∧
      (i = 1 → vi.sbi.bigPcluster = true → m'.delta0 = 1 ∧
        m'.compressedblks = storedCblkcnt e.compressedblks) ∧
      (m'.compressedblks = m.compressedblks ∨
        shown.count (totalLength pre) e m'.compressedblks)
  start : ∀ lcn n s, (fileSlots vi.sbi.blksz 0 (pre ++ e :: post))[lcn]? = some s →
    s.StartsAt (n % vi.sbi.blksz) → ∀ m lookahead,
    ∃ m', zErofsLoadClusterFromDisk vi blk m lcn lookahead = .ok m' ∧ m'.lcn = lcn ∧
      (m'.type = .plain ∨ m'.type = .head1) ∧ m'.clusterofs = n % vi.sbi.blksz ∧
      m'.compressedblks = m.compressedblks ∧ m'.headtype = m.headtype

theorem FullInode.indexed {vi : Inode} {blk : BlkRead} {pre post : List InmemExtent}
    {e : InmemExtent} (hf : FullInode vi blk (pre ++ e :: post)) :
    Indexed vi blk pre e post (.written vi) where
  blksz_ge := hf.blksz_ge
  blksz_le := hf.blksz_le
  lclusterbits := hf.lclusterbits
  big := hf.big
  size := hf.size
  size_lt := hf.size_lt
  spans := hf.spans
  head := hf.load_head
  nonhead := by
    intro i h0 hi
    exact hf.load_nonhead h0 hi
  start := by
    intro lcn n s hs hstart
    exact hf.load_start hs hstart

section Indexed

variable {vi : Inode} {blk : BlkRead} {pre post : List InmemExtent} {e : InmemExtent}
  {shown : Shown}

theorem Indexed.blksz_le_u16 (hf : Indexed vi blk pre e post shown) :
    vi.sbi.blksz ≤ 2 ^ 16 :=
  Nat.pow_le_pow_right (by decide) hf.blksz_le

theorem Indexed.pow_lclusterbits (hf : Indexed vi blk pre e post shown) :
    2 ^ vi.zLogicalClusterbits = vi.sbi.blksz := by
  rw [hf.lclusterbits]
  rfl

/-- The logical address a reader puts together from an lcluster and its offset. -/
theorem Indexed.addr (hf : Indexed vi blk pre e post shown) (n : ℕ) :
    (n / vi.sbi.blksz * 2 ^ vi.zLogicalClusterbits) ||| (n % vi.sbi.blksz) = n := by
  have h := Nat.two_pow_add_eq_or_of_lt (i := vi.sbi.blkszbits) (b := n % vi.sbi.blksz)
    (Nat.mod_lt n vi.sbi.blksz_pos) (n / vi.sbi.blksz)
  rw [hf.lclusterbits, Nat.mul_comm, ← h]
  exact Nat.div_add_mod n vi.sbi.blksz

theorem Indexed.lookback (hf : Indexed vi blk pre e post shown) {i : ℕ}
    (hi : i < max (extentSpan vi.sbi.blksz (totalLength pre) e) 1) {m : Maprecorder} {d : ℕ}
    (hm : m.lcn = totalLength pre / vi.sbi.blksz + i + d) :
    ∃ m', zErofsExtentLookback vi blk m d = .ok (m', totalLength pre) ∧
      m'.lcn = totalLength pre / vi.sbi.blksz ∧ m'.headtype = e.headtype ∧
      shown.addr e m'.pblk ∧
      (m'.compressedblks = m.compressedblks ∨
        shown.count (totalLength pre) e m'.compressedblks) := by
  have hnn := Nat.zero_le (totalLength pre / vi.sbi.blksz)
  induction i using Nat.strong_induction_on generalizing m d with
  | _ i ih =>
      have hsub : m.lcn - d = totalLength pre / vi.sbi.blksz + i := by omega
      by_cases h0 : i = 0
      · obtain ⟨m', hload, hlcn, htype, hofs, hpblk, hc⟩ := hf.head m false
        have hback := zErofsExtentLookback_of_head (m := m)
          (d := d) (by omega) (by rwa [hsub, h0, Nat.add_zero])
          (htype ▸ e.headtype_cases)
        rw [hlcn, hofs, hf.addr] at hback
        exact ⟨_, hback, rfl, htype, hpblk, Or.inl hc⟩
      · obtain ⟨m', hload, hlcn, htype, -, hd0, hdi, -, -, hc⟩ :=
          hf.nonhead i h0 (by omega) m false
        obtain ⟨m'', hback, hlcn', hhead, hpblk, hc'⟩ := ih (i - m'.delta0) (by omega)
          (by omega) (show m'.lcn = _ + (i - m'.delta0) + m'.delta0 by omega)
        refine ⟨m'', ?_, hlcn', hhead, hpblk, ?_⟩
        · rw [← hback]
          exact zErofsExtentLookback_of_nonhead (by omega) (by rwa [hsub]) htype hd0
        · rcases hc' with hc' | hc'
          · rw [hc']
            exact hc
          · exact Or.inr hc'

/-- What a lookup of `ofs` inside `e` has found: the recorder stands at the head of `e`, and
`q` is the end of the range that is known to belong to the extent. -/
structure HeadAt (vi : Inode) (shown : Shown) (pre : List InmemExtent) (e : InmemExtent)
    (post : List InmemExtent) (ofs : ℕ) (m : Maprecorder) (q : ℕ) (full : Bool) : Prop where
  lcn : m.lcn = totalLength pre / vi.sbi.blksz
  headtype : m.headtype = e.headtype
  pblk : shown.addr e m.pblk
  cblks : m.compressedblks = 0 ∨ shown.count (totalLength pre) e m.compressedblks
  lt : ofs < q
  le_cluster : q ≤ (ofs / vi.sbi.blksz + 1) * vi.sbi.blksz
  le_extent : q ≤ totalLength pre + e.length ∨ q ≤ totalLength pre + vi.sbi.blksz
  le_end : post ≠ [] ∨ vi.zAdvise.inlinePcluster = true → q ≤ totalLength pre + e.length
  full_eq : full = true → q = totalLength pre + e.length

/-- The head of an extent with the block count that its index shows. -/
abbrev HeadFound (vi : Inode) := HeadAt vi (.written vi)

theorem lt_next_cluster {b : ℕ} (hb : 0 < b) (n : ℕ) : n < (n / b + 1) * b := by
  have := Nat.lt_mul_div_succ n hb
  rwa [Nat.mul_comm]

theorem Indexed.end_le (hf : Indexed vi blk pre e post shown) :
    totalLength pre + e.length ≤ vi.iSize := by
  rw [hf.size, totalLength_append, totalLength_cons]
  omega

/-- The offset lies in the lcluster the extent starts in. -/
theorem Indexed.mapHead_first (hf : Indexed vi blk pre e post shown) {ofs : ℕ}
    (hge : totalLength pre ≤ ofs) (hlt : ofs < totalLength pre + e.length)
    (hi : ofs / vi.sbi.blksz = totalLength pre / vi.sbi.blksz) :
    ∃ m₀ m' q full,
      zErofsLoadClusterFromDisk vi blk .init (ofs / vi.sbi.blksz) false = .ok m₀ ∧
      zErofsMapHead vi blk m₀ (ofs % vi.sbi.blksz) = .ok (m', totalLength pre, q, full) ∧
      HeadAt vi shown pre e post ofs m' q full ∧ m'.compressedblks = 0 := by
  have hb := vi.sbi.blksz_pos
  have hpow : 2 ^ vi.zLogicalClusterbits = vi.sbi.blksz := by rw [hf.lclusterbits]; rfl
  obtain ⟨m₀, hload, hlcn, htype, hofs, hpblk, hc⟩ := hf.head .init false
  have hle : totalLength pre % vi.sbi.blksz ≤ ofs % vi.sbi.blksz := by
    have h₁ := Nat.div_add_mod (totalLength pre) vi.sbi.blksz
    have h₂ := Nat.div_add_mod ofs vi.sbi.blksz
    rw [hi] at h₂
    omega
  have hmap := @zErofsMapHead_of_ge vi blk _ _ (htype ▸ e.headtype_cases)
    (show m₀.clusterofs ≤ ofs % vi.sbi.blksz by rwa [hofs])
  rw [hlcn, hofs, hf.addr, hpow] at hmap
  refine ⟨m₀, _, _, false, by rwa [hi], hmap, ⟨rfl, htype, hpblk, Or.inl hc, ?_, ?_, ?_, ?_,
    by simp⟩, hc⟩
  · have hnext := lt_next_cluster hb ofs
    rw [hi] at hnext
    have hsize := hf.end_le
    split_ifs <;> omega
  · rw [hi]
    split_ifs <;> omega
  · have := Nat.div_mul_le_self (totalLength pre) vi.sbi.blksz
    rw [Nat.succ_mul]
    right
    split_ifs <;> omega
  · intro hend
    by_cases hne : post = []
    · have hinl : vi.zAdvise.inlinePcluster = true := by simpa [hne] using hend
      have hsize : vi.iSize = totalLength pre + e.length := by
        rw [hf.size, totalLength_append, hne, totalLength_cons, totalLength_nil, Nat.add_zero]
      simp only [hinl, true_and]
      split_ifs <;> omega
    · have hs := (spans_append hf.spans).2.2.1 hne
      rw [Nat.zero_add] at hs
      have hdiv := div_add_extentSpan hb (totalLength pre) e
      have hspan := extentSpan_pos hb hs
      have := Nat.mul_le_of_le_div vi.sbi.blksz (totalLength pre / vi.sbi.blksz + 1)
        (totalLength pre + e.length) (by omega)
      split_ifs <;> omega

/-- The offset lies in a later lcluster that the extent covers to its end. -/
theorem Indexed.mapHead_inner (hf : Indexed vi blk pre e post shown) {ofs i : ℕ}
    (hi : ofs / vi.sbi.blksz = totalLength pre / vi.sbi.blksz + i) (h0 : i ≠ 0)
    (hlt : i < extentSpan vi.sbi.blksz (totalLength pre) e) :
    ∃ m₀ m' q full,
      zErofsLoadClusterFromDisk vi blk .init (ofs / vi.sbi.blksz) false = .ok m₀ ∧
      zErofsMapHead vi blk m₀ (ofs % vi.sbi.blksz) = .ok (m', totalLength pre, q, full) ∧
      HeadAt vi shown pre e post ofs m' q full := by
  have hb := vi.sbi.blksz_pos
  have hpow : 2 ^ vi.zLogicalClusterbits = vi.sbi.blksz := by rw [hf.lclusterbits]; rfl
  obtain ⟨m₀, hload, hlcn, htype, -, hd0, hdi, -, -, hc⟩ := hf.nonhead i h0 hlt .init false
  obtain ⟨m', hback, hlcn', hhead, hpblk, hc'⟩ := hf.lookback (i := i - m₀.delta0)
    (by omega) (m := m₀) (d := m₀.delta0) (by
      have := Nat.zero_le (totalLength pre / vi.sbi.blksz)
      omega)
  have hmap : zErofsMapHead vi blk m₀ (ofs % vi.sbi.blksz) =
      .ok (m', totalLength pre, (ofs / vi.sbi.blksz + 1) * vi.sbi.blksz, false) := by
    rw [zErofsMapHead_of_nonhead htype hback, hlcn, hpow, hi]
  have hend : (ofs / vi.sbi.blksz + 1) * vi.sbi.blksz ≤ totalLength pre + e.length := by
    apply Nat.mul_le_of_le_div
    rw [div_add_extentSpan hb (totalLength pre) e, hi]
    omega
  refine ⟨m₀, m', _, false, by rwa [hi], hmap, hlcn', hhead, hpblk, ?_,
    lt_next_cluster hb ofs, le_rfl, Or.inl hend, fun _ => hend, by simp⟩
  rcases hc' with hc' | hc'
  · rw [hc']
    exact hc
  · exact Or.inr hc'

/-- The offset lies in the lcluster in which the extent ends. -/
theorem Indexed.mapHead_last (hf : Indexed vi blk pre e post shown) {ofs : ℕ}
    (hi : ofs / vi.sbi.blksz = totalLength pre / vi.sbi.blksz +
      extentSpan vi.sbi.blksz (totalLength pre) e)
    (h0 : extentSpan vi.sbi.blksz (totalLength pre) e ≠ 0)
    (hlt : ofs < totalLength pre + e.length) :
    ∃ m₀ m' q full,
      zErofsLoadClusterFromDisk vi blk .init (ofs / vi.sbi.blksz) false = .ok m₀ ∧
      zErofsMapHead vi blk m₀ (ofs % vi.sbi.blksz) = .ok (m', totalLength pre, q, full) ∧
      HeadAt vi shown pre e post ofs m' q full := by
  have hb := vi.sbi.blksz_pos
  have hdiv := div_add_extentSpan hb (totalLength pre) e
  have hmod : ofs % vi.sbi.blksz < (totalLength pre + e.length) % vi.sbi.blksz := by
    have h₁ := Nat.div_add_mod (totalLength pre + e.length) vi.sbi.blksz
    have h₂ := Nat.div_add_mod ofs vi.sbi.blksz
    rw [hi, ← hdiv] at h₂
    omega
  obtain ⟨s, hs, hstart⟩ := slot_after hb hf.spans h0 (Or.inr (by omega))
  obtain ⟨m₀, hload, hlcn, htype, hofs, hc, -⟩ := hf.start _ _ s hs hstart .init false
  have hnn := Nat.zero_le (totalLength pre / vi.sbi.blksz)
  obtain ⟨m', hback, hlcn', hhead, hpblk, hc'⟩ :=
    hf.lookback (i := extentSpan vi.sbi.blksz (totalLength pre) e - 1) (by omega)
      (m := { m₀ with delta0 := 1 }) (d := 1) (by
        change m₀.lcn = _
        omega)
  have hmap : zErofsMapHead vi blk m₀ (ofs % vi.sbi.blksz) =
      .ok (m', totalLength pre, totalLength pre + e.length, true) := by
    rw [zErofsMapHead_of_lt htype (by rwa [hofs]) (by omega) hback, hofs, hlcn, ← hdiv,
      hf.addr]
  refine ⟨m₀, m', _, true, by rwa [hi], hmap, hlcn', hhead, hpblk, ?_, hlt, ?_, Or.inl le_rfl,
    fun _ => le_rfl, fun _ => rfl⟩
  · rcases hc' with hc' | hc'
    · rw [hc']
      exact Or.inl hc
    · exact Or.inr hc'
  · have := lt_next_cluster hb (totalLength pre + e.length)
    rw [hi, ← hdiv]
    exact this.le

/-- The head of an extent is found from every offset inside it. -/
theorem Indexed.mapHead (hf : Indexed vi blk pre e post shown) {ofs : ℕ}
    (hge : totalLength pre ≤ ofs) (hlt : ofs < totalLength pre + e.length) :
    ∃ m₀ m' q full,
      zErofsLoadClusterFromDisk vi blk .init (ofs / vi.sbi.blksz) false = .ok m₀ ∧
      zErofsMapHead vi blk m₀ (ofs % vi.sbi.blksz) = .ok (m', totalLength pre, q, full) ∧
      HeadAt vi shown pre e post ofs m' q full := by
  have hdiv := div_add_extentSpan vi.sbi.blksz_pos (totalLength pre) e
  have hmono : ofs / vi.sbi.blksz ≤ (totalLength pre + e.length) / vi.sbi.blksz :=
    Nat.div_le_div_right hlt.le
  obtain ⟨i, hi⟩ := Nat.exists_eq_add_of_le
    (Nat.div_le_div_right (c := vi.sbi.blksz) hge)
  have hle : i ≤ extentSpan vi.sbi.blksz (totalLength pre) e := by
    have := Nat.zero_le (totalLength pre / vi.sbi.blksz)
    omega
  rcases Nat.eq_zero_or_pos i with h0 | h0
  · obtain ⟨m₀, m', q, full, hload, hhead, hm, -⟩ :=
      hf.mapHead_first hge hlt (by rw [hi, h0, Nat.add_zero])
    exact ⟨m₀, m', q, full, hload, hhead, hm⟩
  rcases Nat.lt_or_eq_of_le hle with hlt' | heq
  · exact hf.mapHead_inner hi (by omega) hlt'
  · exact hf.mapHead_last (by rw [hi, heq]) (by omega) hlt

end Indexed

end ErofsUtils
