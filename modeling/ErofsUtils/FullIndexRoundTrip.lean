import ErofsUtils.FullIndexMap

/-!
# The FULL index round trip

The extents of a file are written as indexes and every offset is mapped back to the extent
that contains it, with its blocks. An extent whose data is inlined behind the indexes or
packed as a fragment has no blocks of its own and is only found. The one thing the format
does not carry is a pcluster of `Z_EROFS_LI_D0_CBLKCNT` blocks: its count is stored as the
bare marker bit, which the mapper rejects.
-/

namespace ErofsUtils
open ByteMemory

structure BuiltExtent (vi : Inode) (e : InmemExtent) : Prop where
  blkaddr_lt : e.blkaddr < 2 ^ 32
  cblks_pos : 1 ≤ e.compressedblks
  saves : e.raw = false → e.compressedblks * vi.sbi.blksz < e.length
  cblks_le : e.raw = false → e.compressedblks * vi.sbi.blksz ≤ pclusterMaxSize
  single : e.raw = false → vi.sbi.bigPcluster = false → e.compressedblks = 1
  raw_length : e.raw = true → e.length ≤ vi.sbi.blksz
  raw_cblks : e.raw = true → e.compressedblks = 1

/-- What it guarantees of every extent with blocks at `pos`: they may be those of an earlier extent
whose data it shares, and it may be shorter than what they hold. -/
structure LaidExtent (vi : Inode) (pos : ℕ) (e : InmemExtent) : Prop where
  cblks_pos : 1 ≤ e.compressedblks
  cblks_le : e.raw = false → e.compressedblks * vi.sbi.blksz ≤ pclusterMaxSize
  single : e.raw = false → vi.sbi.bigPcluster = false → e.compressedblks = 1
  covers : e.raw = false → vi.sbi.blksz ≤ e.length
  two : e.raw = false → 1 < e.compressedblks →
    2 * vi.sbi.blksz ≤ pos % vi.sbi.blksz + e.length
  raw_length : e.raw = true → e.length ≤ vi.sbi.blksz
  raw_cblks : e.raw = true → e.compressedblks = 1

/-- The last extent is stored in blocks like the others. -/
def OrdinaryTail (vi : Inode) : Prop :=
  vi.zAdvise.inlinePcluster = false ∧ vi.zAdvise.fragmentPcluster = false

/-- The extent of a split `pre ++ e :: post` has blocks of its own. -/
def HasBlocks (vi : Inode) (post : List InmemExtent) : Prop := post ≠ [] ∨ OrdinaryTail vi

/-- A file as the extent builder leaves it. Without an ordinary tail, the inode knows the
lcluster of the last extent's head, and inlined raw data is held as a whole. -/
structure BuiltFile (vi : Inode) (es : List InmemExtent) : Prop where
  extents : ∀ pre e post, es = pre ++ e :: post → HasBlocks vi post → BuiltExtent vi e
  headlcn : ∀ pre e, es = pre ++ [e] → ¬ OrdinaryTail vi →
    vi.zTailextentHeadlcn = totalLength pre / vi.sbi.blksz
  rawTail : ∀ pre e, es = pre ++ [e] → ¬ OrdinaryTail vi → e.raw = true →
    vi.zAdvise.inlinePcluster = true ∧ e.length ≤ vi.idataSize

structure LaidFile (vi : Inode) (es : List InmemExtent) : Prop where
  extents : ∀ pre e post, es = pre ++ e :: post → HasBlocks vi post →
    LaidExtent vi (totalLength pre) e
  headlcn : ∀ pre e, es = pre ++ [e] → ¬ OrdinaryTail vi →
    vi.zTailextentHeadlcn = totalLength pre / vi.sbi.blksz
  rawTail : ∀ pre e, es = pre ++ [e] → ¬ OrdinaryTail vi → e.raw = true →
    vi.zAdvise.inlinePcluster = true ∧ e.length ≤ vi.idataSize

/-- What a lookup of `ofs` inside the extent `e` of `pre ++ e :: post` must return. -/
structure MapsInto (vi : Inode) (pre : List InmemExtent) (e : InmemExtent)
    (post : List InmemExtent) (ofs : ℕ) (map : MapBlocks) : Prop where
  la : map.mLa = totalLength pre
  la_le : map.mLa ≤ ofs
  lt : ofs < map.mLa + map.mLlen
  le_end : post ≠ [] → map.mLa + map.mLlen ≤ totalLength pre + e.length
  le_eof : map.mLa + map.mLlen ≤ roundUp vi.iSize vi.sbi.blksz
  formatEq : map.mAlgorithmformat = mapFormat vi e.headtype
  format : map.mAlgorithmformat = .shifted ∨ map.mAlgorithmformat = .interlaced ↔ e.raw = true
  mapped : map.mFlags.mapped = true
  full : map.mFlags.fullMapped = true →
    map.mLa + map.mLlen = totalLength pre + e.length
  blocks : HasBlocks vi post → map.mPa = e.blkaddr * vi.sbi.blksz ∧
    map.mPlen = e.compressedblks * vi.sbi.blksz ∧ map.mFlags.fragment = false
  tail : ¬ HasBlocks vi post → map.mFlags.inMeta = true ∨ map.mFlags.fragment = true

def MapsEveryOffset (vi : Inode) (blk : BlkRead) (es : List InmemExtent) : Prop :=
  ∀ pre e post, es = pre ++ e :: post →
    ∀ ofs, totalLength pre ≤ ofs → ofs < totalLength pre + e.length →
      ∀ map : MapBlocks, map.mLa = ofs →
        ∃ map', zErofsDoMapBlocks vi blk map {} = .ok (vi, map') ∧
          MapsInto vi pre e post ofs map'

/-- No compressed extent has a block count that its index shows as the bare marker. -/
def CountsFit (vi : Inode) (es : List InmemExtent) : Prop :=
  ∀ pre e post, es = pre ++ e :: post → HasBlocks vi post → e.raw = false →
    e.compressedblks ≠ d0Cblkcnt

/-- The slot behind the head of a compressed extent shows its block count: the count is not the
bare marker, and an extent of one lcluster does not end the file together with that lcluster. -/
def CountReadable (vi : Inode) (pre : List InmemExtent) (e : InmemExtent)
    (post : List InmemExtent) : Prop :=
  e.raw = false → vi.sbi.bigPcluster = true → e.compressedblks ≠ d0Cblkcnt ∧
    (extentSpan vi.sbi.blksz (totalLength pre) e = 1 →
      post ≠ [] ∨ (totalLength pre + e.length) % vi.sbi.blksz ≠ 0)

section Extent

variable {vi : Inode} {blk : BlkRead} {pre post : List InmemExtent} {e : InmemExtent}
  {m : Maprecorder} {ofs q : ℕ} {full : Bool}

theorem BuiltExtent.laid (hb : BuiltExtent vi e) (pos : ℕ) : LaidExtent vi pos e where
  cblks_pos := hb.cblks_pos
  cblks_le := hb.cblks_le
  single := hb.single
  covers := by
    intro hraw
    have hsave := hb.saves hraw
    have hle : 1 * vi.sbi.blksz ≤ e.compressedblks * vi.sbi.blksz :=
      Nat.mul_le_mul_right _ hb.cblks_pos
    omega
  two := by
    intro hraw htwo
    have hsave := hb.saves hraw
    have hle : 2 * vi.sbi.blksz ≤ e.compressedblks * vi.sbi.blksz :=
      Nat.mul_le_mul_right _ htwo
    omega
  raw_length := hb.raw_length
  raw_cblks := hb.raw_cblks

theorem BuiltFile.laid {es : List InmemExtent} (hbf : BuiltFile vi es) : LaidFile vi es where
  extents := fun pre e post hes hblocks => (hbf.extents pre e post hes hblocks).laid _
  headlcn := hbf.headlcn
  rawTail := hbf.rawTail

section Laid

variable {pos : ℕ}

theorem LaidExtent.cblks_le_d0Cblkcnt (hb : LaidExtent vi pos e) (h9 : 9 ≤ vi.sbi.blkszbits)
    (hraw : e.raw = false) : e.compressedblks ≤ d0Cblkcnt := by
  have hsz : 2 ^ 9 ≤ vi.sbi.blksz := Nat.pow_le_pow_right (by decide) h9
  have hmul := Nat.mul_le_mul_left e.compressedblks hsz
  have hmax := hb.cblks_le hraw
  unfold d0Cblkcnt
  unfold pclusterMaxSize at hmax
  omega

/-- A compressed extent reaches the end of its first lcluster. -/
theorem LaidExtent.span_pos (hb : LaidExtent vi pos e) (hraw : e.raw = false) :
    0 < extentSpan vi.sbi.blksz pos e := by
  have hcover := hb.covers hraw
  exact extentSpan_pos vi.sbi.blksz_pos (by omega)

/-- A compressed extent of several blocks covers the lcluster behind its head. -/
theorem LaidExtent.two_le_span (hb : LaidExtent vi pos e) (hraw : e.raw = false)
    (htwo : 1 < e.compressedblks) : 2 ≤ extentSpan vi.sbi.blksz pos e :=
  (Nat.le_div_iff_mul_le vi.sbi.blksz_pos).mpr (hb.two hraw htwo)

theorem LaidExtent.cblks_of_span_one (hb : LaidExtent vi pos e) (hraw : e.raw = false)
    (h1 : extentSpan vi.sbi.blksz pos e = 1) : e.compressedblks = 1 := by
  by_contra hne
  have hpos := hb.cblks_pos
  have htwo := hb.two_le_span hraw (by omega)
  omega

end Laid

/-- A compressed extent with blocks of its own that only reaches the end of one lcluster goes on
behind that lcluster. -/
theorem BuiltExtent.mod_ne_of_span_one (hb : BuiltExtent vi e) (hraw : e.raw = false) {pos : ℕ}
    (h1 : extentSpan vi.sbi.blksz pos e = 1) : (pos + e.length) % vi.sbi.blksz ≠ 0 := by
  have hpos := vi.sbi.blksz_pos
  have hlen : pos % vi.sbi.blksz + e.length < 2 * vi.sbi.blksz := by
    have := Nat.lt_mul_of_div_lt (show extentSpan vi.sbi.blksz pos e < 2 by omega) hpos
    omega
  have hsave := hb.saves hraw
  rw [(hb.laid pos).cblks_of_span_one hraw h1, Nat.one_mul] at hsave
  rw [← Nat.mod_add_mod, Nat.mod_eq_sub_mod (by omega), Nat.mod_eq_of_lt (by omega)]
  omega

theorem BuiltExtent.countReadable (hb : BuiltExtent vi e)
    (hfit : e.raw = false → e.compressedblks ≠ d0Cblkcnt) : CountReadable vi pre e post :=
  fun hraw _ => ⟨hfit hraw, fun h1 => Or.inr (hb.mod_ne_of_span_one hraw h1)⟩

theorem HeadAt.addr (hm : HeadFound vi pre e post ofs m q full) (hb : BuiltExtent vi e) :
    m.pblk = e.blkaddr := by
  have hne : e.compressedblks ≠ 0 := by
    have := hb.cblks_pos
    omega
  rw [hm.pblk, InmemExtent.headBlkaddr, if_neg (fun h => hne h.2), u32_of_lt hb.blkaddr_lt]

variable {shown : Shown}

theorem Indexed.load_cblkcnt (hf : Indexed vi blk pre e post shown)
    (hbig : vi.sbi.bigPcluster = true)
    (hspan : 2 ≤ extentSpan vi.sbi.blksz (totalLength pre) e) (m : Maprecorder) :
    ∃ m', zErofsLoadClusterFromDisk vi blk m (totalLength pre / vi.sbi.blksz + 1) false =
        .ok m' ∧ m'.lcn = totalLength pre / vi.sbi.blksz + 1 ∧ m'.type = .nonhead ∧
      m'.delta0 = 1 ∧ m'.compressedblks = storedCblkcnt e.compressedblks ∧
      m'.headtype = m.headtype := by
  obtain ⟨m', hload, hlcn, htype, -, -, -, hkeep, hcount, -⟩ :=
    hf.nonhead 1 Nat.one_ne_zero (by omega) m false
  obtain ⟨hd0, hc⟩ := hcount rfl hbig
  exact ⟨m', hload, hlcn, htype, hd0, hc, hkeep⟩

/-- The length query of an extent whose count is readable: it finds the count behind the head,
or takes the one that the way to the head has shown. -/
theorem Indexed.compressedlen_ok (hf : Indexed vi blk pre e post shown)
    (hb : LaidExtent vi (totalLength pre) e) (hm : HeadAt vi shown pre e post ofs m q full)
    (hfit : CountReadable vi pre e post) :
    ∃ m' c, zErofsGetExtentCompressedlen vi blk m = .ok (m', c * vi.sbi.blksz) ∧
      m'.headtype = e.headtype ∧
      (m'.lcn = totalLength pre / vi.sbi.blksz ∨ m'.lcn = totalLength pre / vi.sbi.blksz + 1) ∧
      (c = e.compressedblks ∨ e.raw = false ∧ c ≠ 0 ∧ shown.count (totalLength pre) e c) := by
  have hpow : 2 ^ vi.zLogicalClusterbits = vi.sbi.blksz := hf.pow_lclusterbits
  unfold zErofsGetExtentCompressedlen
  simp only
  by_cases hplain : m.headtype = .plain ∨ ¬ vi.zAdvise.bigPcluster1 = true
  · have hone : e.compressedblks = 1 := by
      cases hraw : e.raw with
      | true => exact hb.raw_cblks hraw
      | false =>
          have hh : m.headtype ≠ .plain := by simp [hm.headtype, InmemExtent.headtype, hraw]
          have hnb := hplain.resolve_left hh
          rw [hf.big] at hnb
          exact hb.single hraw (by simpa using hnb)
    rw [if_pos hplain, hpow]
    exact ⟨m, 1, by rw [Nat.one_mul], hm.headtype, Or.inl hm.lcn, Or.inl hone.symm⟩
  · obtain ⟨hhead, hbig⟩ := not_or.mp hplain
    have hraw : e.raw = false := by
      by_contra hne
      simp [hm.headtype, InmemExtent.headtype, hne] at hhead
    have hbig : vi.sbi.bigPcluster = true := by rw [← hf.big]; simpa using hbig
    obtain ⟨hne, hend⟩ := hfit hraw hbig
    have hstored := storedCblkcnt_of_lt
      (lt_of_le_of_ne (hb.cblks_le_d0Cblkcnt hf.blksz_ge hraw) hne)
    have hcne : e.compressedblks ≠ 0 := by
      have := hb.cblks_pos
      omega
    rw [if_neg hplain]
    by_cases hzero : m.compressedblks = 0
    · rw [if_neg (not_not.mpr hzero), hm.lcn]
      rcases Nat.lt_or_ge (extentSpan vi.sbi.blksz (totalLength pre) e) 2 with h2 | h2
      · have h1 : extentSpan vi.sbi.blksz (totalLength pre) e = 1 := by
          have := hb.span_pos hraw
          omega
        obtain ⟨s, hs, hstart⟩ := slot_after vi.sbi.blksz_pos hf.spans (by omega) (hend h1)
        rw [h1] at hs
        obtain ⟨m', hload, hlcn, htype, -, -, hkeep⟩ := hf.start _ _ s hs hstart m false
        rw [hload, hf.lclusterbits, Nat.sub_self, pow_zero]
        refine ⟨{ m' with compressedblks := 1 }, 1, ?_, hkeep.trans hm.headtype, Or.inr hlcn,
          Or.inl (hb.cblks_of_span_one hraw h1).symm⟩
        rcases htype with ht | ht <;> simp [ht, SbInfo.blksz]
      · obtain ⟨m', hload, hlcn, htype, hd0, hc, hkeep⟩ := hf.load_cblkcnt hbig h2 m
        rw [hload]
        refine ⟨m', e.compressedblks, ?_, hkeep.trans hm.headtype, Or.inr hlcn, Or.inl rfl⟩
        simp [htype, hd0, hc, hstored, hcne, SbInfo.blksz]
    · rw [if_pos hzero]
      exact ⟨m, m.compressedblks, rfl, hm.headtype, Or.inl hm.lcn,
        Or.inr ⟨hraw, hzero, hm.cblks.resolve_left hzero⟩⟩

/-- The length of a pcluster whose count its index can carry. -/
theorem Indexed.compressedlen (hf : Indexed vi blk pre e post (.written vi))
    (hb : BuiltExtent vi e) (hm : HeadFound vi pre e post ofs m q full)
    (hfit : e.raw = false → e.compressedblks ≠ d0Cblkcnt) :
    ∃ m', zErofsGetExtentCompressedlen vi blk m =
        .ok (m', e.compressedblks * vi.sbi.blksz) ∧ m'.headtype = e.headtype ∧
      (m'.lcn = totalLength pre / vi.sbi.blksz ∨
        m'.lcn = totalLength pre / vi.sbi.blksz + 1) := by
  have hlaid := hb.laid (totalLength pre)
  obtain ⟨m', c, hlen, hkeep, hlcn, hc⟩ := hf.compressedlen_ok hlaid hm (hb.countReadable hfit)
  suffices hce : c = e.compressedblks by exact ⟨m', hce ▸ hlen, hkeep, hlcn⟩
  rcases hc with hc | ⟨hraw, -, -, -, hrec⟩
  · exact hc
  · rw [hrec, storedCblkcnt_of_lt
      (lt_of_le_of_ne (hlaid.cblks_le_d0Cblkcnt hf.blksz_ge hraw) (hfit hraw))]

/-- A count that is only the marker bit is read back as none. -/
theorem Indexed.compressedlen_error (hf : Indexed vi blk pre e post shown)
    (hb : LaidExtent vi (totalLength pre) e) (hm : HeadAt vi shown pre e post ofs m q full)
    (hzero : m.compressedblks = 0) (hraw : e.raw = false)
    (hcount : e.compressedblks = d0Cblkcnt) :
    zErofsGetExtentCompressedlen vi blk m = .error .efscorrupted := by
  have hbig : vi.sbi.bigPcluster = true := by
    by_contra hne
    have := hb.single hraw (by simpa using hne)
    rw [hcount] at this
    exact absurd this (by decide)
  have hspan := hb.two_le_span hraw (by rw [hcount]; decide)
  obtain ⟨m', hload, -, htype, hd0, hc, -⟩ := hf.load_cblkcnt hbig hspan m
  rw [hcount, storedCblkcnt_d0Cblkcnt] at hc
  have hhead : ¬ (m.headtype = .plain ∨ ¬ vi.zAdvise.bigPcluster1 = true) := by
    simp [hm.headtype, InmemExtent.headtype, hraw, hf.big, hbig]
  unfold zErofsGetExtentCompressedlen
  simp only
  rw [if_neg hhead, if_neg (by simpa using hzero), hm.lcn, hload]
  simp [htype, hd0, hc]

end Extent

/-- The mapping once the head of the extent is known. -/
def headMap (map : MapBlocks) (m : Maprecorder) (la q : ℕ) (full : Bool) : MapBlocks :=
  { map with
    mLa := la, mLlen := sub64 q la
    mFlags := { mapped := true, encoded := true, fullMapped := full,
                partialRef := m.partialref } }

theorem zErofsDoMapBlocks_of_head {vi : Inode} {blk : BlkRead} {map : MapBlocks}
    {m₀ m : Maprecorder} {la q : ℕ} {full : Bool}
    (hload : zErofsLoadClusterFromDisk vi blk .init (map.mLa / 2 ^ vi.zLogicalClusterbits)
      false = .ok m₀)
    (hhead : zErofsMapHead vi blk m₀ (map.mLa % 2 ^ vi.zLogicalClusterbits) =
      .ok (m, la, q, full)) :
    zErofsDoMapBlocks vi blk map {} =
      match zErofsMapPcluster vi blk m (headMap map m la q full) with
      | .error e => .error e
      | .ok (m, map) =>
        if m.headtype = .plain ∧ map.mPlen < map.mLlen then .error .efscorrupted
        else .ok (vi, { map with mAlgorithmformat := mapFormat vi m.headtype }) := by
  unfold zErofsDoMapBlocks
  simp only [Bool.false_eq_true, and_false, if_false, hload, hhead]
  rfl

theorem mapFormat_headtype (vi : Inode) (e : InmemExtent) :
    mapFormat vi e.headtype = .shifted ∨ mapFormat vi e.headtype = .interlaced ↔
      e.raw = true := by
  unfold mapFormat InmemExtent.headtype
  cases e.raw <;> cases vi.zAdvise.interlacedPcluster <;> simp

section Lookup

variable {vi : Inode} {blk : BlkRead} {pre post : List InmemExtent} {e : InmemExtent}
  {shown : Shown} {m : Maprecorder} {ofs q : ℕ} {full : Bool}

theorem Indexed.cluster_le_eof (hf : Indexed vi blk pre e post shown)
    (hlt : ofs < totalLength pre + e.length) :
    (ofs / vi.sbi.blksz + 1) * vi.sbi.blksz ≤ roundUp vi.iSize vi.sbi.blksz := by
  have hb := vi.sbi.blksz_pos
  have hend := hf.end_le
  apply Nat.mul_le_mul_right
  rw [← Nat.add_div_right _ hb]
  exact Nat.div_le_div_right (by omega)

theorem Indexed.sub64_llen (hf : Indexed vi blk pre e post shown)
    (hm : HeadAt vi shown pre e post ofs m q full) (hge : totalLength pre ≤ ofs)
    (hlt : ofs < totalLength pre + e.length) :
    sub64 q (totalLength pre) = q - totalLength pre := by
  have hq := hm.lt
  have hsize := hf.size_lt
  have hend := hf.end_le
  have hcl := hm.le_cluster
  have hmul := Nat.div_mul_le_self ofs vi.sbi.blksz
  have hsz := hf.blksz_le_u16
  rw [Nat.succ_mul] at hcl
  exact sub64_of_le (by omega) (by omega)

/-- The parts of the answer that do not depend on how the extent is stored. -/
theorem Indexed.mapsInto (hf : Indexed vi blk pre e post (.written vi))
    (hm : HeadFound vi pre e post ofs m q full) (hge : totalLength pre ≤ ofs)
    (hlt : ofs < totalLength pre + e.length) (map : MapBlocks) {map' : MapBlocks}
    (hla : map'.mLa = (headMap map m (totalLength pre) q full).mLa)
    (hllen : map'.mLlen = (headMap map m (totalLength pre) q full).mLlen)
    (hformat : map'.mAlgorithmformat = mapFormat vi e.headtype)
    (hmapped : map'.mFlags.mapped = true) (hfull : map'.mFlags.fullMapped = full)
    (hblocks : HasBlocks vi post → map'.mPa = e.blkaddr * vi.sbi.blksz ∧
      map'.mPlen = e.compressedblks * vi.sbi.blksz ∧ map'.mFlags.fragment = false)
    (htail : ¬ HasBlocks vi post → map'.mFlags.inMeta = true ∨ map'.mFlags.fragment = true) :
    MapsInto vi pre e post ofs map' := by
  have hq := hm.lt
  have hsum : map'.mLa + map'.mLlen = q := by
    rw [hla, hllen]
    simp only [headMap, hf.sub64_llen hm hge hlt]
    omega
  refine ⟨hla, ?_, ?_, ?_, ?_, hformat, ?_, hmapped, ?_, hblocks, htail⟩
  · rw [hla]
    exact hge
  · rwa [hsum]
  · intro hne
    rw [hsum]
    exact hm.le_end (Or.inl hne)
  · rw [hsum]
    exact hm.le_cluster.trans (hf.cluster_le_eof hlt)
  · rw [hformat]
    exact mapFormat_headtype vi e
  · intro h
    rw [hsum]
    exact hm.full_eq (hfull ▸ h)

/-- The head of an extent in front of the tail is not taken for the tail's head. -/
theorem Indexed.not_tail (hf : Indexed vi blk pre e post shown)
    (hbf : LaidFile vi (pre ++ e :: post)) (hblocks : HasBlocks vi post)
    (hm : HeadAt vi shown pre e post ofs m q full) (b : Bool)
    (hadv : b = vi.zAdvise.inlinePcluster ∨ b = vi.zAdvise.fragmentPcluster) :
    ¬ (b = true ∧ m.lcn = vi.zTailextentHeadlcn) := by
  rintro ⟨hb, hlcn⟩
  have hord : ¬ OrdinaryTail vi := by
    rintro ⟨h₁, h₂⟩
    rcases hadv with h | h <;> simp [h, h₁, h₂] at hb
  have hne : post ≠ [] := hblocks.resolve_right hord
  have hhead := hbf.headlcn (pre ++ e :: post.dropLast) (post.getLast hne)
    (by rw [List.append_assoc, List.cons_append, List.dropLast_append_getLast]) hord
  have hs := (spans_append hf.spans).2.2.1 hne
  rw [Nat.zero_add] at hs
  have hspan := extentSpan_pos vi.sbi.blksz_pos hs
  have hdiv := div_add_extentSpan vi.sbi.blksz_pos (totalLength pre) e
  have hmono : (totalLength pre + e.length) / vi.sbi.blksz ≤
      totalLength (pre ++ e :: post.dropLast) / vi.sbi.blksz := by
    apply Nat.div_le_div_right
    rw [totalLength_append, totalLength_cons]
    omega
  rw [hm.lcn, hhead] at hlcn
  omega

theorem Indexed.mapPcluster (hf : Indexed vi blk pre e post shown)
    (hbf : LaidFile vi (pre ++ e :: post)) (hblocks : HasBlocks vi post)
    (hm : HeadAt vi shown pre e post ofs m q full) (map : MapBlocks) :
    zErofsMapPcluster vi blk m map =
      match zErofsGetExtentCompressedlen vi blk m with
      | .error e => .error e
      | .ok (m', plen) => .ok (m', { map with mPa := vi.sbi.pos m.pblk, mPlen := plen }) := by
  have hinline := hf.not_tail hbf hblocks hm vi.zAdvise.inlinePcluster (Or.inl rfl)
  have hfragment := hf.not_tail hbf hblocks hm vi.zAdvise.fragmentPcluster (Or.inr rfl)
  unfold zErofsMapPcluster
  exact (if_neg hinline).trans (if_neg hfragment)

theorem Indexed.lookup_blocks (hf : Indexed vi blk pre e post (.written vi))
    (hbf : BuiltFile vi (pre ++ e :: post)) (hblocks : HasBlocks vi post)
    (hfit : e.raw = false → e.compressedblks ≠ d0Cblkcnt)
    (hge : totalLength pre ≤ ofs) (hlt : ofs < totalLength pre + e.length) (map : MapBlocks)
    (hmap : map.mLa = ofs) :
    ∃ map', zErofsDoMapBlocks vi blk map {} = .ok (vi, map') ∧
      MapsInto vi pre e post ofs map' := by
  have hpow : 2 ^ vi.zLogicalClusterbits = vi.sbi.blksz := hf.pow_lclusterbits
  have hb := hbf.extents pre e post rfl hblocks
  obtain ⟨m₀, m, q, full, hload, hhead, hm⟩ := hf.mapHead hge hlt
  obtain ⟨m', hlen, hkeep, -⟩ := hf.compressedlen hb hm hfit
  rw [zErofsDoMapBlocks_of_head (by rwa [hpow, hmap]) (by rwa [hpow, hmap]),
    hf.mapPcluster hbf.laid hblocks hm, hlen]
  simp only
  have hraw : ¬ (m'.headtype = .plain ∧ e.compressedblks * vi.sbi.blksz <
      (headMap map m (totalLength pre) q full).mLlen) := by
    rintro ⟨hplain, hlong⟩
    have hr : e.raw = true := by
      by_contra hne
      simp [hkeep, InmemExtent.headtype, hne] at hplain
    have hl := hb.raw_length hr
    have hq := hm.le_extent
    simp only [hb.raw_cblks hr, Nat.one_mul, headMap, hf.sub64_llen hm hge hlt] at hlong
    omega
  rw [if_neg hraw]
  refine ⟨_, rfl, hf.mapsInto hm hge hlt map rfl rfl ?_ rfl rfl ?_ ?_⟩
  · rw [hkeep]
  · exact fun _ => ⟨by rw [hm.addr hb, SbInfo.pos], rfl, rfl⟩
  · exact fun h => absurd hblocks h

/-- A lookup inside a last extent that is inlined or packed as a fragment. -/
theorem Indexed.lookup_tail (hf : Indexed vi blk pre e post (.written vi))
    (hbf : BuiltFile vi (pre ++ e :: post)) (hblocks : ¬ HasBlocks vi post)
    (hge : totalLength pre ≤ ofs) (hlt : ofs < totalLength pre + e.length) (map : MapBlocks)
    (hmap : map.mLa = ofs) :
    ∃ map', zErofsDoMapBlocks vi blk map {} = .ok (vi, map') ∧
      MapsInto vi pre e post ofs map' := by
  have hpow : 2 ^ vi.zLogicalClusterbits = vi.sbi.blksz := hf.pow_lclusterbits
  obtain ⟨hnil, hord⟩ := not_or.mp hblocks
  obtain rfl : post = [] := not_not.mp hnil
  obtain ⟨m₀, m, q, full, hload, hhead, hm⟩ := hf.mapHead hge hlt
  have hlcn : m.lcn = vi.zTailextentHeadlcn := by rw [hm.lcn, hbf.headlcn pre e rfl hord]
  rw [zErofsDoMapBlocks_of_head (by rwa [hpow, hmap]) (by rwa [hpow, hmap])]
  unfold zErofsMapPcluster
  cases hinl : vi.zAdvise.inlinePcluster with
  | true =>
      rw [if_pos ⟨rfl, hlcn⟩]
      simp only
      have hraw : ¬ (m.headtype = .plain ∧
          vi.idataSize < (headMap map m (totalLength pre) q full).mLlen) := by
        rintro ⟨hplain, hlong⟩
        have hr : e.raw = true := by
          by_contra hne
          simp [hm.headtype, InmemExtent.headtype, hne] at hplain
        have hl := (hbf.rawTail pre e rfl hord hr).2
        have hq := hm.le_end (Or.inr hinl)
        simp only [headMap, hf.sub64_llen hm hge hlt] at hlong
        omega
      rw [if_neg hraw]
      refine ⟨_, rfl, hf.mapsInto hm hge hlt map rfl rfl ?_ rfl rfl
        (fun h => absurd h hblocks) (fun _ => Or.inl rfl)⟩
      rw [hm.headtype]
  | false =>
      have hfrag : vi.zAdvise.fragmentPcluster = true := by
        by_contra hne
        exact hord ⟨hinl, by simpa using hne⟩
      have hhead1 : m.headtype ≠ .plain := by
        intro hplain
        have hr : e.raw = true := by
          by_contra hne
          simp [hm.headtype, InmemExtent.headtype, hne] at hplain
        have := (hbf.rawTail pre e rfl hord hr).1
        rw [hinl] at this
        cases this
      rw [if_neg (by simp), if_pos ⟨hfrag, hlcn⟩]
      simp only
      rw [if_neg (fun h => hhead1 h.1)]
      refine ⟨_, rfl, hf.mapsInto hm hge hlt map rfl rfl ?_ rfl rfl
        (fun h => absurd h hblocks) (fun _ => Or.inr rfl)⟩
      rw [hm.headtype]

/-- A lookup that meets the bare marker fails. -/
theorem Indexed.lookup_error (hf : Indexed vi blk pre e post (.written vi))
    (hbf : BuiltFile vi (pre ++ e :: post)) (hblocks : HasBlocks vi post)
    (hraw : e.raw = false) (hcount : e.compressedblks = d0Cblkcnt)
    (hge : totalLength pre ≤ ofs) (hlt : ofs < totalLength pre + e.length) (map : MapBlocks)
    (hmap : map.mLa = ofs) :
    zErofsDoMapBlocks vi blk map {} = .error .efscorrupted := by
  have hpow : 2 ^ vi.zLogicalClusterbits = vi.sbi.blksz := hf.pow_lclusterbits
  have hb := hbf.extents pre e post rfl hblocks
  obtain ⟨m₀, m, q, full, hload, hhead, hm⟩ := hf.mapHead hge hlt
  have hzero : m.compressedblks = 0 := by
    rcases hm.cblks with h | ⟨-, -, h⟩
    · exact h
    · rw [h, hcount, storedCblkcnt_d0Cblkcnt]
  rw [zErofsDoMapBlocks_of_head (by rwa [hpow, hmap]) (by rwa [hpow, hmap]),
    hf.mapPcluster hbf.laid hblocks hm, hf.compressedlen_error (hb.laid _) hm hzero hraw hcount]

end Lookup

theorem FullInode.length_indexes {vi : Inode} {blk : BlkRead} {es : List InmemExtent}
    (hf : FullInode vi blk es) :
    (zErofsWriteIndexes vi es).length = vi.sbi.blkRoundUp vi.iSize := by
  have h := length_fileSlots vi.sbi.blksz_pos hf.spans
  rw [Nat.zero_div, Nat.zero_add, Nat.zero_add] at h
  rw [zErofsWriteIndexes_eq vi hf.spans, List.length_map, h, hf.size]
  rfl

/-- The indexes of a file map every offset back to its extent exactly when no compressed
extent takes `Z_EROFS_LI_D0_CBLKCNT` blocks. -/
theorem fullIndex_roundTrip_iff {vi : Inode} {blk : BlkRead} {es : List InmemExtent}
    (hf : FullInode vi blk es) (hbf : BuiltFile vi es) :
    ((zErofsWriteIndexes vi es).length = vi.sbi.blkRoundUp vi.iSize ∧
      MapsEveryOffset vi blk es) ↔ CountsFit vi es := by
  constructor
  · rintro ⟨-, hmaps⟩ pre e post rfl hblocks hraw hcount
    have hlen : 0 < e.length := (spans_append hf.spans).1
    obtain ⟨map', hok, -⟩ := hmaps pre e post rfl (totalLength pre) le_rfl (by omega)
      { mLa := totalLength pre } rfl
    rw [hf.indexed.lookup_error hbf hblocks hraw hcount le_rfl (by omega) _ rfl] at hok
    cases hok
  · intro hfit
    refine ⟨hf.length_indexes, ?_⟩
    rintro pre e post rfl ofs hge hlt map hmap
    by_cases hblocks : HasBlocks vi post
    · exact hf.indexed.lookup_blocks hbf hblocks (hfit pre e post rfl hblocks) hge hlt map hmap
    · exact hf.indexed.lookup_tail hbf hblocks hge hlt map hmap

section Instances

def deviceOf (sbi : SbInfo) (pos : ℕ) (bs : List UInt8) : BlkRead := fun blk =>
  some fun ofs => store (fun _ => 0) pos bs (sbi.pos blk + ofs)

theorem deviceHolds_deviceOf (sbi : SbInfo) (pos : ℕ) (bs : List UInt8) :
    DeviceHolds sbi (deviceOf sbi pos bs) pos bs := by
  refine ⟨fun _ _ => rfl, ?_⟩
  intro i b hi
  have hpos := sbi.blknr_add_blkoff (pos + i)
  rw [Nat.mul_comm] at hpos
  rw [image, deviceOf]
  simp only [SbInfo.pos, hpos]
  exact holds_store _ pos bs i b hi

/-- An inode without a special tail, for a file of `size` bytes. -/
def plainInode (blkszbits : ℕ) (big : Bool) (size : ℕ) : Inode where
  sbi := ⟨blkszbits, 5, 0, big⟩
  zInited := true
  nid := 36
  iSize := size
  datalayout := .compressedFull
  inodeIsize := 32
  xattrIsize := 0
  zAdvise := ⟨false, big, false, false, false, false⟩
  zAlgorithmtype := 0
  zLogicalClusterbits := blkszbits
  idataSize := 0
  zTailextentHeadlcn := 0
  fragmentoff := 0

def indexDevice (vi : Inode) (es : List InmemExtent) : BlkRead :=
  deviceOf vi.sbi (Inode.fullIndexAlign (vi.iloc + vi.inodeIsize + vi.xattrIsize))
    ((zErofsWriteIndexes vi es).flatMap LclusterIndex.encode)

theorem fullInode_plainInode {blkszbits : ℕ} {big : Bool} {es : List InmemExtent}
    (h9 : 9 ≤ blkszbits) (h16 : blkszbits ≤ 16) (hlt : totalLength es < 2 ^ 32)
    (hs : Spans (2 ^ blkszbits) 0 es) :
    FullInode (plainInode blkszbits big (totalLength es))
      (indexDevice (plainInode blkszbits big (totalLength es)) es) es := by
  have h512 : 2 ^ 9 ≤ 2 ^ blkszbits := Nat.pow_le_pow_right (by decide) h9
  have hmeta : 8 * ((totalLength es + (2 ^ blkszbits - 1)) / 2 ^ blkszbits) < 2 ^ 32 := by
    have hdiv : (totalLength es + (2 ^ blkszbits - 1)) / 2 ^ blkszbits ≤ totalLength es / 2 ^ 9 + 1 :=
      calc (totalLength es + (2 ^ blkszbits - 1)) / 2 ^ blkszbits
          ≤ (totalLength es + 2 ^ blkszbits) / 2 ^ blkszbits := Nat.div_le_div_right (by omega)
        _ = totalLength es / 2 ^ blkszbits + 1 := Nat.add_div_right _ (Nat.two_pow_pos blkszbits)
        _ ≤ totalLength es / 2 ^ 9 + 1 :=
          Nat.succ_le_succ (Nat.div_le_div_left h512 (Nat.two_pow_pos 9))
    omega
  exact ⟨rfl, h9, h16, rfl, rfl, rfl, lt_trans hlt (by decide), hmeta, hs,
    deviceHolds_deviceOf _ _ _⟩

theorem builtFile_plainInode {blkszbits : ℕ} {big : Bool} {size : ℕ} {es : List InmemExtent}
    (hb : ∀ e ∈ es, BuiltExtent (plainInode blkszbits big size) e) :
    BuiltFile (plainInode blkszbits big size) es := by
  refine ⟨?_, ?_, ?_⟩
  · intro pre e post hes _
    exact hb e (by simp [hes])
  · intro pre e _ hord
    exact absurd ⟨rfl, rfl⟩ hord
  · intro pre e _ hord
    exact absurd ⟨rfl, rfl⟩ hord

/-- One compressed extent whose pcluster has the largest size there is, on 512-byte blocks. -/
def fullPcluster : List InmemExtent := [⟨100, 2048, 2097152, false, false, false⟩]

/-- A pcluster of 2048 blocks is written and no offset of its extent is mapped. -/
theorem fullIndex_roundTrip_fails :
    FullInode (plainInode 9 true (totalLength fullPcluster))
      (indexDevice (plainInode 9 true (totalLength fullPcluster)) fullPcluster)
      fullPcluster ∧
    BuiltFile (plainInode 9 true (totalLength fullPcluster)) fullPcluster ∧
    zErofsDoMapBlocks (plainInode 9 true (totalLength fullPcluster))
      (indexDevice (plainInode 9 true (totalLength fullPcluster)) fullPcluster) {} {} =
        .error .efscorrupted ∧
    ¬ MapsEveryOffset (plainInode 9 true (totalLength fullPcluster))
      (indexDevice (plainInode 9 true (totalLength fullPcluster)) fullPcluster)
      fullPcluster := by
  have hf : FullInode (plainInode 9 true (totalLength fullPcluster))
      (indexDevice (plainInode 9 true (totalLength fullPcluster)) fullPcluster)
      fullPcluster :=
    fullInode_plainInode (by decide) (by decide) (by decide)
      ⟨by decide, by decide, fun h => absurd rfl h, trivial⟩
  have hbf : BuiltFile (plainInode 9 true (totalLength fullPcluster)) fullPcluster := by
    apply builtFile_plainInode
    intro e he
    obtain rfl := List.mem_singleton.mp he
    exact ⟨by decide, by decide, by decide, by decide, by decide, by decide, by decide⟩
  have herr := @Indexed.lookup_error _ _ [] _ _ _ hf.indexed hbf
    (Or.inr ⟨rfl, rfl⟩) rfl rfl (by decide) (by decide) {} rfl
  refine ⟨hf, hbf, herr, ?_⟩
  intro hmaps
  obtain ⟨map', hok, -⟩ := hmaps [] _ [] rfl 0 (by decide) (by decide) {} rfl
  rw [herr] at hok
  cases hok

/-- A big pcluster that ends inside an lcluster, a raw block, and a tail of one block. -/
def threeExtents : List InmemExtent :=
  [⟨100, 2, 10000, false, false, false⟩, ⟨102, 1, 4096, true, false, false⟩,
    ⟨103, 1, 5000, false, false, false⟩]

theorem fullInode_threeExtents :
    FullInode (plainInode 12 true (totalLength threeExtents))
      (indexDevice (plainInode 12 true (totalLength threeExtents)) threeExtents)
      threeExtents :=
  fullInode_plainInode (by decide) (by decide) (by decide)
    ⟨by decide, by decide, fun _ => by decide, by decide, by decide, fun _ => by decide,
      by decide, by decide, fun h => absurd rfl h, trivial⟩

theorem builtFile_threeExtents :
    BuiltFile (plainInode 12 true (totalLength threeExtents)) threeExtents := by
  apply builtFile_plainInode
  intro e he
  simp only [threeExtents, List.mem_cons, List.not_mem_nil, or_false] at he
  rcases he with rfl | rfl | rfl <;>
    exact ⟨by decide, by decide, by decide, by decide, by decide, by decide, by decide⟩

theorem countsFit_threeExtents :
    CountsFit (plainInode 12 true (totalLength threeExtents)) threeExtents := by
  intro pre e post hes _ _
  have he : e ∈ threeExtents := by simp [hes]
  simp only [threeExtents, List.mem_cons, List.not_mem_nil, or_false] at he
  rcases he with rfl | rfl | rfl <;> decide

theorem fullIndex_roundTrip_threeExtents :
    (zErofsWriteIndexes (plainInode 12 true (totalLength threeExtents)) threeExtents).length =
      5 ∧
    MapsEveryOffset (plainInode 12 true (totalLength threeExtents))
      (indexDevice (plainInode 12 true (totalLength threeExtents)) threeExtents)
      threeExtents :=
  (fullIndex_roundTrip_iff fullInode_threeExtents builtFile_threeExtents).mpr
    countsFit_threeExtents

end Instances

end ErofsUtils
