import ErofsUtils.ExtentLookahead

/-!
# Length queries

A query of the whole extent at any offset of a file returns the length of the extent there, in the
FULL layout and in the COMPACT one. Some extents cannot be described by their indexes: those whose
block count is not readable, those of more than `2 ^ 16` lclusters in the FULL layout, and those
whose packs end with a distance that is stored as zero or taken for a block count.
-/

namespace ErofsUtils
open ByteMemory

inductive IndexOn (vi : Inode) (es : List InmemExtent) (blk : BlkRead) : Prop
  | full (hf : FullInode vi blk es)
  | compact {blkaddr isize : ℕ} {mem mem' : Mem} (hf : CompactFile vi blkaddr es)
      (hmem : Holds mem legacyMapHeaderSize
        ((zErofsWriteIndexes vi es).flatMap LclusterIndex.encode))
      (hconv : zErofsConvertToCompactedFormat vi blkaddr
        (legacyMapHeaderSize + 8 * (zErofsWriteIndexes vi es).length) mem = .ok (mem', isize))
      (hdev : DeviceCopies vi.sbi blk vi.ebase mem' 8 (isize - 8))

/-- A length query at any offset of the file returns the length of the extent there. -/
def LengthsExact (vi : Inode) (blk : BlkRead) (es : List InmemExtent) : Prop :=
  ∀ pre e post, es = pre ++ e :: post →
    ∀ ofs, totalLength pre ≤ ofs → ofs < totalLength pre + e.length →
      ∀ map : MapBlocks, map.mLa = ofs →
        ∃ map', zErofsDoMapBlocks vi blk map { fiemap := true } = .ok (vi, map') ∧
          map'.mLa = totalLength pre ∧ map'.mLlen = e.length

def LookaheadFits (vi : Inode) (pre : List InmemExtent) (e : InmemExtent) : Prop :=
  if vi.datalayout = .compressedFull then
    extentSpan vi.sbi.blksz (totalLength pre) e ≤ 2 ^ 16
  else (vi.sbi.bigPcluster = false → ExtentClear vi pre e) ∧ DistancesStored vi pre e

def LengthsFit (vi : Inode) (es : List InmemExtent) : Prop :=
  ∀ pre e post, es = pre ++ e :: post →
    (HasBlocks vi post → CountReadable vi pre e post) ∧ LookaheadFits vi pre e

section Query

variable {vi : Inode} {blk : BlkRead} {es pre post : List InmemExtent} {e : InmemExtent}
  {shown : Shown}

theorem CompactFile.compactDevice {blkaddr isize : ℕ} {mem mem' : Mem}
    (hf : CompactFile vi blkaddr es)
    (hmem : Holds mem legacyMapHeaderSize
      ((zErofsWriteIndexes vi es).flatMap LclusterIndex.encode))
    (hconv : zErofsConvertToCompactedFormat vi blkaddr
      (legacyMapHeaderSize + 8 * (zErofsWriteIndexes vi es).length) mem = .ok (mem', isize))
    (hdev : DeviceCopies vi.sbi blk vi.ebase mem' 8 (isize - 8)) :
    CompactDevice vi blkaddr es blk mem' isize := by
  obtain ⟨mem₁, isize₁, hconv₁, hpacks⟩ := hf.convert hmem
  obtain ⟨rfl, rfl⟩ := Prod.mk.inj (Except.ok.inj (hconv.symm.trans hconv₁))
  exact ⟨hf, hpacks, hdev⟩

/-- Where every slot leads on, queries return the length. -/
theorem Indexed.fiemap_exact (hf : Indexed vi blk pre e post shown)
    (hl : LaidFile vi (pre ++ e :: post))
    (hread : HasBlocks vi post → CountReadable vi pre e post) (hahead : LooksAhead vi blk pre e)
    {ofs : ℕ} (hge : totalLength pre ≤ ofs) (hlt : ofs < totalLength pre + e.length)
    (map : MapBlocks) (hmap : map.mLa = ofs) :
    ∃ map', zErofsDoMapBlocks vi blk map { fiemap := true } = .ok (vi, map') ∧
      map'.mLa = totalLength pre ∧ map'.mLlen = e.length := by
  obtain ⟨m, lcn, map', hlcn, hla, hok⟩ := hf.fiemap hl hread hge hlt map hmap
  rw [hf.decompressedlen hahead m hlcn] at hok
  exact ⟨_, hok, hla, rfl⟩

/-- Where a walk is held back, the query at the start of the extent returns less. -/
theorem Indexed.fiemap_short (hf : Indexed vi blk pre e post shown)
    (hl : LaidFile vi (pre ++ e :: post))
    (hread : HasBlocks vi post → CountReadable vi pre e post) {last : ℕ} (h1 : 1 ≤ last)
    (hlast : last + 1 < extentSpan vi.sbi.blksz (totalLength pre) e)
    (hback : HeldBack vi blk pre last) :
    ∃ map', zErofsDoMapBlocks vi blk { mLa := totalLength pre } { fiemap := true } =
      .ok (vi, map') ∧ map'.mLlen ≠ e.length := by
  have hlen := (spans_append hf.spans).1
  obtain ⟨m, lcn, map', hlcn, -, hok⟩ :=
    hf.fiemap hl hread le_rfl (by omega) { mLa := totalLength pre } rfl
  obtain ⟨m', heq⟩ := hf.decompressedlen_head m hlcn
  obtain ⟨llen, hshort, hwalk⟩ := hf.decompressedlen_short hlast hback Nat.one_ne_zero h1 m'
  rw [heq, hwalk] at hok
  exact ⟨_, hok, hshort.ne⟩

/-- The lookup at the start of an extent finds no count on the way. -/
theorem Indexed.mapHead_start (hf : Indexed vi blk pre e post shown) :
    ∃ m₀ m q full,
      zErofsLoadClusterFromDisk vi blk .init (totalLength pre / 2 ^ vi.zLogicalClusterbits)
        false = .ok m₀ ∧
      zErofsMapHead vi blk m₀ (totalLength pre % 2 ^ vi.zLogicalClusterbits) =
        .ok (m, totalLength pre, q, full) ∧
      HeadAt vi shown pre e post (totalLength pre) m q full ∧ m.compressedblks = 0 := by
  have hlen := (spans_append hf.spans).1
  rw [hf.pow_lclusterbits]
  exact hf.mapHead_first le_rfl (by omega) rfl

theorem Indexed.start_fails (hf : Indexed vi blk pre e post shown)
    (hl : LaidFile vi (pre ++ e :: post)) (hblocks : HasBlocks vi post)
    (herr : ∀ m q full, HeadAt vi shown pre e post (totalLength pre) m q full →
      m.compressedblks = 0 → ∃ err, zErofsGetExtentCompressedlen vi blk m = .error err)
    {flags : GetBlocks} (hflags : flags.findtail = false) :
    ∃ err, zErofsDoMapBlocks vi blk { mLa := totalLength pre } flags = .error err := by
  obtain ⟨m₀, m, q, full, hload, hhead, hm, hzero⟩ := hf.mapHead_start
  obtain ⟨err, hlen⟩ := herr m q full hm hzero
  refine ⟨err, ?_⟩
  unfold zErofsDoMapBlocks
  simp only [hflags, Bool.false_eq_true, and_false, if_false, hload, hhead,
    hf.mapPcluster hl hblocks hm, hlen]

theorem Indexed.start_fails_of_count (hf : Indexed vi blk pre e post shown)
    (hl : LaidFile vi (pre ++ e :: post)) (hblocks : HasBlocks vi post) (hraw : e.raw = false)
    (hcount : e.compressedblks = d0Cblkcnt) {flags : GetBlocks}
    (hflags : flags.findtail = false) :
    ∃ err, zErofsDoMapBlocks vi blk { mLa := totalLength pre } flags = .error err := by
  apply hf.start_fails hl hblocks _ hflags
  intro m q full hm hzero
  exact ⟨_, hf.compressedlen_error (hl.extents pre e post rfl hblocks) hm hzero hraw hcount⟩

/-- The slot behind an extent of one lcluster that ends the file is behind the index. -/
theorem Indexed.behind (hf : Indexed vi blk pre e [] shown)
    (h1 : extentSpan vi.sbi.blksz (totalLength pre) e = 1)
    (hmod : (totalLength pre + e.length) % vi.sbi.blksz = 0) :
    totalLength pre / vi.sbi.blksz + 1 = vi.sbi.blkRoundUp vi.iSize := by
  have hb := vi.sbi.blksz_pos
  have hdiv := div_add_extentSpan hb (totalLength pre) e
  have hsize : vi.iSize = totalLength pre + e.length := by
    rw [hf.size, totalLength_append, totalLength_cons, totalLength_nil, Nat.add_zero]
  obtain ⟨t, ht⟩ := Nat.dvd_of_mod_eq_zero hmod
  rw [← h1, ← hdiv, SbInfo.blkRoundUp, hsize, ht, Nat.mul_div_cancel_left t hb,
    Nat.mul_add_div hb, Nat.div_eq_of_lt (by omega), Nat.add_zero]

/-- The head of a compressed extent is not known by itself to be one block. -/
theorem HeadAt.asks (hf : Indexed vi blk pre e post shown) {ofs q : ℕ} {full : Bool}
    {m : Maprecorder} (hm : HeadAt vi shown pre e post ofs m q full) (hraw : e.raw = false)
    (hbig : vi.sbi.bigPcluster = true) :
    ¬ (m.headtype = .plain ∨ ¬ vi.zAdvise.bigPcluster1 = true) := by
  simp [hm.headtype, InmemExtent.headtype, hraw, hf.big, hbig]

def badIndex : LclusterIndex := ⟨LclusterType.nonhead.toNat, 0, 0⟩

/-- The device on which a NONHEAD index without a distance follows the indexes of `es`. -/
def badDevice (vi : Inode) (es : List InmemExtent) : BlkRead :=
  deviceOf vi.sbi (Inode.fullIndexAlign (vi.iloc + vi.inodeIsize + vi.xattrIsize))
    ((zErofsWriteIndexes vi es ++ [badIndex]).flatMap LclusterIndex.encode)

theorem badDevice_holds (vi : Inode) (es : List InmemExtent) :
    DeviceHolds vi.sbi (badDevice vi es)
      (Inode.fullIndexAlign (vi.iloc + vi.inodeIsize + vi.xattrIsize))
      ((zErofsWriteIndexes vi es ++ [badIndex]).flatMap LclusterIndex.encode) :=
  deviceHolds_deviceOf _ _ _

theorem fullInode_badDevice (hf : FullInode vi blk es) : FullInode vi (badDevice vi es) es := by
  have hholds := (badDevice_holds vi es).holds
  rw [List.flatMap_append, holds_append] at hholds
  exact ⟨hf.layout, hf.blksz_ge, hf.blksz_le, hf.lclusterbits, hf.big, hf.size, hf.size_lt,
    hf.metasize_lt, hf.spans, fun _ _ => rfl, hholds.1⟩

theorem load_badDevice (hf : FullInode vi blk es) (m : Maprecorder) (lookahead : Bool) :
    ∃ m', zErofsLoadClusterFromDisk vi (badDevice vi es) m (vi.sbi.blkRoundUp vi.iSize)
      lookahead = .ok m' ∧ m'.type = .nonhead ∧ m'.delta0 = 0 := by
  have hget : (zErofsWriteIndexes vi es ++ [badIndex])[vi.sbi.blkRoundUp vi.iSize]? =
      some badIndex := by
    rw [← hf.length_indexes, List.getElem?_append_right le_rfl, Nat.sub_self]
    rfl
  have hfits : badIndex.Fits := ⟨by decide, by decide, by decide⟩
  have hmeta := hf.metasize_lt
  rw [legacyLoad_of_record hfits hf.layout hf.dvd_blksz (by omega)
    ((badDevice_holds vi es).record LclusterIndex.length_encode hget)]
  exact ⟨_, rfl, rfl, rfl⟩

/-- The COMPACT layout knows how many lclusters there are. -/
theorem load_behind (hlayout : vi.datalayout = .compressedCompact)
    (h32 : vi.sbi.blkRoundUp vi.iSize < 2 ^ 32) (blk : BlkRead) (m : Maprecorder)
    (lookahead : Bool) :
    zErofsLoadClusterFromDisk vi blk m (vi.sbi.blkRoundUp vi.iSize) lookahead =
      .error .einval := by
  unfold zErofsLoadClusterFromDisk compactedLoadClusterFromDisk
  simp only [hlayout, u32_of_lt h32, le_refl, if_true]

/-- The length query fails when the load behind the head fails or finds no count. -/
theorem compressedlen_error_of_next {m : Maprecorder}
    (hasks : ¬ (m.headtype = .plain ∨ ¬ vi.zAdvise.bigPcluster1 = true))
    (hzero : m.compressedblks = 0)
    (hnext : (∃ err, zErofsLoadClusterFromDisk vi blk m (m.lcn + 1) false = .error err) ∨
      ∃ m', zErofsLoadClusterFromDisk vi blk m (m.lcn + 1) false = .ok m' ∧
        m'.type = .nonhead ∧ m'.delta0 = 0) :
    ∃ err, zErofsGetExtentCompressedlen vi blk m = .error err := by
  unfold zErofsGetExtentCompressedlen
  simp only
  rw [if_neg hasks, if_neg (not_not.mpr hzero)]
  rcases hnext with ⟨err, hload⟩ | ⟨m', hload, htype, hd0⟩
  · rw [hload]
    exact ⟨err, rfl⟩
  · rw [hload]
    simp [htype, hd0]

/-- A lookup fails at the start of a compressed extent of one lcluster that ends the file with
that lcluster, when nothing behind the index looks like a count. -/
theorem Indexed.start_fails_of_end (hf : Indexed vi blk pre e [] shown)
    (hl : LaidFile vi (pre ++ [e])) (hblocks : HasBlocks vi []) (hraw : e.raw = false)
    (hbig : vi.sbi.bigPcluster = true)
    (h1 : extentSpan vi.sbi.blksz (totalLength pre) e = 1)
    (hmod : (totalLength pre + e.length) % vi.sbi.blksz = 0)
    (hnext : ∀ m, (∃ err, zErofsLoadClusterFromDisk vi blk m (vi.sbi.blkRoundUp vi.iSize) false =
        .error err) ∨
      ∃ m', zErofsLoadClusterFromDisk vi blk m (vi.sbi.blkRoundUp vi.iSize) false = .ok m' ∧
        m'.type = .nonhead ∧ m'.delta0 = 0)
    {flags : GetBlocks} (hflags : flags.findtail = false) :
    ∃ err, zErofsDoMapBlocks vi blk { mLa := totalLength pre } flags = .error err := by
  apply hf.start_fails hl hblocks _ hflags
  intro m q full hm hzero
  apply compressedlen_error_of_next (hm.asks hf hraw hbig) hzero
  rw [hm.lcn, hf.behind h1 hmod]
  exact hnext m

end Query

section Exact

variable {vi : Inode} {blk : BlkRead} {es pre post : List InmemExtent} {e : InmemExtent}

theorem LengthsExact.start (hexact : LengthsExact vi blk (pre ++ e :: post))
    (hs : Spans vi.sbi.blksz 0 (pre ++ e :: post)) :
    ∃ map', zErofsDoMapBlocks vi blk { mLa := totalLength pre } { fiemap := true } =
      .ok (vi, map') ∧ map'.mLlen = e.length := by
  have hlen := (spans_append hs).1
  obtain ⟨map', hok, -, hllen⟩ := hexact pre e post rfl (totalLength pre) le_rfl (by omega)
    { mLa := totalLength pre } rfl
  exact ⟨map', hok, hllen⟩

theorem countReadable_of_exact (hl : LaidFile vi (pre ++ e :: post))
    (h : IndexOn vi (pre ++ e :: post) blk)
    (hexact : ∀ blk, IndexOn vi (pre ++ e :: post) blk →
      LengthsExact vi blk (pre ++ e :: post)) (hblocks : HasBlocks vi post) :
    CountReadable vi pre e post := by
  intro hraw hbig
  constructor
  · intro hcount
    cases h with
    | full hf =>
        obtain ⟨map', hok, -⟩ := (hexact blk (.full hf)).start hf.spans
        obtain ⟨err, herr⟩ := hf.indexed.start_fails_of_count hl hblocks hraw hcount
          (show ({ fiemap := true } : GetBlocks).findtail = false from rfl)
        rw [hok] at herr
        cases herr
    | compact hf hmem hconv hdev =>
        obtain ⟨map', hok, -⟩ := (hexact blk (.compact hf hmem hconv hdev)).start hf.spans
        obtain ⟨err, herr⟩ := ((hf.compactDevice hmem hconv hdev).indexed
          (Or.inr hbig)).start_fails_of_count hl hblocks hraw hcount
            (show ({ fiemap := true } : GetBlocks).findtail = false from rfl)
        rw [hok] at herr
        cases herr
  · intro h1
    by_contra hnot
    rw [not_or, not_not, not_not] at hnot
    obtain ⟨rfl, hmod⟩ := hnot
    cases h with
    | full hf =>
        -- what follows the indexes is up to the device
        have hbad := fullInode_badDevice hf
        obtain ⟨map', hok, -⟩ := (hexact _ (.full hbad)).start hf.spans
        obtain ⟨err, herr⟩ := hbad.indexed.start_fails_of_end hl hblocks hraw hbig h1 hmod
          (fun m => Or.inr (load_badDevice hf m false)) (show ({ fiemap := true } : GetBlocks).findtail = false from rfl)
        rw [hok] at herr
        cases herr
    | compact hf hmem hconv hdev =>
        have h32 : vi.sbi.blkRoundUp vi.iSize < 2 ^ 32 := by
          have := hf.metasize_lt
          omega
        obtain ⟨map', hok, -⟩ := (hexact blk (.compact hf hmem hconv hdev)).start hf.spans
        obtain ⟨err, herr⟩ := ((hf.compactDevice hmem hconv hdev).indexed
          (Or.inr hbig)).start_fails_of_end hl hblocks hraw hbig h1 hmod
            (fun m => Or.inl ⟨_, load_behind hf.layout h32 blk m false⟩)
            (show ({ fiemap := true } : GetBlocks).findtail = false from rfl)
        rw [hok] at herr
        cases herr

theorem FullInode.span_le_of_exact (hf : FullInode vi blk (pre ++ e :: post))
    (hl : LaidFile vi (pre ++ e :: post))
    (hread : HasBlocks vi post → CountReadable vi pre e post)
    (hexact : LengthsExact vi blk (pre ++ e :: post)) :
    extentSpan vi.sbi.blksz (totalLength pre) e ≤ 2 ^ 16 := by
  by_contra hspan
  obtain ⟨last, h1, hlast, hback⟩ := hf.heldBack (by omega)
  obtain ⟨map₁, hok₁, hne⟩ := hf.indexed.fiemap_short hl hread h1 hlast hback
  obtain ⟨map₂, hok₂, heq⟩ := hexact.start hf.spans
  rw [hok₁] at hok₂
  obtain ⟨-, rfl⟩ := Prod.mk.inj (Except.ok.inj hok₂)
  exact hne heq

section Compact

variable {blkaddr isize : ℕ} {mem' : Mem}

/-- A slot that is not accepted is also one at which lookups start. -/
theorem CompactDevice.clear_of_exact
    (hd : CompactDevice vi blkaddr (pre ++ e :: post) blk mem' isize)
    (hexact : LengthsExact vi blk (pre ++ e :: post)) (hbig : vi.sbi.bigPcluster = false) :
    ExtentClear vi pre e := by
  by_contra hnot
  obtain ⟨i, h0, hi, herr⟩ := hd.load_unclear hbig hnot
  have hb := vi.sbi.blksz_pos
  have hpow := hd.file.pow_lclusterbits
  have hdiv := div_add_extentSpan hb (totalLength pre) e
  have hlt : totalLength pre < (totalLength pre / vi.sbi.blksz + 1) * vi.sbi.blksz :=
    lt_next_cluster hb _
  have hmono : (totalLength pre / vi.sbi.blksz + 1) * vi.sbi.blksz ≤
      (totalLength pre / vi.sbi.blksz + i) * vi.sbi.blksz := Nat.mul_le_mul_right _ (by omega)
  have hend : (totalLength pre / vi.sbi.blksz + i + 1) * vi.sbi.blksz ≤
      totalLength pre + e.length := Nat.mul_le_of_le_div _ _ _ (by omega)
  rw [Nat.succ_mul] at hend
  obtain ⟨map', hok, -⟩ := hexact pre e post rfl
    ((totalLength pre / vi.sbi.blksz + i) * vi.sbi.blksz) (by omega) (by omega)
    { mLa := (totalLength pre / vi.sbi.blksz + i) * vi.sbi.blksz } rfl
  unfold zErofsDoMapBlocks at hok
  simp only [Bool.false_eq_true, if_false, hpow, Nat.mul_div_cancel _ hb, herr] at hok
  cases hok

theorem CompactDevice.stored_of_exact
    (hd : CompactDevice vi blkaddr (pre ++ e :: post) blk mem' isize)
    (hl : LaidFile vi (pre ++ e :: post))
    (hread : HasBlocks vi post → CountReadable vi pre e post)
    (hclear : ExtentClear vi pre e ∨ vi.sbi.bigPcluster = true)
    (hexact : LengthsExact vi blk (pre ++ e :: post)) : DistancesStored vi pre e := by
  by_contra hnot
  obtain ⟨last, h1, hlast, hback⟩ := hd.heldBack hclear hnot
  obtain ⟨map₁, hok₁, hne⟩ := (hd.indexed hclear).fiemap_short hl hread h1 hlast hback
  obtain ⟨map₂, hok₂, heq⟩ := hexact.start hd.file.spans
  rw [hok₁] at hok₂
  obtain ⟨-, rfl⟩ := Prod.mk.inj (Except.ok.inj hok₂)
  exact hne heq

end Compact

/-- Length queries are exact on every device that holds the indexes of a file exactly when the
indexes can describe its extents. -/
theorem lengthsExact_iff (hl : LaidFile vi es) (h : IndexOn vi es blk) :
    (∀ blk, IndexOn vi es blk → LengthsExact vi blk es) ↔ LengthsFit vi es := by
  constructor
  · rintro hexact pre e post rfl
    have hread := countReadable_of_exact hl h hexact
    refine ⟨hread, ?_⟩
    unfold LookaheadFits
    cases h with
    | full hf =>
        rw [if_pos hf.layout]
        exact hf.span_le_of_exact hl hread (hexact blk (.full hf))
    | compact hf hmem hconv hdev =>
        have hex := hexact blk (.compact hf hmem hconv hdev)
        have hd := hf.compactDevice hmem hconv hdev
        have hclear := hd.clear_of_exact hex
        rw [if_neg (by simp [hf.layout])]
        refine ⟨hclear, hd.stored_of_exact hl hread ?_ hex⟩
        cases hbig : vi.sbi.bigPcluster with
        | false => exact Or.inl (hclear hbig)
        | true => exact Or.inr rfl
  · rintro hfit blk hon pre e post rfl ofs hge hlt map hmap
    obtain ⟨hread, hahead⟩ := hfit pre e post rfl
    unfold LookaheadFits at hahead
    cases hon with
    | full hf =>
        rw [if_pos hf.layout] at hahead
        exact hf.indexed.fiemap_exact hl hread (hf.looksAhead hahead) hge hlt map hmap
    | compact hf hmem hconv hdev =>
        rw [if_neg (by simp [hf.layout])] at hahead
        have hclear : ExtentClear vi pre e ∨ vi.sbi.bigPcluster = true := by
          cases hbig : vi.sbi.bigPcluster with
          | false => exact Or.inl (hahead.1 hbig)
          | true => exact Or.inr rfl
        have hd := hf.compactDevice hmem hconv hdev
        exact (hd.indexed hclear).fiemap_exact hl hread (hd.looksAhead hclear hahead.2) hge hlt
          map hmap

end Exact

section Instances

theorem lengthsFit_threeExtents :
    LengthsFit (plainInode 12 true (totalLength threeExtents)) threeExtents := by
  intro pre e post hes
  have hb := fun h => builtFile_threeExtents.extents pre e post hes h
  have hfit := fun h => countsFit_threeExtents pre e post hes h
  refine ⟨fun h => (hb h).countReadable (hfit h), ?_⟩
  have he : e ∈ threeExtents := by simp [hes]
  have hlen : e.length ≤ 10000 := by
    simp only [threeExtents, List.mem_cons, List.not_mem_nil, or_false] at he
    rcases he with rfl | rfl | rfl <;> decide
  have hpos : 0 < (plainInode 12 true (totalLength threeExtents)).sbi.blksz := SbInfo.blksz_pos _
  have hblk : (plainInode 12 true (totalLength threeExtents)).sbi.blksz = 4096 := rfl
  have hmod := Nat.mod_lt (totalLength pre) hpos
  unfold LookaheadFits extentSpan
  rw [if_pos fullInode_threeExtents.layout]
  refine (Nat.div_le_self _ _).trans ?_
  omega

theorem lengthsExact_iff_threeExtents :
    LengthsExact (plainInode 12 true (totalLength threeExtents))
      (indexDevice (plainInode 12 true (totalLength threeExtents)) threeExtents) threeExtents :=
  (lengthsExact_iff builtFile_threeExtents.laid (.full fullInode_threeExtents)).mpr
    lengthsFit_threeExtents _ (.full fullInode_threeExtents)

/-- A raw block in front of a fragment of `2 ^ 16 + 1` lclusters, on 512-byte blocks. -/
def longFragment : List InmemExtent :=
  [⟨100, 1, 512, true, false, false⟩, ⟨101, 0, 33554944, false, false, false⟩]

def longFragmentInode : Inode :=
  { plainInode 9 true (totalLength longFragment) with
    zAdvise := ⟨false, true, false, false, false, true⟩
    zTailextentHeadlcn := 1 }

theorem fullInode_longFragment :
    FullInode longFragmentInode (indexDevice longFragmentInode longFragment) longFragment :=
  ⟨rfl, by decide, by decide, rfl, rfl, rfl, by decide, by decide,
    ⟨by decide, by decide, fun _ => by decide, by decide, by decide, fun h => absurd rfl h, trivial⟩,
    deviceHolds_deviceOf _ _ _⟩

theorem fragment_not_ordinary : ¬ OrdinaryTail longFragmentInode :=
  fun h => absurd h.2 (by decide)

theorem laidFile_longFragment : LaidFile longFragmentInode longFragment := by
  have hsplit (pre : List InmemExtent) (e : InmemExtent) (h : longFragment = pre ++ [e]) :
      pre = [⟨100, 1, 512, true, false, false⟩] ∧ e = ⟨101, 0, 33554944, false, false, false⟩ := by
    obtain ⟨h₁, h₂⟩ := List.append_inj' (show [⟨100, 1, 512, true, false, false⟩] ++
      [⟨101, 0, 33554944, false, false, false⟩] = pre ++ [e] from h) rfl
    exact ⟨h₁.symm, (List.singleton_inj.mp h₂).symm⟩
  refine ⟨?_, ?_, ?_⟩
  · intro pre e post hes hblocks
    have hne := hblocks.resolve_right fragment_not_ordinary
    obtain rfl : pre = [] := by
      have hlen := congrArg List.length hes
      have hpos := List.length_pos_iff.mpr hne
      simp [longFragment] at hlen
      exact List.length_eq_zero_iff.mp (by omega)
    obtain ⟨rfl, -⟩ := List.cons.inj hes
    exact ⟨by decide, by decide, by decide, by decide, by decide, by decide, by decide⟩
  · intro pre e hes _
    obtain ⟨rfl, rfl⟩ := hsplit pre e hes
    rfl
  · intro pre e hes _ hraw
    obtain ⟨rfl, rfl⟩ := hsplit pre e hes
    cases hraw

/-- The length of the fragment is not found. -/
theorem longFragment_length_wrong :
    IndexOn longFragmentInode longFragment (indexDevice longFragmentInode longFragment) ∧
      LaidFile longFragmentInode longFragment ∧
      ¬ LengthsExact longFragmentInode (indexDevice longFragmentInode longFragment)
        longFragment := by
  refine ⟨.full fullInode_longFragment, laidFile_longFragment, ?_⟩
  intro hexact
  have hblocks : ¬ HasBlocks longFragmentInode [] :=
    not_or.mpr ⟨not_not.mpr rfl, fragment_not_ordinary⟩
  have hspan := @FullInode.span_le_of_exact _ _ [⟨100, 1, 512, true, false, false⟩] _ _
    fullInode_longFragment laidFile_longFragment (fun h => absurd h hblocks) hexact
  exact absurd hspan (by decide)

end Instances

end ErofsUtils
