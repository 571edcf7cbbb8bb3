import ErofsUtils.FullIndexRoundTrip

/-!
# The partial-reference flag of a lookup

`partialref` of the recorder is set by every HEAD index that a lookup loads and never cleared. A
lookup loads the index of the offset's own lcluster and, if that is not the head of the extent, the
indexes back to the head. So the flag of the mapping is the flag of the head or that of the first
index, and the two differ where an extent with the flag starts behind the offset in its lcluster.
-/

namespace ErofsUtils

/-- The index is a HEAD with `Z_EROFS_LI_PARTIAL_REF`. -/
def LclusterIndex.partialRef (di : LclusterIndex) : Bool :=
  decide (di.type ≠ .nonhead) && di.advise.testBit 15

section Legacy

variable {vi : Inode} {blk : BlkRead} {m m' : Maprecorder}

def legacyIndexAt (vi : Inode) (blk : BlkRead) (lcn : ℕ) : Option LclusterIndex :=
  let pos := Inode.fullIndexAlign (vi.iloc + vi.inodeIsize + vi.xattrIsize) + lcn * 8
  (blk (vi.sbi.blknr pos)).map fun kaddr => LclusterIndex.decode kaddr (vi.sbi.blkoff pos)

def indexCarries (vi : Inode) (blk : BlkRead) (lcn : ℕ) : Bool :=
  (legacyIndexAt vi blk lcn).any LclusterIndex.partialRef

theorem legacyDecodeIndex_partialref {di : LclusterIndex}
    (h : legacyDecodeIndex vi m di = .ok m') :
    m'.partialref = (m.partialref || di.partialRef) := by
  unfold legacyDecodeIndex at h
  unfold LclusterIndex.partialRef
  cases ht : di.type with
  | nonhead =>
      rw [ht] at h
      simp only at h
      split_ifs at h <;> cases h <;> simp
  | plain =>
      rw [ht] at h
      cases h
      simp
  | head1 =>
      rw [ht] at h
      cases h
      simp
  | head2 =>
      rw [ht] at h
      cases h

theorem legacyDecodeIndex_type {di : LclusterIndex} (h : legacyDecodeIndex vi m di = .ok m') :
    m'.type = di.type := by
  unfold legacyDecodeIndex at h
  split at h
  · next ht =>
      simp only at h
      split_ifs at h <;> cases h <;> exact ht.symm
  · next ht => cases h; rfl
  · next ht => cases h; rfl
  · cases h

theorem legacyLoad_decode {lcn : ℕ} {lookahead : Bool} (hl : vi.datalayout = .compressedFull)
    (h : zErofsLoadClusterFromDisk vi blk m lcn lookahead = .ok m') :
    ∃ di, legacyIndexAt vi blk m'.lcn = some di ∧
      m'.partialref = (m.partialref || di.partialRef) ∧ m'.type = di.type := by
  rw [zErofsLoadClusterFromDisk_lcn h]
  unfold zErofsLoadClusterFromDisk at h
  rw [hl] at h
  simp only [legacyLoadClusterFromDisk, zErofsReloadIndexes] at h
  cases hblk : blk (vi.sbi.blknr (Inode.fullIndexAlign (vi.iloc + vi.inodeIsize +
      vi.xattrIsize) + u32 lcn * 8)) with
  | none =>
      rw [hblk] at h
      cases h
  | some kaddr =>
      rw [hblk] at h
      refine ⟨_, by rw [legacyIndexAt, hblk]; rfl, ?_, legacyDecodeIndex_type h⟩
      exact (legacyDecodeIndex_partialref h).trans rfl

theorem legacyLoad_partialref {lcn : ℕ} {lookahead : Bool}
    (hl : vi.datalayout = .compressedFull)
    (h : zErofsLoadClusterFromDisk vi blk m lcn lookahead = .ok m') :
    m'.partialref = (m.partialref || indexCarries vi blk m'.lcn) := by
  obtain ⟨di, hdi, hp, -⟩ := legacyLoad_decode hl h
  rw [hp, indexCarries, hdi]
  rfl

theorem legacyLoad_nonhead {lcn : ℕ} {lookahead : Bool}
    (hl : vi.datalayout = .compressedFull)
    (h : zErofsLoadClusterFromDisk vi blk m lcn lookahead = .ok m') (ht : m'.type = .nonhead) :
    indexCarries vi blk m'.lcn = false := by
  obtain ⟨di, hdi, -, htype⟩ := legacyLoad_decode hl h
  rw [indexCarries, hdi, Option.any_some, LclusterIndex.partialRef, ← htype, ht]
  rfl

/-- The lookback adds the flag of the head at which it ends. -/
theorem LookbackRun.partialref {d : ℕ} (hl : vi.datalayout = .compressedFull)
    (h : LookbackRun vi blk m d m') :
    m'.partialref = (m.partialref || indexCarries vi blk m'.lcn) := by
  induction h with
  | head hd hload ht =>
      have hflag := legacyLoad_partialref hl hload
      exact hflag
  | step hd hload ht h0 hrest ih =>
      rw [ih, legacyLoad_partialref hl hload, legacyLoad_nonhead hl hload ht, Bool.or_false]

/-- The flag of the first index is kept, and that of the head is added. -/
theorem zErofsMapHead_partialref {endoff la q : ℕ} {full : Bool}
    (hl : vi.datalayout = .compressedFull) (hm : m.partialref = indexCarries vi blk m.lcn)
    (h : zErofsMapHead vi blk m endoff = .ok (m', la, q, full)) :
    m'.partialref = (m.partialref || indexCarries vi blk m'.lcn) := by
  cases zErofsMapHead_cases h with
  | first ht hofs =>
      change m.partialref = (m.partialref || indexCarries vi blk m.lcn)
      rw [← hm, Bool.or_self]
  | before ht hofs h0 hback =>
      rw [(lookbackRun_of_ok hback).1.partialref hl]
  | inner ht hback => exact (lookbackRun_of_ok hback).1.partialref hl

theorem zErofsMapPcluster_partialRef {map map' : MapBlocks}
    (h : zErofsMapPcluster vi blk m map = .ok (m', map')) :
    map'.mFlags.partialRef = map.mFlags.partialRef := by
  unfold zErofsMapPcluster at h
  split_ifs at h
  · cases h
    rfl
  · cases h
    rfl
  · split at h
    · cases h
    · cases h
      rfl

/-- The flag of a mapping is what the recorder has gathered when the head is found. -/
theorem zErofsDoMapBlocks_partialRef {vi' : Inode} {map map' : MapBlocks} {fiemap full : Bool}
    {m₀ : Maprecorder} {la q : ℕ}
    (hload : zErofsLoadClusterFromDisk vi blk .init (map.mLa / 2 ^ vi.zLogicalClusterbits)
      false = .ok m₀)
    (hhead : zErofsMapHead vi blk m₀ (map.mLa % 2 ^ vi.zLogicalClusterbits) =
      .ok (m, la, q, full))
    (h : zErofsDoMapBlocks vi blk map { fiemap := fiemap } = .ok (vi', map')) :
    map'.mFlags.partialRef = m.partialref := by
  unfold zErofsDoMapBlocks at h
  simp only [Bool.false_eq_true, and_false, if_false, hload, hhead] at h
  split at h
  · cases h
  · next m₁ map₁ hpc =>
      have hkeep := zErofsMapPcluster_partialRef hpc
      split_ifs at h
      · split at h
        · cases h
        · cases h
          exact hkeep
      · cases h
        exact hkeep

end Legacy

section Written

variable {vi vi' : Inode} {blk : BlkRead} {es pre post : List InmemExtent} {e : InmemExtent}

/-- The index that was written for an lcluster is a HEAD with the flag. -/
def writtenCarries (vi : Inode) (es : List InmemExtent) (lcn : ℕ) : Bool :=
  (zErofsWriteIndexes vi es)[lcn]?.any LclusterIndex.partialRef

theorem FullInode.legacyIndexAt_eq (hf : FullInode vi blk es) {lcn : ℕ} {di : LclusterIndex}
    (hdi : (zErofsWriteIndexes vi es)[lcn]? = some di) : legacyIndexAt vi blk lcn = some di := by
  have hmap := hdi
  rw [zErofsWriteIndexes_eq vi hf.spans, List.getElem?_map] at hmap
  obtain ⟨s, -, hs⟩ := Option.map_eq_some_iff.mp hmap
  have hrec := hf.indexes.record LclusterIndex.length_encode hdi
  obtain ⟨kaddr, hblk, hholds⟩ := hrec.block hf.dvd_blksz
    (Nat.dvd_add (dvd_fullIndexAlign _) (Nat.dvd_mul_right 8 lcn)) (by simp) (by simp)
  have hdec := LclusterIndex.decode_of_holds (hs ▸ slotIndex_fits vi s) hholds
  rw [Nat.mul_comm] at hblk hdec
  rw [legacyIndexAt, hblk, Option.map_some, hdec]

theorem FullInode.indexCarries_eq (hf : FullInode vi blk es) {lcn : ℕ}
    (hlcn : lcn < vi.sbi.blkRoundUp vi.iSize) :
    indexCarries vi blk lcn = writtenCarries vi es lcn := by
  have hlen := hf.length_indexes
  have hget := List.getElem?_eq_getElem (hlen ▸ hlcn)
  rw [indexCarries, writtenCarries, hf.legacyIndexAt_eq hget, hget]

/-- The index at which an offset of the file is looked up. -/
theorem lcn_lt_blkRoundUp {sbi : SbInfo} {ofs size : ℕ} (h : ofs < size) :
    ofs / sbi.blksz < sbi.blkRoundUp size := by
  have hb := sbi.blksz_pos
  have hmono : (ofs + sbi.blksz) / sbi.blksz ≤ (size + (sbi.blksz - 1)) / sbi.blksz :=
    Nat.div_le_div_right (by omega)
  rw [Nat.add_div_right _ hb] at hmono
  exact hmono

/-- A lookup has the flag of the head of the extent, or of the index it loads first. -/
theorem FullInode.lookup_partialRef (hf : FullInode vi blk (pre ++ e :: post)) {ofs : ℕ}
    (hge : totalLength pre ≤ ofs) (hlt : ofs < totalLength pre + e.length) {map map' : MapBlocks}
    {fiemap : Bool} (hmap : map.mLa = ofs)
    (h : zErofsDoMapBlocks vi blk map { fiemap := fiemap } = .ok (vi', map')) :
    map'.mFlags.partialRef = (writtenCarries vi (pre ++ e :: post) (ofs / vi.sbi.blksz) ||
      writtenCarries vi (pre ++ e :: post) (totalLength pre / vi.sbi.blksz)) := by
  have hpow : 2 ^ vi.zLogicalClusterbits = vi.sbi.blksz := by rw [hf.lclusterbits]; rfl
  have hend := hf.indexed.end_le
  obtain ⟨m₀, m, q, full, hload, hhead, hm⟩ := hf.indexed.mapHead hge hlt
  rw [zErofsDoMapBlocks_partialRef (by rwa [hpow, hmap]) (by rwa [hpow, hmap]) h,
    ← hf.indexCarries_eq (lcn_lt_blkRoundUp (by omega)),
    ← hf.indexCarries_eq (lcn_lt_blkRoundUp (by omega)), ← hm.lcn]
  have hfirst := legacyLoad_partialref hf.layout hload
  rw [show Maprecorder.init.partialref = false from rfl, Bool.false_or] at hfirst
  have hlcn₀ : m₀.lcn = ofs / vi.sbi.blksz := by
    have hlt := @lcn_lt_blkRoundUp vi.sbi ofs vi.iSize (by omega)
    have hmeta := hf.metasize_lt
    rw [zErofsLoadClusterFromDisk_lcn hload, u32_of_lt (by omega)]
  rw [zErofsMapHead_partialref hf.layout hfirst hhead, hfirst, hlcn₀]

/-- A lookup gets the flag of its extent right exactly when its own lcluster has no flag that the
head of the extent lacks. -/
theorem lookup_partialRef_iff (hf : FullInode vi blk (pre ++ e :: post)) {ofs : ℕ}
    (hge : totalLength pre ≤ ofs) (hlt : ofs < totalLength pre + e.length) {map map' : MapBlocks}
    {fiemap : Bool} (hmap : map.mLa = ofs)
    (h : zErofsDoMapBlocks vi blk map { fiemap := fiemap } = .ok (vi', map')) :
    map'.mFlags.partialRef =
        writtenCarries vi (pre ++ e :: post) (totalLength pre / vi.sbi.blksz) ↔
      (writtenCarries vi (pre ++ e :: post) (ofs / vi.sbi.blksz) = true →
        writtenCarries vi (pre ++ e :: post) (totalLength pre / vi.sbi.blksz) = true) := by
  rw [hf.lookup_partialRef hge hlt hmap h]
  cases writtenCarries vi (pre ++ e :: post) (ofs / vi.sbi.blksz) <;>
    cases writtenCarries vi (pre ++ e :: post) (totalLength pre / vi.sbi.blksz) <;> simp

end Written

section Neighbour

/-- A whole pcluster, and a part of one that another file has written, which starts 904 bytes behind
the start of its lcluster. -/
def partialNeighbour : List InmemExtent :=
  [⟨100, 1, 5000, false, false, false⟩, ⟨50, 1, 5000, false, true, false⟩]

def partialNeighbourInode : Inode := plainInode 12 false (totalLength partialNeighbour)

theorem partialNeighbour_full :
    FullInode partialNeighbourInode (indexDevice partialNeighbourInode partialNeighbour)
      ([] ++ ⟨100, 1, 5000, false, false, false⟩ :: [⟨50, 1, 5000, false, true, false⟩]) :=
  fullInode_plainInode (by decide) (by decide) (by decide)
    ⟨by decide, by decide, fun _ => by decide, by decide, by decide, fun h => absurd rfl h, trivial⟩

theorem partialNeighbour_built : BuiltFile partialNeighbourInode
    ([] ++ ⟨100, 1, 5000, false, false, false⟩ :: [⟨50, 1, 5000, false, true, false⟩]) := by
  apply builtFile_plainInode
  intro e he
  simp only [List.nil_append, List.mem_cons, List.not_mem_nil, or_false] at he
  rcases he with rfl | rfl <;>
    exact ⟨by decide, by decide, by decide, by decide, by decide, by decide, by decide⟩

theorem partialNeighbour_lookup :
    ∃ map', zErofsDoMapBlocks partialNeighbourInode
      (indexDevice partialNeighbourInode partialNeighbour) { mLa := 4096 } {} =
        .ok (partialNeighbourInode, map') := by
  obtain ⟨map', hmap, -⟩ := partialNeighbour_full.indexed.lookup_blocks partialNeighbour_built
    (Or.inr ⟨rfl, rfl⟩) (fun _ => by decide) (by decide) (by decide) { mLa := 4096 } rfl
  exact ⟨map', hmap⟩

theorem lookup_partialRef_iff_neighbour :
    ∃ map', zErofsDoMapBlocks partialNeighbourInode
        (indexDevice partialNeighbourInode partialNeighbour) { mLa := 4096 } {} =
          .ok (partialNeighbourInode, map') ∧
      (map'.mFlags.partialRef = writtenCarries partialNeighbourInode partialNeighbour 0 ↔
        (writtenCarries partialNeighbourInode partialNeighbour 1 = true →
          writtenCarries partialNeighbourInode partialNeighbour 0 = true)) := by
  obtain ⟨map', hmap⟩ := partialNeighbour_lookup
  exact ⟨map', hmap, lookup_partialRef_iff partialNeighbour_full (by decide) (by decide) rfl hmap⟩

/-- The whole pcluster is mapped with the flag of the extent behind it. -/
theorem partialNeighbour_flagged :
    ∃ map', zErofsDoMapBlocks partialNeighbourInode
        (indexDevice partialNeighbourInode partialNeighbour) { mLa := 4096 } {} =
          .ok (partialNeighbourInode, map') ∧
      map'.mFlags.partialRef = true ∧
      writtenCarries partialNeighbourInode partialNeighbour 0 = false := by
  obtain ⟨map', hmap⟩ := partialNeighbour_lookup
  refine ⟨map', hmap, ?_, by decide⟩
  rw [partialNeighbour_full.lookup_partialRef (by decide) (by decide) rfl hmap]
  decide

end Neighbour

end ErofsUtils
