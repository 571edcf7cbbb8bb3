import ErofsUtils.ChunkLists

/-!
# Chunk indexes of imported files

`erofs_rebuild_write_blob_index` makes the chunks of a new inode from what `erofs_map_blocks` says
about a file of a source image, and `erofs_blob_write_chunk_indexes` writes their indexes. The
memory for the pointers to the chunks has room for one of them, and neither the flags nor the device
of a mapping are looked at.
-/

namespace ErofsUtils
open ByteMemory

/-- A source image: its content, `src->dev` and `src->extra_devices`. -/
structure RebuildSource where
  env : DataEnv
  dev : ℕ
  extraDevices : ℕ

/-- The device of the source that the device `dev` of the new image is:
`erofs_mkfs_rebuild_load_trees` takes the blocks and the tag of the extra device, if there is one. -/
def RebuildSource.blobDevice (src : RebuildSource) : ℕ := if src.extraDevices ≠ 0 then 1 else 0

/-- Why a file is not imported. `outside` is a store outside of the memory that was allocated. -/
inductive RebuildErr
  | einval
  | eopnotsupp
  | map (e : DataErr)
  | outside

/-- An inode with its chunks: the pointer to a chunk is its number in `unhashed_blobchunks`. -/
structure ImportedInode where
  chunks : List BlobChunk
  chunkindexes : Mem
  extentIsize : ℕ
  chunkformat : ℕ

section Import

variable (src : RebuildSource) (dstBits : ℕ) (vi : DataInode)

/-- `chunkbits` for a target with blocks of `2 ^ dstBits` bytes. -/
def importChunkbits : Except RebuildErr ℕ :=
  match vi.datalayout with
  | .chunkBased => if vi.chunkbits < dstBits then .error .einval else .ok vi.chunkbits
  | .flatPlain =>
    let chunkbits := Nat.log2 (sub64 vi.iSize 1) + 1
    let chunkbits := if chunkbits < dstBits then dstBits else chunkbits
    .ok (if 31 < chunkbits - dstBits then 31 + dstBits else chunkbits)
  | _ => .error .eopnotsupp

/-- `DIV_ROUND_UP(inode->i_size, chunksize)` as an `unsigned int`. -/
def importCount (chunkbits : ℕ) : ℕ :=
  u32 (u64 (vi.iSize + (2 ^ chunkbits - 1)) / 2 ^ chunkbits)

/-- The loop from `i` on, for `n` chunks; `idx` has eight bytes. -/
def blobIndexLoop (chunkbits : ℕ) :
    ℕ → ℕ → List BlobChunk → Mem → Except RebuildErr (List BlobChunk × Mem)
  | 0, _, chunks, idx => .ok (chunks, idx)
  | n + 1, i, chunks, idx =>
    -- a shift by 32 and more is made of `i = 0` only, other chunks have no room
    match erofsMapBlocks src.env vi { mLa := u32 (i * 2 ^ chunkbits) } with
    | .error e => .error (.map e)
    | .ok map =>
      let chunk : BlobChunk := ⟨src.dev, u32 (map.mPa / 2 ^ dstBits), 0⟩
      if 8 < 8 * i + 8 then .error .outside
      else blobIndexLoop chunkbits n (i + 1) (chunks ++ [chunk])
        (store idx (8 * i) (leBytes 8 chunks.length))

/-- `erofs_rebuild_write_blob_index`, with the memory that `malloc` returns. -/
def erofsRebuildWriteBlobIndex (idx : Mem) : Except RebuildErr ImportedInode :=
  match importChunkbits dstBits vi with
  | .error e => .error e
  | .ok chunkbits =>
    let count := importCount vi chunkbits
    match blobIndexLoop src dstBits vi chunkbits count 0 [] idx with
    | .error e => .error e
    | .ok (chunks, chunkindexes) => .ok
      { chunks := chunks
        chunkindexes := chunkindexes
        extentIsize := u32 (count * 8)
        chunkformat := 32 ||| (chunkbits - dstBits) }

/-- The imported inode for `erofs_blob_write_chunk_indexes`. -/
def ImportedInode.toChunkInode (inode : ImportedInode) : ChunkInode where
  chunkAt p := (inode.chunks[p]?).getD ⟨0, erofsNullAddr, 0⟩
  chunkindexes := inode.chunkindexes
  extentIsize := inode.extentIsize
  blocks := (vi.iSize + (2 ^ dstBits - 1)) / 2 ^ dstBits
  indexes := inode.chunkformat &&& 32 ≠ 0
  blkbits := inode.chunkformat &&& 31

def ImportedInode.table (inode : ImportedInode) (remappedBase off : ℕ) : List UInt8 :=
  ((inode.toChunkInode dstBits vi).erofsBlobWriteChunkIndexes remappedBase off).2.1

/-- `u.chunkbits` as a reader of the new inode computes it. -/
def ImportedInode.chunkbits (inode : ImportedInode) : ℕ := dstBits + (inode.chunkformat &&& 31)

end Import

section Places

/-- Where `erofs_map_blocks` says that an offset is, as a device and a position: `none` without an
answer, `some none` in a hole. -/
def dataPlace (env : DataEnv) (vi : DataInode) (la : ℕ) : Option (Option (ℕ × ℕ)) :=
  match erofsMapBlocks env vi { mLa := la } with
  | .error _ => none
  | .ok map =>
    some (if map.mFlags.mapped then some (map.mDeviceid, map.mPa + (la - map.mLa)) else none)

/-- Where a table of chunk indexes says that an offset is; `none` behind the table. -/
def tablePlace (table : List UInt8) (dstBits chunkbits la : ℕ) : Option (Option (ℕ × ℕ)) :=
  let pos := 8 * (la / 2 ^ chunkbits)
  if table.length < pos + 8 then none
  else if leNat (fileByte table) (pos + 4) 4 = erofsNullAddr then some none
  else some (some (leNat (fileByte table) (pos + 2) 2,
    leNat (fileByte table) (pos + 4) 4 * 2 ^ dstBits + la % 2 ^ chunkbits))

/-- The same position of the same device, or a hole both times. -/
def SamePlace (src : RebuildSource) (p p' : Option (ℕ × ℕ)) : Prop :=
  (∀ q ∈ p, q.1 = src.blobDevice) ∧ p' = p.map fun q => (src.dev, q.2)

/-- The indexes of the new inode map every offset of the file as the source does. -/
def MappingKept (src : RebuildSource) (dstBits : ℕ) (vi : DataInode) (remappedBase off : ℕ)
    (inode : ImportedInode) : Prop :=
  ∀ la < vi.iSize, ∃ p p', dataPlace src.env vi la = some p ∧
    tablePlace (inode.table dstBits vi remappedBase off) dstBits (inode.chunkbits dstBits) la =
      some p' ∧ SamePlace src p p'

end Places

section Format

theorem format_blkbits (n : ℕ) : (32 ||| n) &&& 31 = n % 32 := by
  have hmask := Nat.and_two_pow_sub_one_eq_mod (32 ||| n) 5
  have hor := @Nat.or_mod_two_pow 32 n 5
  norm_num at hmask hor
  rw [hmask, hor]

theorem format_indexes (n : ℕ) : (32 ||| n) &&& 32 ≠ 0 := by
  intro h
  have hbit := congrArg (Nat.testBit · 5) h
  rw [Nat.testBit_and, Nat.testBit_or] at hbit
  simp [show Nat.testBit 32 5 = true from rfl] at hbit

end Format

section Table

variable {dstBits : ℕ} {vi : DataInode} {inode : ImportedInode} {remappedBase off : ℕ}

theorem length_table : (inode.table dstBits vi remappedBase off).length = inode.extentIsize := by
  rw [ImportedInode.table, ChunkInode.erofsBlobWriteChunkIndexes]
  exact CString.length_slice _ _

theorem table_one {dev blk n : ℕ} (hdev : dev ≠ 0) (hchunks : inode.chunks = [⟨dev, blk, 0⟩])
    (hptr : leNat inode.chunkindexes 0 8 = 0) (hsize : inode.extentIsize = 8)
    (hformat : inode.chunkformat = 32 ||| n) (hblk : blk < 2 ^ 32) :
    leNat (fileByte (inode.table dstBits vi remappedBase off)) 2 2 = u16 dev ∧
      leNat (fileByte (inode.table dstBits vi remappedBase off)) 4 4 = blk := by
  have hindexes : (inode.toChunkInode dstBits vi).indexes = true := by
    simp [ImportedInode.toChunkInode, hformat, format_indexes]
  have hunit : (inode.toChunkInode dstBits vi).unit = 8 := if_pos hindexes
  have hcount : (inode.toChunkInode dstBits vi).chunkCount = 1 := by
    rw [ChunkInode.chunkCount, hunit]
    exact congrArg (fun n => (n + 7) / 8) hsize
  have hchunk : (inode.toChunkInode dstBits vi).chunkAt (leNat inode.chunkindexes 0 8) =
      ⟨dev, blk, 0⟩ := by
    simp [ImportedInode.toChunkInode, hptr, hchunks]
  have haddr : ChunkInode.idxBlkaddr remappedBase ⟨dev, blk, 0⟩ = blk := by
    by_cases hole : blk = erofsNullAddr
    · exact (if_pos hole).trans hole.symm
    · exact (if_neg hole).trans (if_pos hdev)
  have hturn := @ChunkInode.indexTurn_table (inode.toChunkInode dstBits vi) remappedBase 0
    (inode.toChunkInode dstBits vi).initIndexState
  have hstored : Holds (store inode.chunkindexes 0 (leBytes 2 0 ++ leBytes 2 dev ++ leBytes 4 blk)) 0
      (leBytes 2 0 ++ leBytes 2 dev ++ leBytes 4 blk) := holds_store _ _ _
  have hmem : ((inode.toChunkInode dstBits vi).indexTurn remappedBase 0
      (inode.toChunkInode dstBits vi).initIndexState).chunkindexes =
        store inode.chunkindexes 0 (leBytes 2 0 ++ leBytes 2 dev ++ leBytes 4 blk) := by
    rw [hturn, Nat.mul_zero]
    change store inode.chunkindexes _ (ChunkInode.encodeIndex _ _
      ((inode.toChunkInode dstBits vi).chunkAt (leNat inode.chunkindexes 0 8))) = _
    rw [hchunk, ChunkInode.encodeIndex, if_pos hindexes, haddr]
  have htable : ∀ i w, i + w ≤ 8 →
      leNat (fileByte (inode.table dstBits vi remappedBase off)) i w =
        leNat (store inode.chunkindexes 0 (leBytes 2 0 ++ leBytes 2 dev ++ leBytes 4 blk)) i w := by
    intro i w hi
    apply leNat_congr
    intro k hk
    rw [ImportedInode.table, ChunkInode.erofsBlobWriteChunkIndexes, hcount]
    change fileByte (CString.slice ((inode.toChunkInode dstBits vi).indexTurn remappedBase 0
      (inode.toChunkInode dstBits vi).initIndexState).chunkindexes 0 inode.extentIsize) (i + k) = _
    rw [hmem, hsize, fileByte, CString.getElem?_slice, if_pos (by omega), Nat.zero_add]
    rfl
  obtain ⟨hfront, hback⟩ := holds_append.mp hstored
  obtain ⟨-, hmid⟩ := holds_append.mp hfront
  constructor
  · rw [htable 2 2 (by omega), u16]
    exact leNat_of_holds hmid
  · rw [htable 4 4 (by omega)]
    exact leNat_of_holds_of_lt hback hblk

theorem tablePlace_one {dev blk n chunkbits la : ℕ} (hdev : dev ≠ 0)
    (hchunks : inode.chunks = [⟨dev, blk, 0⟩]) (hptr : leNat inode.chunkindexes 0 8 = 0)
    (hsize : inode.extentIsize = 8) (hformat : inode.chunkformat = 32 ||| n) (hblk : blk < 2 ^ 32)
    (hla : la < 2 ^ chunkbits) :
    tablePlace (inode.table dstBits vi remappedBase off) dstBits chunkbits la =
      some (if blk = erofsNullAddr then none else some (u16 dev, blk * 2 ^ dstBits + la)) := by
  obtain ⟨hd, hb⟩ :=
    @table_one dstBits vi inode remappedBase off dev blk n hdev hchunks hptr hsize hformat hblk
  have hlen := @length_table dstBits vi inode remappedBase off
  simp only [tablePlace, Nat.div_eq_of_lt hla, Nat.mul_zero, Nat.zero_add, hlen, hsize, lt_irrefl,
    if_false, hd, hb, Nat.mod_eq_of_lt hla]
  exact apply_ite some _ _ _ |>.symm

end Table

section Source

variable {env : DataEnv} {vi : DataInode}

def firstEntry (env : DataEnv) (vi : DataInode) : Option (ℕ × ℕ) :=
  chunkEntry env vi
    (fun i => fileByte env.primary (vi.sbi.pos (vi.sbi.blknr (chunkEntryPos vi 0)) + i))
    (vi.sbi.blkoff (chunkEntryPos vi 0))

theorem erofsMapBlocks_chunk (hlayout : vi.datalayout = .chunkBased) {la : ℕ} (hla : la < vi.iSize)
    (hone : la < 2 ^ vi.chunkbits) :
    ∃ plen, (firstEntry env vi = none →
        erofsMapBlocks env vi { mLa := la } = .ok { mPlen := plen, mLlen := plen }) ∧
      ∀ d blk, firstEntry env vi = some (d, blk) → erofsMapBlocks env vi { mLa := la } = .ok
        { mPa := vi.sbi.pos blk
          mPlen := plen
          mLlen := plen
          mFlags := { mapped := true }
          mDeviceid := d } := by
  have hdata : ¬ vi.iSize ≤ la := by omega
  refine ⟨min (2 ^ vi.chunkbits) (roundUp (vi.iSize - 0) vi.sbi.blksz), ?_, ?_⟩
  · intro hentry
    rw [firstEntry] at hentry
    simp only [erofsMapBlocks, if_neg hdata, hlayout, ne_eq, not_true_eq_false, if_false,
      DataEnv.blkRead, Nat.div_eq_of_lt hone, Nat.zero_mul, hentry]
  · intro d blk hentry
    rw [firstEntry] at hentry
    simp only [erofsMapBlocks, if_neg hdata, hlayout, ne_eq, not_true_eq_false, if_false,
      DataEnv.blkRead, Nat.div_eq_of_lt hone, Nat.zero_mul, hentry]

theorem dataPlace_chunk (hlayout : vi.datalayout = .chunkBased) {la : ℕ} (hla : la < vi.iSize)
    (hone : la < 2 ^ vi.chunkbits) :
    dataPlace env vi la =
      some ((firstEntry env vi).map fun q => (q.1, vi.sbi.pos q.2 + la)) := by
  obtain ⟨plen, hnone, hsome⟩ := @erofsMapBlocks_chunk env vi hlayout la hla hone
  rcases hentry : firstEntry env vi with _ | ⟨d, blk⟩
  · rw [dataPlace, hnone hentry]
    rfl
  · rw [dataPlace, hsome d blk hentry]
    rfl

/-- In a plain file all offsets are behind the first one, as far as its blocks fit into 32 bits. -/
theorem erofsMapBlocks_plain (hlayout : vi.datalayout = .flatPlain) {la : ℕ} (hla : la < vi.iSize) :
    ∃ plen, erofsMapBlocks env vi { mLa := la } =
      if la < vi.sbi.pos (u32 (vi.sbi.blkRoundUp vi.iSize)) then
        .ok
          { mLa := la
            mPa := vi.sbi.pos vi.iBlkaddr + la
            mPlen := plen
            mLlen := plen
            mFlags := { mapped := true } }
      else .error (.read .eio) := by
  have hdata : ¬ vi.iSize ≤ la := by omega
  refine ⟨vi.sbi.pos (u32 (vi.sbi.blkRoundUp vi.iSize)) - la, ?_⟩
  simp only [erofsMapBlocks, if_neg hdata, hlayout, ne_eq, reduceCtorEq, not_false_eq_true,
    if_true, if_false, erofsMapBlocksFlatmode, Nat.sub_zero]

theorem dataPlace_plain (hlayout : vi.datalayout = .flatPlain) {la : ℕ} (hla : la < vi.iSize) :
    dataPlace env vi la =
      if la < vi.sbi.pos (u32 (vi.sbi.blkRoundUp vi.iSize)) then
        some (some (0, vi.sbi.pos vi.iBlkaddr + la))
      else none := by
  obtain ⟨plen, hmap⟩ := @erofsMapBlocks_plain env vi hlayout la hla
  rw [dataPlace, hmap]
  by_cases hin : la < vi.sbi.pos (u32 (vi.sbi.blkRoundUp vi.iSize))
  · rw [if_pos hin, if_pos hin]
    simp
  · rw [if_neg hin, if_neg hin]

theorem mPa_of_hole (hlayout : vi.datalayout = .chunkBased ∨ vi.datalayout = .flatPlain)
    (hsize : 0 < vi.iSize) {map : DataMap} (hmap : erofsMapBlocks env vi { mLa := 0 } = .ok map)
    (hole : ¬ map.mFlags.mapped) : map.mPa = 0 := by
  rcases hlayout with hlayout | hlayout
  · obtain ⟨plen, hnone, hsome⟩ := @erofsMapBlocks_chunk env vi hlayout 0 hsize (Nat.two_pow_pos _)
    rcases hentry : firstEntry env vi with _ | ⟨d, blk⟩
    · rw [hnone hentry] at hmap
      rw [← Except.ok.inj hmap]
    · rw [hsome d blk hentry] at hmap
      rw [← Except.ok.inj hmap] at hole
      exact absurd rfl hole
  · obtain ⟨plen, hmap0⟩ := @erofsMapBlocks_plain env vi hlayout 0 hsize
    rw [hmap0] at hmap
    split at hmap
    · rw [← Except.ok.inj hmap] at hole
      exact absurd rfl hole
    · cases hmap

end Source

section Run

variable {src : RebuildSource} {dstBits chunkbits : ℕ} {vi : DataInode} {idx : Mem}

theorem blobIndexLoop_two (n : ℕ) (r : List BlobChunk × Mem) :
    blobIndexLoop src dstBits vi chunkbits (n + 2) 0 [] idx ≠ .ok r := by
  intro h
  rw [blobIndexLoop] at h
  split at h
  · cases h
  · rw [if_neg (by omega), blobIndexLoop] at h
    split at h
    · cases h
    · rw [if_pos (by omega)] at h
      cases h

def importedChunk (src : RebuildSource) (dstBits : ℕ) (map : DataMap) : BlobChunk :=
  ⟨src.dev, u32 (map.mPa / 2 ^ dstBits), 0⟩

theorem blobIndexLoop_one {map : DataMap} (hmap : erofsMapBlocks src.env vi { mLa := 0 } = .ok map) :
    blobIndexLoop src dstBits vi chunkbits 1 0 [] idx =
      .ok ([importedChunk src dstBits map], store idx 0 (leBytes 8 0)) := by
  have hla : u32 (0 * 2 ^ chunkbits) = 0 := by rw [Nat.zero_mul, u32, Nat.zero_mod]
  rw [blobIndexLoop, hla, hmap]
  rfl

def oneChunkInode (src : RebuildSource) (dstBits chunkbits : ℕ) (map : DataMap) (idx : Mem) :
    ImportedInode where
  chunks := [importedChunk src dstBits map]
  chunkindexes := store idx 0 (leBytes 8 0)
  extentIsize := 8
  chunkformat := 32 ||| (chunkbits - dstBits)

theorem import_cases (hbits : importChunkbits dstBits vi = .ok chunkbits) {inode : ImportedInode}
    (himp : erofsRebuildWriteBlobIndex src dstBits vi idx = .ok inode) :
    inode.extentIsize = 0 ∨ importCount vi chunkbits = 1 ∧
      ∃ map, erofsMapBlocks src.env vi { mLa := 0 } = .ok map ∧
        inode = oneChunkInode src dstBits chunkbits map idx := by
  simp only [erofsRebuildWriteBlobIndex, hbits] at himp
  rcases hcount : importCount vi chunkbits with _ | _ | n
  · rw [hcount, blobIndexLoop] at himp
    exact Or.inl (by rw [← Except.ok.inj himp]; rfl)
  · rw [hcount] at himp
    refine Or.inr ⟨rfl, ?_⟩
    rcases hmap : erofsMapBlocks src.env vi { mLa := 0 } with e | map
    · have hla : u32 (0 * 2 ^ chunkbits) = 0 := by rw [Nat.zero_mul, u32, Nat.zero_mod]
      simp only [blobIndexLoop, hla, hmap] at himp
      cases himp
    · rw [Nat.zero_add, blobIndexLoop_one hmap] at himp
      exact ⟨map, rfl, (Except.ok.inj himp).symm⟩
  · rw [hcount] at himp
    rcases hloop : blobIndexLoop src dstBits vi chunkbits (n + 2) 0 [] idx with e | r
    · rw [hloop] at himp
      cases himp
    · exact absurd hloop (blobIndexLoop_two n r)

theorem import_one (hbits : importChunkbits dstBits vi = .ok chunkbits)
    (hcount : importCount vi chunkbits = 1) {map : DataMap}
    (hmap : erofsMapBlocks src.env vi { mLa := 0 } = .ok map) :
    erofsRebuildWriteBlobIndex src dstBits vi idx =
      .ok (oneChunkInode src dstBits chunkbits map idx) := by
  simp only [erofsRebuildWriteBlobIndex, hbits, hcount, blobIndexLoop_one hmap]
  rfl

theorem importChunkbits_cases (hbits : importChunkbits dstBits vi = .ok chunkbits) :
    dstBits ≤ chunkbits ∧
      (vi.datalayout = .chunkBased ∧ chunkbits = vi.chunkbits ∨
        vi.datalayout = .flatPlain ∧ chunkbits ≤ 31 + dstBits) := by
  rw [importChunkbits] at hbits
  split at hbits
  next hlayout =>
    split at hbits
    · cases hbits
    · have heq := Except.ok.inj hbits
      exact ⟨by omega, Or.inl ⟨hlayout, heq.symm⟩⟩
  next hlayout =>
    have heq := Except.ok.inj hbits
    generalize Nat.log2 (sub64 vi.iSize 1) + 1 = bits at heq
    split_ifs at heq
    · exact ⟨by omega, Or.inr ⟨hlayout, by omega⟩⟩
    · exact ⟨by omega, Or.inr ⟨hlayout, by omega⟩⟩
    · exact ⟨by omega, Or.inr ⟨hlayout, by omega⟩⟩
    · exact ⟨by omega, Or.inr ⟨hlayout, by omega⟩⟩
  · cases hbits

theorem importChunkbits_inside (dstBits : ℕ) (vi : DataInode) :
    importChunkbits dstBits vi ≠ .error .outside := by
  intro h
  rw [importChunkbits] at h
  split at h
  · split at h <;> cases h
  · cases h
  · cases h

theorem importCount_one (hsize : 0 < vi.iSize) (hbits : chunkbits < 64)
    (hle : vi.iSize ≤ 2 ^ chunkbits) : importCount vi chunkbits = 1 := by
  have hpow : 2 ^ chunkbits ≤ 2 ^ 63 := Nat.pow_le_pow_right (by omega) (by omega)
  have hpos := Nat.two_pow_pos chunkbits
  have hdiv : (vi.iSize + (2 ^ chunkbits - 1)) / 2 ^ chunkbits = 1 :=
    Nat.div_eq_of_lt_le (by omega) (by omega)
  rw [importCount, u64_of_lt (by omega), hdiv]
  rfl

end Run

section Exact

variable {src : RebuildSource} {dstBits : ℕ} {vi : DataInode} {idx : Mem} {remappedBase off : ℕ}

/-- The file is one chunk, also for a reader of the new inode, and this chunk is on the device of the
source that the new image has, at a block of the new image. -/
structure OneChunk (src : RebuildSource) (dstBits : ℕ) (vi : DataInode) : Prop where
  size : ∀ chunkbits, importChunkbits dstBits vi = .ok chunkbits →
    vi.iSize ≤ 2 ^ (dstBits + (chunkbits - dstBits) % 32)
  blocks : vi.datalayout = .flatPlain → vi.sbi.blkRoundUp vi.iSize < 2 ^ 32
  dev : src.dev < 2 ^ 16
  place : ∃ a, dataPlace src.env vi 0 = some (some (src.blobDevice, a)) ∧ 2 ^ dstBits ∣ a ∧
    a / 2 ^ dstBits < erofsNullAddr

/-- The blocks of a plain file that has a place everywhere. -/
theorem blocks_lt (hsize : 0 < vi.iSize)
    (hlast : vi.iSize - 1 < vi.sbi.pos (u32 (vi.sbi.blkRoundUp vi.iSize))) :
    vi.sbi.blkRoundUp vi.iSize < 2 ^ 32 := by
  by_contra hge
  have hpos := vi.sbi.blksz_pos
  have hup : (vi.sbi.blkRoundUp vi.iSize - 1) * vi.sbi.blksz < vi.iSize := by
    have h := Nat.div_mul_le_self (vi.iSize + (vi.sbi.blksz - 1)) vi.sbi.blksz
    rw [← SbInfo.blkRoundUp] at h
    rw [Nat.sub_mul, Nat.one_mul]
    have hone : 1 * vi.sbi.blksz ≤ vi.sbi.blkRoundUp vi.iSize * vi.sbi.blksz :=
      Nat.mul_le_mul_right _ (by omega)
    omega
  have hle : u32 (vi.sbi.blkRoundUp vi.iSize) * vi.sbi.blksz ≤
      (vi.sbi.blkRoundUp vi.iSize - 1) * vi.sbi.blksz := by
    apply Nat.mul_le_mul_right
    have h := u32_lt (vi.sbi.blkRoundUp vi.iSize)
    omega
  rw [SbInfo.pos] at hlast
  omega

theorem lt_pos_blocks (hblocks : vi.sbi.blkRoundUp vi.iSize < 2 ^ 32) {la : ℕ} (hla : la < vi.iSize) :
    la < vi.sbi.pos (u32 (vi.sbi.blkRoundUp vi.iSize)) := by
  rw [u32_of_lt hblocks, SbInfo.pos, SbInfo.blkRoundUp, ← roundUp]
  exact hla.trans_le (le_roundUp vi.sbi.blksz_pos)

theorem dataPlace_of_map {la : ℕ} {env : DataEnv} {map : DataMap}
    (hmap : erofsMapBlocks env vi { mLa := la } = .ok map) :
    dataPlace env vi la =
      some (if map.mFlags.mapped then some (map.mDeviceid, map.mPa + (la - map.mLa)) else none) := by
  rw [dataPlace, hmap]

theorem map_of_dataPlace {env : DataEnv} {d a : ℕ} (hplace : dataPlace env vi 0 = some (some (d, a))) :
    ∃ map, erofsMapBlocks env vi { mLa := 0 } = .ok map ∧ map.mFlags.mapped ∧ map.mDeviceid = d ∧
      map.mPa = a := by
  rcases hmap : erofsMapBlocks env vi { mLa := 0 } with e | map
  · rw [dataPlace, hmap] at hplace
    cases hplace
  · rw [dataPlace_of_map hmap, Option.some.injEq] at hplace
    split at hplace
    next hmapped =>
      rw [Option.some.injEq, Prod.mk.injEq, Nat.zero_sub, Nat.add_zero] at hplace
      exact ⟨map, rfl, hmapped, hplace⟩
    · cases hplace

theorem oneChunk_place {chunkbits la : ℕ} {map : DataMap} (hdev : src.dev ≠ 0)
    (hla : la < 2 ^ (dstBits + (chunkbits - dstBits) % 32)) :
    tablePlace ((oneChunkInode src dstBits chunkbits map idx).table dstBits vi remappedBase off)
        dstBits ((oneChunkInode src dstBits chunkbits map idx).chunkbits dstBits) la =
      some (if u32 (map.mPa / 2 ^ dstBits) = erofsNullAddr then none
        else some (u16 src.dev, u32 (map.mPa / 2 ^ dstBits) * 2 ^ dstBits + la)) := by
  have hptr : leNat (oneChunkInode src dstBits chunkbits map idx).chunkindexes 0 8 = 0 :=
    leNat_of_holds_of_lt (holds_store idx 0 (leBytes 8 0)) (by norm_num)
  have hchunkbits : (oneChunkInode src dstBits chunkbits map idx).chunkbits dstBits =
      dstBits + (chunkbits - dstBits) % 32 := by
    rw [ImportedInode.chunkbits, oneChunkInode, format_blkbits]
  rw [← hchunkbits] at hla
  exact tablePlace_one hdev rfl hptr rfl rfl (u32_lt _) hla

/-- A table that keeps the mapping has one entry, which the whole file is in. -/
theorem oneChunk_of_kept (hsize : 0 < vi.iSize) (hdev : src.dev ≠ 0) {inode : ImportedInode}
    (himp : erofsRebuildWriteBlobIndex src dstBits vi idx = .ok inode)
    (hkept : MappingKept src dstBits vi remappedBase off inode) : OneChunk src dstBits vi := by
  obtain ⟨chunkbits, hbits⟩ : ∃ chunkbits, importChunkbits dstBits vi = .ok chunkbits := by
    rcases hbits : importChunkbits dstBits vi with e | chunkbits
    · rw [erofsRebuildWriteBlobIndex, hbits] at himp
      cases himp
    · exact ⟨chunkbits, rfl⟩
  obtain ⟨-, hlayout⟩ := importChunkbits_cases hbits
  -- an offset behind the table has no place
  have hroom : ∀ la < vi.iSize,
      8 * (la / 2 ^ inode.chunkbits dstBits) + 8 ≤ inode.extentIsize := by
    intro la hla
    obtain ⟨p, p', -, htable, -⟩ := hkept la hla
    by_contra hout
    rw [tablePlace, length_table, if_pos (by omega)] at htable
    cases htable
  rcases import_cases hbits himp with hempty | ⟨-, map, hmap, rfl⟩
  · have h := hroom 0 hsize
    omega
  · have hchunkbits : (oneChunkInode src dstBits chunkbits map idx).chunkbits dstBits =
        dstBits + (chunkbits - dstBits) % 32 := by
      rw [ImportedInode.chunkbits, oneChunkInode, format_blkbits]
    have hfile : vi.iSize ≤ 2 ^ (dstBits + (chunkbits - dstBits) % 32) := by
      have h := hroom (vi.iSize - 1) (by omega)
      rw [hchunkbits] at h
      have hzero : (vi.iSize - 1) / 2 ^ (dstBits + (chunkbits - dstBits) % 32) = 0 := by
        simp only [oneChunkInode] at h
        omega
      have hpos := Nat.two_pow_pos (dstBits + (chunkbits - dstBits) % 32)
      rw [Nat.div_eq_zero_iff] at hzero
      omega
    have hlayouts : vi.datalayout = .chunkBased ∨ vi.datalayout = .flatPlain :=
      hlayout.imp And.left And.left
    obtain ⟨p, p', hp, hp', hdevs, hsame⟩ := hkept 0 hsize
    rw [oneChunk_place hdev (by omega), Option.some.injEq] at hp'
    rw [dataPlace_of_map hmap, Option.some.injEq] at hp
    by_cases hmapped : map.mFlags.mapped
    · rw [if_pos hmapped, Nat.zero_sub, Nat.add_zero] at hp
      subst hp
      rw [← hp', Option.map_some] at hsame
      by_cases hnull : u32 (map.mPa / 2 ^ dstBits) = erofsNullAddr
      · rw [if_pos hnull] at hsame
        cases hsame
      · rw [if_neg hnull, Option.some.injEq, Prod.mk.injEq, Nat.add_zero] at hsame
        obtain ⟨hid, heq⟩ := hsame
        have hpos : u32 (map.mPa / 2 ^ dstBits) * 2 ^ dstBits = map.mPa := heq
        have hdvd : 2 ^ dstBits ∣ map.mPa := ⟨_, by rw [Nat.mul_comm]; exact hpos.symm⟩
        have hblk : map.mPa / 2 ^ dstBits = u32 (map.mPa / 2 ^ dstBits) := by
          conv_lhs => rw [← hpos]
          exact Nat.mul_div_cancel _ (Nat.two_pow_pos _)
        have hdevice := hdevs _ rfl
        constructor
        · intro bits hbits'
          rw [hbits] at hbits'
          rw [← Except.ok.inj hbits']
          exact hfile
        · intro hplain
          obtain ⟨q, -, hq, -⟩ := hkept (vi.iSize - 1) (by omega)
          rw [dataPlace_plain hplain (by omega)] at hq
          apply blocks_lt hsize
          by_contra hlast
          rw [if_neg hlast] at hq
          cases hq
        · rw [← hid]
          exact u16_lt _
        · refine ⟨map.mPa, ?_, hdvd, ?_⟩
          · rw [dataPlace_of_map hmap, if_pos hmapped, Nat.zero_sub, Nat.add_zero, ← hdevice]
          · have hlt := u32_lt (map.mPa / 2 ^ dstBits)
            rw [erofsNullAddr] at hnull ⊢
            omega
    · -- a hole is written as block 0
      have hzero := mPa_of_hole hlayouts hsize hmap hmapped
      rw [if_neg hmapped] at hp
      subst hp
      rw [hzero, Nat.zero_div] at hp'
      rw [← hp'] at hsame
      cases hsame

theorem kept_of_oneChunk (hsize : 0 < vi.iSize) (hbits64 : vi.chunkbits < 64) (hdst : dstBits ≤ 16)
    (hdev : src.dev ≠ 0)
    (himp : ∀ e, erofsRebuildWriteBlobIndex src dstBits vi idx = .error e → e = .outside)
    (hone : OneChunk src dstBits vi) :
    ∃ inode, erofsRebuildWriteBlobIndex src dstBits vi idx = .ok inode ∧
      MappingKept src dstBits vi remappedBase off inode := by
  obtain ⟨chunkbits, hbits⟩ : ∃ chunkbits, importChunkbits dstBits vi = .ok chunkbits := by
    rcases hbits : importChunkbits dstBits vi with e | chunkbits
    · have he := himp e (by rw [erofsRebuildWriteBlobIndex, hbits])
      subst he
      exact absurd hbits (importChunkbits_inside dstBits vi)
    · exact ⟨chunkbits, rfl⟩
  obtain ⟨hle, hlayout⟩ := importChunkbits_cases hbits
  have hfile := hone.size chunkbits hbits
  have hpow : 2 ^ (dstBits + (chunkbits - dstBits) % 32) ≤ 2 ^ chunkbits :=
    Nat.pow_le_pow_right (by omega) (by omega)
  have hcount : importCount vi chunkbits = 1 := by
    apply importCount_one hsize _ (hfile.trans hpow)
    rcases hlayout with ⟨-, rfl⟩ | ⟨-, h⟩
    · exact hbits64
    · omega
  obtain ⟨a, hplace, hdvd, hblk⟩ := hone.place
  obtain ⟨map, hmap, hmapped, hdevice, rfl⟩ := map_of_dataPlace hplace
  refine ⟨_, import_one hbits hcount hmap, ?_⟩
  intro la hla
  have hin : la < 2 ^ (dstBits + (chunkbits - dstBits) % 32) := hla.trans_le hfile
  have hblk32 : u32 (map.mPa / 2 ^ dstBits) = map.mPa / 2 ^ dstBits := by
    rw [erofsNullAddr] at hblk
    exact u32_of_lt (by omega)
  refine ⟨some (src.blobDevice, map.mPa + la), some (src.dev, map.mPa + la), ?_, ?_, ?_, rfl⟩
  · rcases hlayout with ⟨hchunk, rfl⟩ | ⟨hplain, -⟩
    · rw [dataPlace_chunk hchunk hsize (Nat.two_pow_pos _), Option.some.injEq,
        Option.map_eq_some_iff] at hplace
      obtain ⟨q, hq, heq⟩ := hplace
      rw [dataPlace_chunk hchunk hla (hin.trans_le hpow), hq, Option.map_some]
      rw [Prod.mk.injEq] at heq
      rw [heq.1, ← heq.2, Nat.add_zero]
    · rw [dataPlace_plain hplain hsize, if_pos (lt_pos_blocks (hone.blocks hplain) hsize),
        Option.some.injEq, Option.some.injEq, Prod.mk.injEq] at hplace
      rw [dataPlace_plain hplain hla, if_pos (lt_pos_blocks (hone.blocks hplain) hla), hplace.1,
        ← hplace.2, Nat.add_zero]
  · rw [oneChunk_place hdev hin, hblk32, if_neg (Nat.ne_of_lt hblk), u16_of_lt hone.dev,
      Nat.div_mul_cancel hdvd]
  · rintro q hq
    rw [← Option.mem_some_iff.mp hq]

/-- A file that is imported keeps its mapping exactly when it is one chunk of the blob, at a block of
the new image. -/
theorem erofsRebuildWriteBlobIndex_kept (hsize : 0 < vi.iSize) (hbits64 : vi.chunkbits < 64)
    (hdst : dstBits ≤ 16) (hdev : src.dev ≠ 0)
    (himp : ∀ e, erofsRebuildWriteBlobIndex src dstBits vi idx = .error e → e = .outside) :
    (∃ inode, erofsRebuildWriteBlobIndex src dstBits vi idx = .ok inode ∧
      MappingKept src dstBits vi remappedBase off inode) ↔ OneChunk src dstBits vi := by
  constructor
  · rintro ⟨inode, hok, hkept⟩
    exact oneChunk_of_kept hsize hdev hok hkept
  · exact kept_of_oneChunk hsize hbits64 hdst hdev himp

end Exact

section Inputs

/-- A file of an image whose blocks of 4096 bytes are all behind block 0. -/
def sourceFile (layout : Datalayout) (size blk : ℕ) : DataInode where
  sbi := ⟨12, 5, 0, false⟩
  zInited := false
  nid := 0
  iSize := size
  datalayout := layout
  inodeIsize := 32
  xattrIsize := 0
  zAdvise := Advise.ofNat 0
  zAlgorithmtype := 0
  zLogicalClusterbits := 0
  idataSize := 0
  zTailextentHeadlcn := 0
  fragmentoff := 0
  iBlkaddr := blk
  chunkIndexes := false
  chunkbits := 12

/-- The first image of a build, without extra devices, whose bytes are all `b`. -/
def firstSource (b : UInt8) : RebuildSource where
  env :=
    { devs := []
      deviceIdMask := 0
      primary := List.replicate 64 b
      blobs := []
      decoder _ _ := .error .eio
      packedPread _ _ := .error .eio }
  dev := 1
  extraDevices := 0

theorem erofsRebuildWriteBlobIndex_kept_plain :
    ∃ inode, erofsRebuildWriteBlobIndex (firstSource 0) 12 (sourceFile .flatPlain 100 3)
        (fun _ => 0) = .ok inode ∧
      MappingKept (firstSource 0) 12 (sourceFile .flatPlain 100 3) 0 0 inode := by
  have hlog : Nat.log2 (sub64 100 1) = 6 := by decide +kernel
  have hbits : importChunkbits 12 (sourceFile .flatPlain 100 3) = .ok 12 := by
    simp only [importChunkbits, sourceFile, hlog]
    rfl
  have hplace : dataPlace (firstSource 0).env (sourceFile .flatPlain 100 3) 0 =
      some (some (0, 12288)) := by decide
  obtain ⟨map, hmap, -, -, -⟩ := map_of_dataPlace hplace
  apply (erofsRebuildWriteBlobIndex_kept (by decide) (by decide) (by decide) (by decide) _).mpr
  · constructor
    · intro chunkbits h
      rw [hbits] at h
      rw [← Except.ok.inj h]
      decide
    · exact fun _ => by decide
    · decide
    · exact ⟨12288, hplace, by decide, by decide⟩
  · intro e h
    rw [import_one hbits (by decide) hmap] at h
    cases h

/-- A file that is a hole becomes a file with the data of block 0; a file with two chunks is written
outside of its memory. -/
theorem erofsRebuildWriteBlobIndex_hole :
    (∃ inode, erofsRebuildWriteBlobIndex (firstSource 255) 12 (sourceFile .chunkBased 100 0)
        (fun _ => 0) = .ok inode ∧
      dataPlace (firstSource 255).env (sourceFile .chunkBased 100 0) 0 = some none ∧
      tablePlace (inode.table 12 (sourceFile .chunkBased 100 0) 0 0) 12 (inode.chunkbits 12) 0 =
        some (some (1, 0)) ∧
      ¬ MappingKept (firstSource 255) 12 (sourceFile .chunkBased 100 0) 0 0 inode) ∧
    erofsRebuildWriteBlobIndex (firstSource 0) 12 (sourceFile .chunkBased 5000 0) (fun _ => 0) =
      .error .outside := by
  have hplace : dataPlace (firstSource 255).env (sourceFile .chunkBased 100 0) 0 = some none := by
    decide
  constructor
  · refine ⟨_, rfl, hplace, by decide, ?_⟩
    intro hkept
    obtain ⟨p, p', hp, hp', -, hsame⟩ := hkept 0 (by decide)
    have htable : some (some (1, 0)) = some p' := hp'
    rw [hplace, Option.some.injEq] at hp
    rw [← hp, ← Option.some.inj htable] at hsame
    cases hsame
  · rfl

end Inputs

end ErofsUtils
