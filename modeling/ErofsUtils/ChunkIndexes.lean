import ErofsUtils.BlockRuns
import ErofsUtils.CString
import ErofsUtils.KiteHuffman
import ErofsUtils.RawData

/-!
# Chunk indexes and block lists

`erofs_blob_write_chunk_indexes` turns the pointers in `inode->chunkindexes` into the indexes of the
image, in the same memory, and reports the extents of the primary device to the block lists on the
way. Pointers have eight bytes.
-/

namespace ErofsUtils
open ByteMemory BlockRuns

/-- `struct erofs_blobchunk` without the members of the deduplication. -/
structure BlobChunk where
  deviceId : ℕ
  blkaddr : ℕ
  sourceoffset : ℕ

namespace BlobChunk

def IsHole (c : BlobChunk) : Prop := c.blkaddr = erofsNullAddr

def OnDevice (c : BlobChunk) : Prop := c.blkaddr ≠ erofsNullAddr ∧ c.deviceId ≠ 0

instance (c : BlobChunk) : Decidable c.IsHole := inferInstanceAs (Decidable (_ = _))

instance (c : BlobChunk) : Decidable c.OnDevice := inferInstanceAs (Decidable (_ ∧ _))

end BlobChunk

/-- An extent that both block lists get. Its place in the file is not printed: `run.pos` is the
number of the file block at which its first chunk begins. -/
structure BlockExtent where
  run : Run
  srcoff : ℕ
  firstExtent : Bool

/-- A chunk-based inode before its indexes are written: the chunks that the pointers in
`chunkindexes` point to, `i_size` in blocks, `EROFS_CHUNK_FORMAT_INDEXES`, and the logarithm of the
number of blocks of a chunk. -/
structure ChunkInode where
  chunkAt : ℕ → BlobChunk
  chunkindexes : Mem
  extentIsize : ℕ
  blocks : ℕ
  indexes : Bool
  blkbits : ℕ

/-- The variables of the loop of `erofs_blob_write_chunk_indexes`; `extentPos` is the file block of
the chunk at `extent_start`. -/
structure IndexState where
  chunkindexes : Mem
  remainingBlks : ℕ
  extentStart : ℕ
  extentEnd : ℕ
  sourceOffset : ℕ
  firstExtent : Bool
  extentPos : ℕ
  reported : List BlockExtent

namespace ChunkInode

variable (inode : ChunkInode) (remappedBase : ℕ)

def unit : ℕ := if inode.indexes then 8 else 4

def chunkblks : ℕ := 2 ^ inode.blkbits

def idxBlkaddr (chunk : BlobChunk) : ℕ :=
  if chunk.IsHole then erofsNullAddr
  else if chunk.deviceId ≠ 0 then chunk.blkaddr
  else u32 (remappedBase + chunk.blkaddr)

def encodeIndex (chunk : BlobChunk) : List UInt8 :=
  if inode.indexes then
    leBytes 2 0 ++ leBytes 2 chunk.deviceId ++ leBytes 4 (idxBlkaddr remappedBase chunk)
  else leBytes 4 (idxBlkaddr remappedBase chunk)

/-- One turn of the loop, for the chunk with the number `k`. -/
def indexTurn (k : ℕ) (s : IndexState) : IndexState :=
  let chunk := inode.chunkAt (leNat s.chunkindexes (8 * k) 8)
  let blkaddr := idxBlkaddr remappedBase chunk
  let extentStart := if chunk.OnDevice then erofsNullAddr else s.extentStart
  let table := store s.chunkindexes (inode.unit * k) (inode.encodeIndex remappedBase chunk)
  let extentEnd := u32 (blkaddr + inode.chunkblks)
  if extentStart = erofsNullAddr ∨ blkaddr ≠ s.extentEnd then
    if extentStart ≠ erofsNullAddr then
      { s with
        chunkindexes := table
        remainingBlks := sub32 s.remainingBlks (sub32 s.extentEnd extentStart)
        extentStart := blkaddr
        extentEnd := extentEnd
        sourceOffset := chunk.sourceoffset
        firstExtent := false
        extentPos := k * inode.chunkblks
        reported := s.reported ++ [⟨⟨s.extentPos, extentStart, sub32 s.extentEnd extentStart⟩,
          s.sourceOffset, s.firstExtent⟩] }
    else
      { s with
        chunkindexes := table
        extentStart := blkaddr
        extentEnd := extentEnd
        sourceOffset := chunk.sourceoffset
        extentPos := k * inode.chunkblks }
  else { s with chunkindexes := table, extentStart := extentStart, extentEnd := extentEnd }

def indexLoop : ℕ → ℕ → IndexState → IndexState
  | 0, _, s => s
  | n + 1, k, s => indexLoop n (k + 1) (inode.indexTurn remappedBase k s)

/-- How many turns the loop makes: `dst` goes up to `extent_isize` by `unit`. -/
def chunkCount : ℕ := (inode.extentIsize + (inode.unit - 1)) / inode.unit

def initIndexState : IndexState where
  chunkindexes := inode.chunkindexes
  remainingBlks := u32 inode.blocks
  extentStart := erofsNullAddr
  extentEnd := 0
  sourceOffset := 0
  firstExtent := true
  extentPos := 0
  reported := []

/-- The extent that is reported behind the loop, cut at the end of the file. -/
def lastExtent (s : IndexState) : List BlockExtent :=
  let extentEnd := min s.extentEnd (u32 (s.extentStart + s.remainingBlks))
  if s.extentStart ≠ erofsNullAddr then
    [⟨⟨s.extentPos, s.extentStart, sub32 extentEnd s.extentStart⟩, s.sourceOffset, s.firstExtent⟩]
  else []

/-- `erofs_blob_write_chunk_indexes`: the extents that the block lists get, which print none
without blocks, and the table that is written to the image at `off` rounded up. -/
def erofsBlobWriteChunkIndexes (off : ℕ) : List BlockExtent × List UInt8 × ℕ :=
  let s := inode.indexLoop remappedBase inode.chunkCount 0 inode.initIndexState
  ((s.reported ++ lastExtent s).filter (0 < ·.run.len),
    CString.slice s.chunkindexes 0 inode.extentIsize, roundUp off inode.unit)

def chunks : List BlobChunk :=
  (List.range inode.chunkCount).map fun k => inode.chunkAt (leNat inode.chunkindexes (8 * k) 8)

end ChunkInode

end ErofsUtils
