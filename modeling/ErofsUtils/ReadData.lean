import ErofsUtils.ZmapBlocks

/-!
# Reading compressed data

`z_erofs_read_data` walks the extents of a range backwards, from its end: each turn looks
up the last byte that is still missing, decodes the part of that extent which lies in the
range, and stores it in the caller's buffer. The buffer is a region of a memory, so that a
write outside of it would be seen. The scratch buffers of the reader and the decoders are
their own allocations and are not part of that memory.
-/

namespace ErofsUtils
open ByteMemory

/-- `struct z_erofs_decompress_req` without its output buffer. -/
structure DecompressReq where
  input : List UInt8
  decodedskip : ℕ
  inputsize : ℕ
  decodedlength : ℕ
  interlacedOffset : ℕ
  alg : AlgorithmFormat
  partialDecoding : Bool
  deriving DecidableEq, Repr

/-- What a read uses besides the inode: the extra devices as mapped block and block count,
`erofs_dev_read` on the primary device, the decoders of the compression libraries by
algorithm, and `erofs_pread` on the packed inode. -/
structure ReadEnv where
  devs : List (ℕ × ℕ)
  devRead : ℕ → ℕ → Except Errno (List UInt8)
  decoder : ℕ → DecompressReq → Except Errno (List UInt8)
  packedPread : ℕ → ℕ → Except Errno (List UInt8)

/-- `erofs_map_dev` for device 0: the physical address on the device it lies on. -/
def erofsMapDev (sbi : SbInfo) : List (ℕ × ℕ) → ℕ → ℕ
  | [], pa => pa
  | (mappedBlkaddr, blocks) :: devs, pa =>
    if mappedBlkaddr ≠ 0 ∧ sbi.pos mappedBlkaddr ≤ pa ∧
        pa < sbi.pos mappedBlkaddr + sbi.pos blocks
    then pa - sbi.pos mappedBlkaddr
    else erofsMapDev sbi devs pa

/-- `z_erofs_decompress`; returns the bytes stored at `out`. -/
def zErofsDecompress (sbi : SbInfo) (env : ReadEnv) (rq : DecompressReq) :
    Except Errno (List UInt8) :=
  match rq.alg with
  | .interlaced =>
    if sbi.blksz < rq.inputsize then .error .efscorrupted
    else if sbi.blksz < rq.decodedlength then .error .efscorrupted
    else if rq.decodedlength < rq.decodedskip then .error .efscorrupted
    else
      let count := rq.decodedlength - rq.decodedskip
      let skip := sbi.blkoff (rq.interlacedOffset + rq.decodedskip)
      let rightpart := min (sbi.blksz - skip) count
      .ok ((rq.input.drop skip).take rightpart ++ rq.input.take (count - rightpart))
  | .shifted =>
    if rq.inputsize < rq.decodedlength then .error .efscorrupted
    else .ok ((rq.input.drop rq.decodedskip).take (rq.decodedlength - rq.decodedskip))
  | .alg id => env.decoder id rq

/-- `z_erofs_read_one_data`; returns the bytes stored at `buffer`. -/
def zErofsReadOneData (env : ReadEnv) (vi : Inode) (map : MapBlocks) (skip length : ℕ)
    (trimmed : Bool) : Except Errno (List UInt8) :=
  if map.mFlags.fragment then
    env.packedPread (sub64 length skip) (u64 (vi.fragmentoff + skip))
  else match env.devRead (erofsMapDev vi.sbi env.devs map.mPa) map.mPlen with
    | .error e => .error e
    | .ok raw =>
      zErofsDecompress vi.sbi env {
        input := raw
        decodedskip := u32 skip
        inputsize := u32 map.mPlen
        decodedlength := u32 length
        interlacedOffset :=
          if map.mAlgorithmformat = .interlaced then vi.sbi.blkoff map.mLa else 0
        alg := map.mAlgorithmformat
        partialDecoding := if trimmed then true
          else !map.mFlags.fullMapped || map.mFlags.partialRef }

/-- The loop of `z_erofs_read_data` on the range that ends at `endp`; it stops after `fuel`
turns at the latest. Returns the memory and the result. -/
def zErofsReadDataLoop (env : ReadEnv) (blk : BlkRead) (buffer offset : ℕ) :
    ℕ → Inode → MapBlocks → Mem → ℕ → Option (Mem × Except Errno Unit)
  | fuel, vi, map, mem, endp =>
    if endp ≤ offset then some (mem, .ok ())
    else match fuel with
      | 0 => none
      | fuel + 1 =>
        match zErofsMapBlocksIter vi blk { map with mLa := endp - 1 } {} with
        | .error e => some (mem, .error e)
        | .ok (vi, map) =>
          let trimmed := decide (endp < u64 (map.mLa + map.mLlen))
          let length := if trimmed then sub64 endp map.mLa else map.mLlen
          let skip := if map.mLa < offset then offset - map.mLa else 0
          let endp := if map.mLa < offset then offset else map.mLa
          if ¬ map.mFlags.mapped then
            zErofsReadDataLoop env blk buffer offset fuel vi map
              (store mem (buffer + (endp - offset)) (List.replicate (sub64 length skip) 0))
              map.mLa
          else match zErofsReadOneData env vi map skip length trimmed with
            | .error e => some (mem, .error e)
            | .ok bs =>
              zErofsReadDataLoop env blk buffer offset fuel vi map
                (store mem (buffer + (endp - offset)) bs) endp

/-- `z_erofs_read_data`; every turn of the loop reads at least one byte. -/
def zErofsReadData (env : ReadEnv) (blk : BlkRead) (vi : Inode) (mem : Mem)
    (buffer size offset : ℕ) : Option (Mem × Except Errno Unit) :=
  zErofsReadDataLoop env blk buffer offset size vi {} mem (u64 (offset + size))

/-- `erofs_pread` on a compressed inode, as its own buffer of `count` bytes. -/
def erofsPread (env : ReadEnv) (blk : BlkRead) (vi : Inode) (count offset : ℕ) :
    Except Errno (List UInt8) :=
  match zErofsReadData env blk vi (fun _ => 0) 0 count offset with
  | some (mem, .ok ()) => .ok ((List.range count).map mem)
  | some (_, .error e) => .error e
  | none => .error .eio

/-- Byte `pos` of a file; past its end there are zeroes. -/
def fileByte (data : List UInt8) (pos : ℕ) : UInt8 := (data[pos]?).getD 0

theorem fileByte_append_left {bs cs : List UInt8} {i : ℕ} (h : i < bs.length) :
    fileByte (bs ++ cs) i = fileByte bs i := by
  rw [fileByte, List.getElem?_append_left h, fileByte]

theorem fileByte_append_right {bs cs : List UInt8} {i : ℕ} (h : bs.length ≤ i) :
    fileByte (bs ++ cs) i = fileByte cs (i - bs.length) := by
  rw [fileByte, List.getElem?_append_right h, fileByte]

def fileBytes (data : List UInt8) (a b : ℕ) : List UInt8 :=
  (List.range (b - a)).map fun i => fileByte data (a + i)

@[simp] theorem length_fileBytes (data : List UInt8) (a b : ℕ) :
    (fileBytes data a b).length = b - a := by simp [fileBytes]

theorem getElem?_fileBytes {data : List UInt8} {a b i : ℕ} (h : i < b - a) :
    (fileBytes data a b)[i]? = some (fileByte data (a + i)) := by
  rw [fileBytes, List.getElem?_map, List.getElem?_range h]
  rfl

theorem eq_fileBytes {data bs : List UInt8} {a b : ℕ} (hlen : bs.length = b - a)
    (h : ∀ i < b - a, bs[i]? = some (fileByte data (a + i))) : bs = fileBytes data a b := by
  apply List.ext_getElem?
  intro i
  rcases Nat.lt_or_ge i (b - a) with hi | hi
  · rw [h i hi, getElem?_fileBytes hi]
  · rw [List.getElem?_eq_none (by omega), List.getElem?_eq_none (by simpa using hi)]

end ErofsUtils
