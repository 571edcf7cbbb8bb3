import ErofsUtils.OutFile
import ErofsUtils.RawData

/-!
# Extraction

The two functions named `erofs_verify_inode_data`, of `fsck.erofs` and of `extract.erofs`. Both
walk the extents of a file from its start and write what they read; they differ in what they do
about a hole and in the descriptors they write to.
-/

namespace ErofsUtils

/-- The layouts that are read through `z_erofs_map_blocks_iter`. -/
def Datalayout.compressed : Datalayout → Bool
  | compressedFull | compressedCompact => true
  | flatPlain | flatInline | chunkBased => false

/-- The lookup of the extent at `m_la`, cut at the end of the file. -/
def nextExtent (env : DataEnv) (vi : DataInode) (map : DataMap) :
    Except DataErr (DataInode × DataMap) :=
  let looked : Except DataErr (DataInode × DataMap) :=
    if vi.datalayout.compressed then
      match zErofsMapBlocksIter vi.toInode (env.blkRead vi.sbi) map.toMapBlocks
          { fiemap := true } with
      | .error e => .error (.read e)
      | .ok (filled, m) => .ok ({ vi with toInode := filled }, { map with toMapBlocks := m })
    else match erofsMapBlocks env vi map with
      | .error e => .error e
      | .ok map => .ok (vi, map)
  match looked with
  | .error e => .error e
  | .ok (vi, map) =>
    if ¬ vi.datalayout.compressed ∧ map.mLlen ≠ map.mPlen then .error (.read .efscorrupted)
    else if vi.iSize < u64 (map.mLa + map.mLlen) then
      .ok (vi, { map with mLlen := sub64 vi.iSize map.mLa })
    else .ok (vi, map)

/-- The inner loop on an uncompressed extent: the rest of its length, the offset `p`, and the file
that is written. -/
def copyRawLoop (env : DataEnv) (vi : DataInode) (map : DataMap) (allocRawsize : ℕ)
    (toFile : Bool) : ℕ → ℕ → ℕ → OutFile → Option (Except DataErr Unit × OutFile)
  | 0, _, _, _ => none
  | fuel + 1, llen, p, out =>
    let count := min allocRawsize llen
    match erofsReadOneData env vi map p count with
    | .error e => some (.error e, out)
    | .ok raw =>
      let out := if toFile then out.write raw else out
      if llen - count = 0 then some (.ok (), out)
      else copyRawLoop env vi map allocRawsize toFile fuel (llen - count) (p + count) out

/-- The body of the loops on a mapped extent: the new `buffer_size` and the file. There is no
result when a buffer is overrun, or when the inner loop does not end. -/
def copyExtent (env : DataEnv) (vi : DataInode) (map : DataMap) (toFile : Bool)
    (bufferSize : ℕ) (out : OutFile) : Option (Except DataErr ℕ × OutFile) :=
  if vi.datalayout.compressed then
    if pclusterMaxSize < map.mPlen then some (.error (.read .efscorrupted), out)
    else
      -- `buffer_size` is an `unsigned int`
      let bufferSize := if bufferSize < map.mLlen then u32 map.mLlen else bufferSize
      if bufferSize < map.mLlen then none
      else match zErofsReadOneData env.readEnv vi.toInode map.toMapBlocks 0 map.mLlen false with
        | .error e => some (.error (.read e), out)
        | .ok buffer => some (.ok bufferSize, if toFile then out.write buffer else out)
  else
    let allocRawsize := if pclusterMaxSize < map.mPlen then pclusterMaxSize else map.mPlen
    match copyRawLoop env vi map allocRawsize toFile (map.mLlen + 1) map.mLlen 0 out with
    | none => none
    | some (.error e, out) => some (.error e, out)
    | some (.ok (), out) => some (.ok bufferSize, out)

/-- The loop of `erofs_verify_inode_data` in `fsck.erofs`; `errno` is what earlier calls have left
there, as a successful `lseek` does not set it. -/
def fsckVerifyLoop (env : DataEnv) (checkDecomp : Bool) (outfd : ℤ) (errno : ℕ) :
    ℕ → DataInode → DataMap → ℕ → ℕ → OutFile → Option (Except DataErr Unit × OutFile)
  | fuel, vi, map, pos, bufferSize, out =>
    if vi.iSize ≤ pos then some (.ok (), out)
    else match fuel with
      | 0 => none
      | fuel + 1 =>
        match nextExtent env vi { map with mLa := pos } with
        | .error e => some (.error e, out)
        | .ok (vi, map) =>
          let pos := u64 (pos + map.mLlen)
          if vi.iSize ≤ map.mLa ∨ ¬ checkDecomp then
            fsckVerifyLoop env checkDecomp outfd errno fuel vi map pos bufferSize out
          else if 0 ≤ outfd ∧ ¬ map.mFlags.mapped then
            let out := out.skip map.mLlen
            -- the new offset is stored in an `int`
            if 2 ^ 31 ≤ u32 out.pos then
              some (if errno = 0 then .ok () else .error (.sys errno), out)
            else fsckVerifyLoop env checkDecomp outfd errno fuel vi map pos bufferSize out
          else match copyExtent env vi map (decide (0 ≤ outfd)) bufferSize out with
            | none => none
            | some (.error e, out) => some (.error e, out)
            | some (.ok bufferSize, out) =>
              fsckVerifyLoop env checkDecomp outfd errno fuel vi map pos bufferSize out

/-- `erofs_verify_inode_data` of `fsck.erofs` on a descriptor that has just been opened. -/
def fsckVerifyInodeData (env : DataEnv) (vi : DataInode) (checkDecomp : Bool) (outfd : ℤ)
    (errno : ℕ) : Option (Except DataErr Unit × OutFile) :=
  fsckVerifyLoop env checkDecomp outfd errno vi.iSize vi {} 0 0 .empty

/-- The loop of `erofs_verify_inode_data` in `extract.erofs`. -/
def extractVerifyLoop (env : DataEnv) (checkDecomp : Bool) (outfd : ℤ) :
    ℕ → DataInode → DataMap → ℕ → ℕ → OutFile → Option (Except DataErr Unit × OutFile)
  | fuel, vi, map, pos, bufferSize, out =>
    if vi.iSize ≤ pos then some (.ok (), out)
    else match fuel with
      | 0 => none
      | fuel + 1 =>
        match nextExtent env vi { map with mLa := pos } with
        | .error e => some (.error e, out)
        | .ok (vi, map) =>
          let pos := u64 (pos + map.mLlen)
          if ¬ map.mFlags.mapped ∨ ¬ checkDecomp then
            extractVerifyLoop env checkDecomp outfd fuel vi map pos bufferSize out
          else match copyExtent env vi map (decide (0 < outfd)) bufferSize out with
            | none => none
            | some (.error e, out) => some (.error e, out)
            | some (.ok bufferSize, out) =>
              extractVerifyLoop env checkDecomp outfd fuel vi map pos bufferSize out

/-- `erofs_verify_inode_data` of `extract.erofs`. -/
def extractVerifyInodeData (env : DataEnv) (vi : DataInode) (checkDecomp : Bool) (outfd : ℤ) :
    Option (Except DataErr Unit × OutFile) :=
  extractVerifyLoop env checkDecomp outfd vi.iSize vi {} 0 0 .empty

end ErofsUtils
