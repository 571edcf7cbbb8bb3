import ErofsUtils.ReadData

/-!
# Reading data that is not compressed

`erofs_map_blocks` for flat and chunk-based inodes, `erofs_map_dev` with its device ids, and
`erofs_read_raw_data`. The devices of an image are byte strings; a read past the end of one is
padded with zeroes, as `erofs_dev_read` does.
-/

namespace ErofsUtils
open ByteMemory

def erofsNullAddr : ℕ := 2 ^ 32 - 1

/-- The fields of `struct erofs_inode` that locate uncompressed data: `u.i_blkaddr`, and
`u.chunkformat` with `u.chunkbits`. -/
structure DataInode extends Inode where
  iBlkaddr : ℕ
  chunkIndexes : Bool
  chunkbits : ℕ

/-- An image with its extra devices: mapped block and block count of each, `device_id_mask`, the
bytes of the primary device and of the blobs, the decoders, and `erofs_pread` on the packed
inode. -/
structure DataEnv where
  devs : List (ℕ × ℕ)
  deviceIdMask : ℕ
  primary : List UInt8
  blobs : List (List UInt8)
  decoder : ℕ → DecompressReq → Except Errno (List UInt8)
  packedPread : ℕ → ℕ → Except Errno (List UInt8)

namespace DataEnv

variable (env : DataEnv)

def devRead (deviceId offset len : ℕ) : Except Errno (List UInt8) :=
  match (env.primary :: env.blobs)[deviceId]? with
  | none => .error .eio
  | some dev => .ok (fileBytes dev offset (offset + len))

def blkRead (sbi : SbInfo) : BlkRead := fun blk =>
  some fun i => fileByte env.primary (sbi.pos blk + i)

def readEnv : ReadEnv where
  devs := env.devs
  devRead := env.devRead 0
  decoder := env.decoder
  packedPread := env.packedPread

end DataEnv

/-- `struct erofs_map_blocks` with its device. -/
structure DataMap extends MapBlocks where
  mDeviceid : ℕ := 0

/-- Why a file is not read or written: an error of the readers, `-ENODEV`, or the `errno` that a
system call has left. -/
inductive DataErr
  | read (e : Errno)
  | enodev
  | sys (errno : ℕ)
  deriving DecidableEq, Repr

def erofsMapBlocksFlatmode (vi : DataInode) (map : DataMap) : Except DataErr DataMap :=
  let sbi := vi.sbi
  let offset := map.mLa
  let tailendpacking := vi.datalayout = .flatInline
  let lastblk := u32 (sbi.blkRoundUp vi.iSize) - if tailendpacking then 1 else 0
  if offset < sbi.pos lastblk then
    .ok { map with
      mPa := sbi.pos vi.iBlkaddr + map.mLa
      mPlen := sbi.pos lastblk - offset
      mLlen := sbi.pos lastblk - offset
      mFlags := { mapped := true } }
  else if tailendpacking then
    let pa := vi.iloc + vi.inodeIsize + vi.xattrIsize + sbi.blkoff map.mLa
    if sbi.blksz < sbi.blkoff pa + (vi.iSize - offset) then .error (.read .efscorrupted)
    else .ok { map with
      mPa := pa
      mPlen := vi.iSize - offset
      mLlen := vi.iSize - offset
      mFlags := { mapped := true, inMeta := true } }
  else .error (.read .eio)

def chunkEntryPos (vi : DataInode) (chunknr : ℕ) : ℕ :=
  let unit := if vi.chunkIndexes then 8 else 4
  roundUp (vi.iloc + vi.inodeIsize + vi.xattrIsize) unit + unit * chunknr

/-- The entry of a chunk at `p`: its device and block, or a hole. -/
def chunkEntry (env : DataEnv) (vi : DataInode) (buf : Mem) (p : ℕ) : Option (ℕ × ℕ) :=
  if vi.chunkIndexes then
    if leNat buf (p + 4) 4 = erofsNullAddr then none
    else some (leNat buf (p + 2) 2 &&& env.deviceIdMask, leNat buf (p + 4) 4)
  else if leNat buf p 4 = erofsNullAddr then none
  else some (0, leNat buf p 4)

def erofsMapBlocks (env : DataEnv) (vi : DataInode) (map : DataMap) : Except DataErr DataMap :=
  let map := { map with mDeviceid := 0 }
  if vi.iSize ≤ map.mLa then .ok { map with mFlags := {}, mPlen := 0, mLlen := 0 }
  else if vi.datalayout ≠ .chunkBased then erofsMapBlocksFlatmode vi map
  else
    let sbi := vi.sbi
    let chunknr := map.mLa / 2 ^ vi.chunkbits
    let pos := chunkEntryPos vi chunknr
    match env.blkRead sbi (sbi.blknr pos) with
    | none => .error (.read .eio)
    | some buf =>
      let la := chunknr * 2 ^ vi.chunkbits
      let plen := min (2 ^ vi.chunkbits) (roundUp (vi.iSize - la) sbi.blksz)
      let map := { map with mLa := la, mPlen := plen, mLlen := plen }
      match chunkEntry env vi buf (sbi.blkoff pos) with
      | none => .ok { map with mFlags := {} }
      | some (deviceId, blkaddr) => .ok { map with
          mDeviceid := deviceId
          mPa := sbi.pos blkaddr
          mFlags := { mapped := true } }

def erofsMapDevId (env : DataEnv) (sbi : SbInfo) (deviceId pa : ℕ) : Except DataErr ℕ :=
  if deviceId ≠ 0 then
    if env.devs.length < deviceId then .error .enodev else .ok pa
  else .ok (erofsMapDev sbi env.devs pa)

/-- `erofs_read_one_data`; returns the bytes stored at `buffer`. -/
def erofsReadOneData (env : DataEnv) (vi : DataInode) (map : DataMap) (offset len : ℕ) :
    Except DataErr (List UInt8) :=
  match erofsMapDevId env vi.sbi map.mDeviceid map.mPa with
  | .error e => .error e
  | .ok pa =>
    match env.devRead map.mDeviceid (pa + offset) len with
    | .error _ => .error (.read .eio)
    | .ok bs => .ok bs

/-- The loop of `erofs_read_raw_data` up to `last`, with the bytes stored so far. A lookup that
returns an empty mapped range repeats for ever: such a read has no result. -/
def erofsReadRawDataLoop (env : DataEnv) (vi : DataInode) (last : ℕ) :
    ℕ → DataMap → ℕ → List UInt8 → Option (Except DataErr (List UInt8))
  | fuel, map, ptr, buffer =>
    if last ≤ ptr then some (.ok buffer)
    else match fuel with
      | 0 => none
      | fuel + 1 =>
        match erofsMapBlocks env vi { map with mLa := ptr } with
        | .error e => some (.error e)
        | .ok map =>
          let eend := min last (u64 (map.mLa + map.mLlen))
          if ¬ map.mFlags.mapped then
            if map.mLlen = 0 then
              -- reached EOF
              erofsReadRawDataLoop env vi last fuel map last
                (buffer ++ List.replicate (last - ptr) 0)
            else
              erofsReadRawDataLoop env vi last fuel map eend
                (buffer ++ List.replicate (eend - ptr) 0)
          else
            let moff := if map.mLa < ptr then ptr - map.mLa else 0
            let map := if map.mLa < ptr then { map with mLa := ptr } else map
            match erofsReadOneData env vi map moff (eend - map.mLa) with
            | .error e => some (.error e)
            | .ok bs => erofsReadRawDataLoop env vi last fuel map eend (buffer ++ bs)

/-- `erofs_read_raw_data`; every turn of the loop reads at least one byte. -/
def erofsReadRawData (env : DataEnv) (vi : DataInode) (size offset : ℕ) :
    Option (Except DataErr (List UInt8)) :=
  erofsReadRawDataLoop env vi (u64 (offset + size)) size {} offset []

def erofsPreadData (env : DataEnv) (vi : DataInode) (count offset : ℕ) :
    Option (Except DataErr (List UInt8)) :=
  match vi.datalayout with
  | .flatPlain | .flatInline | .chunkBased => erofsReadRawData env vi count offset
  | .compressedFull | .compressedCompact =>
    match erofsPread env.readEnv (env.blkRead vi.sbi) vi.toInode count offset with
    | .ok bs => some (.ok bs)
    | .error e => some (.error (.read e))

end ErofsUtils
