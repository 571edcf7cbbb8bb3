import ErofsUtils.CString
import ErofsUtils.Checksums
import ErofsUtils.Layout

/-!
# The superblock

What `mkfs` writes for a mount to start from, and how it is read: the superblock itself, the
compression configurations that follow it, the device table, and the long xattr name prefixes.
-/

namespace ErofsUtils
open ByteMemory CString

def zeroPad (n : ℕ) : List UInt8 := List.replicate n 0

def erofsSuperMagicV1 : ℕ := 0xE0F5E1E2
def erofsSuperOffset : ℕ := 1024
def erofsSuperEnd : ℕ := erofsSuperOffset + 128

structure SuperBlock where
  magic : ℕ
  checksum : ℕ
  featureCompat : ℕ
  blkszbits : ℕ
  sbExtslots : ℕ
  rootNid : ℕ
  inos : ℕ
  buildTime : ℕ
  buildTimeNsec : ℕ
  blocks : ℕ
  metaBlkaddr : ℕ
  xattrBlkaddr : ℕ
  uuid : List UInt8
  volumeName : List UInt8
  featureIncompat : ℕ
  u1 : ℕ
  extraDevices : ℕ
  devtSlotoff : ℕ
  dirblkbits : ℕ
  xattrPrefixCount : ℕ
  xattrPrefixStart : ℕ
  packedNid : ℕ
  xattrFilterReserved : ℕ
  reserved2 : List UInt8

namespace SuperBlock

def encode (sb : SuperBlock) : List UInt8 :=
  leBytes 4 sb.magic ++ (leBytes 4 sb.checksum ++ (leBytes 4 sb.featureCompat ++
  (leBytes 1 sb.blkszbits ++ (leBytes 1 sb.sbExtslots ++ (leBytes 2 sb.rootNid ++
  (leBytes 8 sb.inos ++ (leBytes 8 sb.buildTime ++ (leBytes 4 sb.buildTimeNsec ++
  (leBytes 4 sb.blocks ++ (leBytes 4 sb.metaBlkaddr ++ (leBytes 4 sb.xattrBlkaddr ++
  (sb.uuid ++ (sb.volumeName ++ (leBytes 4 sb.featureIncompat ++ (leBytes 2 sb.u1 ++
  (leBytes 2 sb.extraDevices ++ (leBytes 2 sb.devtSlotoff ++ (leBytes 1 sb.dirblkbits ++
  (leBytes 1 sb.xattrPrefixCount ++ (leBytes 4 sb.xattrPrefixStart ++
  (leBytes 8 sb.packedNid ++ (leBytes 1 sb.xattrFilterReserved ++
  sb.reserved2))))))))))))))))))))))

def decode (mem : Mem) (pos : ℕ) : SuperBlock where
  magic := leNat mem pos 4
  checksum := leNat mem (pos + 4) 4
  featureCompat := leNat mem (pos + 8) 4
  blkszbits := leNat mem (pos + 12) 1
  sbExtslots := leNat mem (pos + 13) 1
  rootNid := leNat mem (pos + 14) 2
  inos := leNat mem (pos + 16) 8
  buildTime := leNat mem (pos + 24) 8
  buildTimeNsec := leNat mem (pos + 32) 4
  blocks := leNat mem (pos + 36) 4
  metaBlkaddr := leNat mem (pos + 40) 4
  xattrBlkaddr := leNat mem (pos + 44) 4
  uuid := slice mem (pos + 48) 16
  volumeName := slice mem (pos + 64) 16
  featureIncompat := leNat mem (pos + 80) 4
  u1 := leNat mem (pos + 84) 2
  extraDevices := leNat mem (pos + 86) 2
  devtSlotoff := leNat mem (pos + 88) 2
  dirblkbits := leNat mem (pos + 90) 1
  xattrPrefixCount := leNat mem (pos + 91) 1
  xattrPrefixStart := leNat mem (pos + 92) 4
  packedNid := leNat mem (pos + 96) 8
  xattrFilterReserved := leNat mem (pos + 104) 1
  reserved2 := slice mem (pos + 105) 23

end SuperBlock

def featureCompatSbChksum : ℕ := 0x00000001
def featureIncompatDeviceTable : ℕ := 0x00000008
def allFeatureIncompat : ℕ := 0x7f

/-- `struct erofs_deviceslot`; `mappedBlkaddr` is `0` until the table is written. -/
structure DeviceSlot where
  tag : List UInt8
  blocks : ℕ
  mappedBlkaddr : ℕ
  deriving DecidableEq

def erofsDevtSlotSize : ℕ := 128

def DeviceSlot.encode (d : DeviceSlot) : List UInt8 :=
  d.tag ++ (leBytes 4 d.blocks ++ (leBytes 4 d.mappedBlkaddr ++ zeroPad 56))

def DeviceSlot.decode (mem : Mem) (pos : ℕ) : DeviceSlot where
  tag := slice mem pos 64
  blocks := leNat mem (pos + 64) 4
  mappedBlkaddr := leNat mem (pos + 68) 4

structure ComprSettings where
  lz4MaxDistance : ℕ
  pclustersizeMax : ℕ
  maxDictSize : ℕ → ℕ

/-- `struct erofs_sb_info` when `mkfs` writes the superblock. -/
structure MkfsSb where
  blkszbits : ℕ
  featureCompat : ℕ
  featureIncompat : ℕ
  rootNid : ℕ
  inos : ℕ
  buildTime : ℕ
  buildTimeNsec : ℕ
  metaBlkaddr : ℕ
  xattrBlkaddr : ℕ
  xattrPrefixStart : ℕ
  xattrPrefixes : List (UInt8 × List UInt8)
  packedNid : ℕ
  uuid : List UInt8
  volumeName : List UInt8
  availableComprAlgs : ℕ
  compr : ComprSettings
  devs : List DeviceSlot
  devtSlotoff : ℕ

namespace MkfsSb

variable (sbi : MkfsSb)

def hasSbChksum : Bool := sbi.featureCompat.testBit 0

def hasComprCfgs : Bool := sbi.featureIncompat.testBit 1

def hasDeviceTable : Bool := sbi.featureIncompat.testBit 3

/-- The superblock that `erofs_writesb` fills in. -/
def superBlock (blocks : ℕ) : SuperBlock where
  magic := erofsSuperMagicV1
  checksum := 0
  featureCompat := sbi.featureCompat - sbi.featureCompat % 2
  blkszbits := sbi.blkszbits
  sbExtslots := 0
  rootNid := u16 sbi.rootNid
  inos := sbi.inos
  buildTime := sbi.buildTime
  buildTimeNsec := sbi.buildTimeNsec
  blocks := blocks
  metaBlkaddr := sbi.metaBlkaddr
  xattrBlkaddr := sbi.xattrBlkaddr
  uuid := sbi.uuid
  volumeName := sbi.volumeName
  featureIncompat := sbi.featureIncompat
  u1 := if sbi.hasComprCfgs then sbi.availableComprAlgs else sbi.compr.lz4MaxDistance
  extraDevices := sbi.devs.length
  devtSlotoff := sbi.devtSlotoff
  dirblkbits := 0
  xattrPrefixCount := sbi.xattrPrefixes.length
  xattrPrefixStart := sbi.xattrPrefixStart
  packedNid := sbi.packedNid
  xattrFilterReserved := 0
  reserved2 := zeroPad 23

/-- `erofs_writesb`: `EROFS_SUPER_END` bytes at the start of the device. -/
def erofsWritesb (blocks : ℕ) (disk : Mem) : Mem :=
  store disk 0 (zeroPad erofsSuperOffset ++ (sbi.superBlock blocks).encode)

/-- `erofs_enable_sb_chksum`. Only the first block is written back. -/
def erofsEnableSbChksum (disk : Mem) : Mem :=
  let blksz := 2 ^ sbi.blkszbits
  let sb := SuperBlock.decode disk erofsSuperOffset
  if sb.magic ≠ erofsSuperMagicV1 then disk
  else
    let sb := { sb with featureCompat := sb.featureCompat ||| featureCompatSbChksum }
    let buf := store disk erofsSuperOffset sb.encode
    let len := if erofsSuperOffset < blksz then blksz - erofsSuperOffset else blksz
    let crc := erofsCrc32c 0xFFFFFFFF (slice buf erofsSuperOffset len)
    let buf := store disk erofsSuperOffset { sb with checksum := crc.toNat }.encode
    fun k => if k < blksz then buf k else disk k

/-! ### What is written besides -/

def lz4Cfgs : List UInt8 :=
  leBytes 2 sbi.compr.lz4MaxDistance ++
    (leBytes 2 (sbi.compr.pclustersizeMax / 2 ^ sbi.blkszbits) ++ zeroPad 10)

def lzmaCfgs : List UInt8 := leBytes 4 (sbi.compr.maxDictSize 1) ++ zeroPad 10

def deflateCfgs : List UInt8 := leBytes 1 (Nat.log2 (sbi.compr.maxDictSize 2)) ++ zeroPad 5

def zstdCfgs : List UInt8 :=
  zeroPad 1 ++ (leBytes 1 (Nat.log2 (sbi.compr.maxDictSize 3) - 10) ++ zeroPad 4)

/-- The record of an algorithm: the size of its configuration, and the configuration. -/
def comprRecord (alg : ℕ) (cfgs : List UInt8) : List UInt8 :=
  if sbi.availableComprAlgs.testBit alg then leBytes 2 cfgs.length ++ cfgs else []

/-- `z_erofs_build_compr_cfgs`: the records of the algorithms, one after the other. -/
def comprCfgs : List UInt8 :=
  sbi.comprRecord 0 sbi.lz4Cfgs ++ (sbi.comprRecord 1 sbi.lzmaCfgs ++
    (sbi.comprRecord 2 sbi.deflateCfgs ++ sbi.comprRecord 3 sbi.zstdCfgs))

def zErofsBuildComprCfgs (disk : Mem) : Mem :=
  if sbi.hasComprCfgs then store disk erofsSuperEnd sbi.comprCfgs else disk

end MkfsSb

/-- The slots of the device table; the devices are mapped one after the other, from `nblocks` on. -/
def deviceSlots : ℕ → List DeviceSlot → List DeviceSlot
  | _, [] => []
  | nblocks, d :: ds => { d with mappedBlkaddr := nblocks } :: deviceSlots (u32 (nblocks + d.blocks)) ds

/-- `erofs_mkfs_init_devices` when `erofs_btell(bh_devt)` is `bhDevt`; `devt_slotoff` has 16 bits. -/
def MkfsSb.erofsMkfsInitDevices (sbi : MkfsSb) (bhDevt devices : ℕ) : MkfsSb :=
  if devices = 0 then sbi
  else
    { sbi with
      devs := List.replicate devices ⟨zeroPad 64, 0, 0⟩
      devtSlotoff := u16 (bhDevt / erofsDevtSlotSize)
      featureIncompat := sbi.featureIncompat ||| featureIncompatDeviceTable }

def MkfsSb.erofsMkfsDumpBlobs (sbi : MkfsSb) (bhDevt nblocks : ℕ) (disk : Mem) : Mem :=
  store disk bhDevt ((deviceSlots nblocks sbi.devs).flatMap DeviceSlot.encode)

/-- The record of a long xattr name prefix: its base index and its infix. -/
def prefixRecord (p : UInt8 × List UInt8) : List UInt8 := leBytes 2 (p.2.length + 1) ++ p.1 :: p.2

def erofsXattrWriteNamePrefixes (f : Mem) : ℕ → List (UInt8 × List UInt8) → Mem
  | _, [] => f
  | offset, p :: ps =>
    erofsXattrWriteNamePrefixes (store f offset (prefixRecord p))
      (roundUp (offset + (prefixRecord p).length) 4) ps

/-! ## Reading -/

/-- What the reader leaves in `struct erofs_sb_info`. -/
structure ReadSb where
  blkszbits : ℕ
  featureCompat : ℕ
  featureIncompat : ℕ
  sbSize : ℕ
  primarydeviceBlocks : ℕ
  totalBlocks : ℕ
  metaBlkaddr : ℕ
  xattrBlkaddr : ℕ
  rootNid : ℕ
  packedNid : ℕ
  inos : ℕ
  checksum : ℕ
  buildTime : ℕ
  buildTimeNsec : ℕ
  uuid : List UInt8
  availableComprAlgs : ℕ
  lz4MaxDistance : ℕ
  lz4MaxPclusterblks : ℕ
  devs : List DeviceSlot
  xattrPrefixes : List (List UInt8)

/-- What the reader runs on: the primary device, the maximal block size, and reads of the packed
inode by its nid. -/
structure SbEnv where
  disk : Mem
  maxBlkszbits : ℕ
  pread : ℕ → ℕ → ℕ → Except Errno (List UInt8)

/-- The rest of a record, block by block. -/
def readMetadataLoop (disk : Mem) (blkszbits : ℕ) : ℕ → ℕ → ℕ → List UInt8
  | 0, _, _ => []
  | fuel + 1, offset, left =>
    if left = 0 then []
    else
      let blkoff := offset % 2 ^ blkszbits
      let cnt := min (2 ^ blkszbits - blkoff) left
      let data : Mem := fun k => disk (offset / 2 ^ blkszbits * 2 ^ blkszbits + k)
      slice data blkoff cnt ++ readMetadataLoop disk blkszbits fuel (offset + cnt) (left - cnt)

/-- `erofs_read_metadata_bdi`: the record at `offset` and the offset after it. -/
def erofsReadMetadataBdi (disk : Mem) (blkszbits offset : ℕ) : Except Errno (List UInt8 × ℕ) :=
  let offset := roundUp offset 4
  let data : Mem := fun k => disk (offset / 2 ^ blkszbits * 2 ^ blkszbits + k)
  let len := leNat data (offset % 2 ^ blkszbits) 2
  if len = 0 then .error .efscorrupted
  else .ok (readMetadataLoop disk blkszbits len (offset + 2) len, offset + 2 + len)

def erofsReadMetadataNid (pread : ℕ → ℕ → Except Errno (List UInt8)) (offset : ℕ) :
    Except Errno (List UInt8 × ℕ) :=
  let offset := roundUp offset 4
  match pread offset 2 with
  | .error e => .error e
  | .ok b =>
    let len := leNat (fun k => b.getD k 0) 0 2
    if len = 0 then .error .efscorrupted
    else
      match pread (offset + 2) len with
      | .error e => .error e
      | .ok b => .ok (b, offset + 2 + len)

def erofsReadMetadata (env : SbEnv) (blkszbits nid offset : ℕ) : Except Errno (List UInt8 × ℕ) :=
  if nid ≠ 0 then erofsReadMetadataNid (env.pread nid) offset
  else erofsReadMetadataBdi env.disk blkszbits offset

/-- `z_erofs_load_lz4_config`: the window and the largest pcluster. -/
def zErofsLoadLz4Config (lz4MaxDistance : ℕ) : Option (List UInt8) → Except Errno (ℕ × ℕ)
  | none => .ok (lz4MaxDistance, 1)
  | some data =>
    if data.length < 14 then .error .einval
    else
      let blks := leNat (fun k => data.getD k 0) 2 2
      .ok (leNat (fun k => data.getD k 0) 0 2, if blks = 0 then 1 else blks)

def zErofsLoadDeflateConfig (data : List UInt8) : Except Errno Unit :=
  if data.length < 6 then .error .einval else .ok ()

def parseCfgsLoop (env : SbEnv) (blkszbits u1 : ℕ) :
    ℕ → ℕ → ℕ → ℕ → ℕ × ℕ → Except Errno (ℕ × ℕ)
  | 0, _, _, _, lz4 => .ok lz4
  | fuel + 1, algs, alg, offset, lz4 =>
    if algs = 0 then .ok lz4
    else if algs % 2 = 0 then parseCfgsLoop env blkszbits u1 fuel (algs / 2) (alg + 1) offset lz4
    else
      match erofsReadMetadata env blkszbits 0 offset with
      | .error e => .error e
      | .ok (data, offset) =>
        let loaded : Except Errno (ℕ × ℕ) :=
          if alg = 0 then zErofsLoadLz4Config u1 (some data)
          else if alg = 2 then (zErofsLoadDeflateConfig data).map fun _ => lz4
          else .ok lz4
        match loaded with
        | .error e => .error e
        | .ok lz4 => parseCfgsLoop env blkszbits u1 fuel (algs / 2) (alg + 1) offset lz4

/-- `z_erofs_parse_cfgs`: the available algorithms and the LZ4 configuration. -/
def zErofsParseCfgs (env : SbEnv) (sb : SuperBlock) (sbSize : ℕ) : Except Errno (ℕ × ℕ × ℕ) :=
  if ¬sb.featureIncompat.testBit 1 then
    (zErofsLoadLz4Config sb.u1 none).map fun lz4 => (1, lz4)
  else if 16 ≤ sb.u1 then .error .eopnotsupp
  else
    (parseCfgsLoop env sb.blkszbits sb.u1 16 sb.u1 0 (erofsSuperOffset + sbSize) (0, 0)).map
      fun lz4 => (sb.u1, lz4)

/-- `erofs_init_devices` of a reader that was given `extraDevices` devices. -/
def erofsInitDevices (env : SbEnv) (sb : SuperBlock) (extraDevices : ℕ) :
    Except Errno (List DeviceSlot) :=
  let ondiskExtradevs := if ¬sb.featureIncompat.testBit 3 then 0 else sb.extraDevices
  if extraDevices ≠ 0 ∧ ondiskExtradevs ≠ extraDevices then .error .einval
  else .ok ((List.range ondiskExtradevs).map fun i =>
    DeviceSlot.decode env.disk (sb.devtSlotoff * erofsDevtSlotSize + i * erofsDevtSlotSize))

/-- The loop of `erofs_xattr_prefixes_init`. -/
def prefixesLoop (env : SbEnv) (blkszbits nid : ℕ) : ℕ → ℕ → Except Errno (List (List UInt8))
  | 0, _ => .ok []
  | n + 1, pos =>
    match erofsReadMetadata env blkszbits nid pos with
    | .error e => .error e
    | .ok (buf, pos) =>
      if buf.length < 1 ∨ 256 < buf.length then .error .efscorrupted
      else (prefixesLoop env blkszbits nid n pos).map (buf :: ·)

def erofsXattrPrefixesInit (env : SbEnv) (sb : SuperBlock) : Except Errno (List (List UInt8)) :=
  prefixesLoop env sb.blkszbits sb.packedNid sb.xattrPrefixCount (sb.xattrPrefixStart * 4)

/-- `erofs_read_superblock` of a reader that was given `extraDevices` devices. -/
def erofsReadSuperblock (env : SbEnv) (extraDevices : ℕ) : Except Errno ReadSb :=
  let dsb := SuperBlock.decode env.disk erofsSuperOffset
  if dsb.magic ≠ erofsSuperMagicV1 then .error .einval
  else if dsb.blkszbits < 9 ∨ env.maxBlkszbits < dsb.blkszbits then .error .einval
  else if dsb.featureIncompat &&& (2 ^ 32 - 1 - allFeatureIncompat) ≠ 0 then .error .einval
  else
    let sbSize := 128 + dsb.sbExtslots * 16
    -- the difference is negative for blocks of 512 bytes, and a large unsigned number
    if u32 (2 ^ dsb.blkszbits + 2 ^ 32 - erofsSuperOffset) < sbSize then .error .einval
    else
      match zErofsParseCfgs env dsb sbSize with
      | .error e => .error e
      | .ok (algs, lz4MaxDistance, lz4MaxPclusterblks) =>
        match erofsInitDevices env dsb extraDevices with
        | .error e => .error e
        | .ok devs =>
          match erofsXattrPrefixesInit env dsb with
          | .error e => .error e
          | .ok xattrPrefixes => .ok {
              blkszbits := dsb.blkszbits
              featureCompat := dsb.featureCompat
              featureIncompat := dsb.featureIncompat
              sbSize := sbSize
              primarydeviceBlocks := dsb.blocks
              totalBlocks := dsb.blocks + (devs.map DeviceSlot.blocks).sum
              metaBlkaddr := dsb.metaBlkaddr
              xattrBlkaddr := dsb.xattrBlkaddr
              rootNid := dsb.rootNid
              packedNid := dsb.packedNid
              inos := dsb.inos
              checksum := dsb.checksum
              buildTime := dsb.buildTime
              buildTimeNsec := dsb.buildTimeNsec
              uuid := dsb.uuid
              availableComprAlgs := algs
              lz4MaxDistance := lz4MaxDistance
              lz4MaxPclusterblks := lz4MaxPclusterblks
              devs := devs
              xattrPrefixes := xattrPrefixes }

end ErofsUtils
