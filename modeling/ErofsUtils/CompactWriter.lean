import ErofsUtils.IndexWriter
import ErofsUtils.Zmap
import ErofsUtils.BitPacking

/-!
# Converting the lcluster indexes to the COMPACT layout

`z_erofs_convert_to_compacted_format` rewrites the legacy indexes in place as packs of bit
fields: 4-byte packs up to a 32-byte boundary, then 2-byte packs, then 4-byte packs again.
A pack has one block address; the addresses of its heads are counted from there. The reads
of a pack come before its writes, and the writes never reach indexes that are still to be
read, so the one buffer can hold both.
-/

namespace ErofsUtils
open ByteMemory BitPacking

/-- `struct z_erofs_compressindex_vec`; `u` is the union of `blkaddr` and `delta[2]`. -/
structure CompressindexVec where
  u : ℕ
  clusterofs : ℕ
  clustertype : LclusterType
  deriving DecidableEq, Repr

namespace CompressindexVec

def delta0 (cv : CompressindexVec) : ℕ := cv.u % 2 ^ 16

def delta1 (cv : CompressindexVec) : ℕ := cv.u / 2 ^ 16

/-- An entry behind the last index, as `memset` leaves it. -/
def zero : CompressindexVec := ⟨0, 0, .plain⟩

def ofIndex (di : LclusterIndex) : CompressindexVec := ⟨di.u, di.clusterofs, di.type⟩

/-- `offset` of the entry, in slot `i` of a pack with `vcnt` slots. -/
def offset (cv : CompressindexVec) (lobits vcnt i : ℕ) : ℕ :=
  if cv.clustertype = .nonhead then
    if cv.delta0 &&& d0Cblkcnt ≠ 0 then cv.delta0
    else if i + 1 = vcnt then min cv.delta1 (2 ^ lobits - 1)
    else cv.delta0
  else cv.clusterofs

def bits (cv : CompressindexVec) (lobits vcnt i : ℕ) : ℕ :=
  cv.clustertype.toNat * 2 ^ lobits ||| cv.offset lobits vcnt i

end CompressindexVec

def parseLegacyIndexes (mem : Mem) (inp nr : ℕ) : List CompressindexVec :=
  (List.range nr).map fun i => .ofIndex (LclusterIndex.decode mem (inp + 8 * i))

/-- The variables of `write_compacted_indexes` that follow the block address. -/
structure AddrState where
  blkaddr : ℕ
  blkaddrRet : ℕ
  dummyHead : Bool
  updateBlkaddr : Bool
  deriving DecidableEq, Repr

def AddrState.step (s : AddrState) (cv : CompressindexVec) : AddrState :=
  if cv.clustertype = .nonhead then
    if cv.delta0 &&& d0Cblkcnt ≠ 0 then
      { s with blkaddr := u32 (s.blkaddr + (cv.delta0 - d0Cblkcnt)), dummyHead := false }
    else s
  else
    let s := if s.dummyHead then
        let blkaddr := u32 (s.blkaddr + 1)
        { s with
          blkaddr := blkaddr
          blkaddrRet := if s.updateBlkaddr then blkaddr else s.blkaddrRet }
      else s
    { s with dummyHead := true, updateBlkaddr := false }

/-- The loop of `write_compacted_indexes` over the entries of a pack, from slot `i` on. -/
def writeCompactedLoop (lobits vcnt encodebits out : ℕ) :
    ℕ → List CompressindexVec → Mem → AddrState → Mem × AddrState
  | _, [], mem, s => (mem, s)
  | i, cv :: cvs, mem, s =>
    writeCompactedLoop lobits vcnt encodebits out (i + 1) cvs
      (putBits mem out (encodebits * i) (cv.bits lobits vcnt i)) (s.step cv)

/-- The converter's position in the buffer and in the block addresses. -/
structure ConvertState where
  mem : Mem
  inp : ℕ
  out : ℕ
  blkaddr : ℕ
  dummyHead : Bool

/-- `vcnt` of a pack: the number of its slots. -/
def packVcnt (destsize lclusterbits : ℕ) : Option ℕ :=
  if destsize = 4 then some 2
  else if destsize = 2 ∧ lclusterbits ≤ 12 then some 16 else none

/-- `write_compacted_indexes`; the entries come from the indexes at `s.inp`. -/
def writeCompactedIndexes (s : ConvertState) (cvs : List CompressindexVec)
    (destsize lclusterbits : ℕ) (updateBlkaddr : Bool) : Except Errno ConvertState :=
  match packVcnt destsize lclusterbits with
  | none => .error .einval
  | some vcnt =>
    let encodebits := (vcnt * destsize * 8 - 32) / vcnt
    let r := writeCompactedLoop (compactedLobits lclusterbits) vcnt encodebits s.out 0
      cvs s.mem ⟨s.blkaddr, s.blkaddr, s.dummyHead, updateBlkaddr⟩
    .ok { s with
      mem := store r.1 (s.out + destsize * vcnt - 4) (leBytes 4 r.2.blkaddrRet)
      out := s.out + destsize * vcnt
      blkaddr := r.2.blkaddr
      dummyHead := r.2.dummyHead }

/-- A loop over `n` whole packs of `vcnt` entries. -/
def convertPacks (destsize vcnt lclusterbits : ℕ) (bigPcluster : Bool) :
    ℕ → ConvertState → Except Errno ConvertState
  | 0, s => .ok s
  | n + 1, s =>
    let cvs := parseLegacyIndexes s.mem s.inp vcnt
    match writeCompactedIndexes { s with inp := s.inp + 8 * vcnt } cvs destsize lclusterbits
        bigPcluster with
    | .error e => .error e
    | .ok s => convertPacks destsize vcnt lclusterbits bigPcluster n s

/-- The counts `compacted_4b_initial`, `compacted_2b` and `compacted_4b_end`. -/
def compactedCounts (compacted2B : Bool) (mpos totalidx : ℕ) : ℕ × ℕ × ℕ :=
  if compacted2B then
    let initial := if (32 - mpos % 32) / 4 = 32 / 4 then 0 else (32 - mpos % 32) / 4
    if totalidx < initial then (0, 0, totalidx)
    else
      let compacted2b := roundDown (totalidx - initial) 16
      (initial, compacted2b, totalidx - initial - compacted2b)
  else (0, 0, totalidx)

/-- `Z_EROFS_LEGACY_MAP_HEADER_SIZE`. -/
def legacyMapHeaderSize : ℕ := 16

/-- The final pack for an odd number of indexes. -/
def convertFinal (lclusterbits : ℕ) (bigPcluster : Bool) (s : ConvertState) :
    Except Errno ConvertState :=
  writeCompactedIndexes { s with inp := s.inp + 8 }
    (parseLegacyIndexes s.mem s.inp 1 ++ [.zero]) 4 lclusterbits bigPcluster

/-- `z_erofs_convert_to_compacted_format`; returns the buffer and `extent_isize`. -/
def zErofsConvertToCompactedFormat (vi : Inode) (blkaddr legacymetasize : ℕ) (mem : Mem) :
    Except Errno (Mem × ℕ) :=
  let mpos := roundUp (vi.inodeIsize + vi.xattrIsize) 8 + 8
  let totalidx := (legacymetasize - legacyMapHeaderSize) / 8
  let lclusterbits := vi.zLogicalClusterbits
  let big := vi.sbi.bigPcluster
  if lclusterbits < vi.sbi.blkszbits then .error .einval
  else if 14 < lclusterbits then .error .eopnotsupp
  else if vi.zAdvise.compacted2B ∧ 12 < lclusterbits then .error .einval
  else
    let counts := compactedCounts vi.zAdvise.compacted2B mpos totalidx
    -- before big pclusters, the address is bumped up at every head
    let s : ConvertState := ⟨mem, legacyMapHeaderSize, 8,
      if big then blkaddr else dec32 blkaddr, !big⟩
    match convertPacks 4 2 lclusterbits big (counts.1 / 2) s with
    | .error e => .error e
    | .ok s =>
      match convertPacks 2 16 lclusterbits big (counts.2.1 / 16) s with
      | .error e => .error e
      | .ok s =>
        match convertPacks 4 2 lclusterbits big (counts.2.2 / 2) s with
        | .error e => .error e
        | .ok s =>
          if counts.2.2 % 2 = 0 then .ok (s.mem, s.out)
          else match convertFinal lclusterbits big s with
            | .error e => .error e
            | .ok s => .ok (s.mem, s.out)

end ErofsUtils
