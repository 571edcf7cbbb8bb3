import ErofsUtils.Layout

/-!
# Mapping a file offset through the lcluster indexes

The reader of `zmap.c`. A recorder gathers what the loaded indexes say, and keeps what
earlier loads have stored in it, as `struct z_erofs_maprecorder` does. Index blocks come
from `blk`, which returns nothing for a block that cannot be read; the block cache of
`z_erofs_reload_indexes` is not modelled, since the device does not change while it is read.
-/

namespace ErofsUtils
open ByteMemory

abbrev BlkRead := ℕ → Option Mem

structure Maprecorder where
  lcn : ℕ
  type : LclusterType
  headtype : LclusterType
  clusterofs : ℕ
  delta0 : ℕ
  delta1 : ℕ
  pblk : ℕ
  compressedblks : ℕ
  nextpackoff : ℕ
  partialref : Bool
  deriving DecidableEq, Repr

/-- The zero-initialised recorder of `z_erofs_do_map_blocks`. -/
def Maprecorder.init : Maprecorder :=
  ⟨0, .plain, .plain, 0, 0, 0, 0, 0, 0, false⟩

def zErofsReloadIndexes (blk : BlkRead) (eblk : ℕ) : Except Errno Mem :=
  match blk eblk with
  | some kaddr => .ok kaddr
  | none => .error .eio

/-- The switch of `legacy_load_cluster_from_disk` on one loaded index. -/
def legacyDecodeIndex (vi : Inode) (m : Maprecorder) (di : LclusterIndex) :
    Except Errno Maprecorder :=
  match di.type with
  | .nonhead =>
    let m := { m with clusterofs := u16 (2 ^ vi.zLogicalClusterbits), type := .nonhead }
    if di.delta0 &&& d0Cblkcnt ≠ 0 then
      if ¬ vi.zAdvise.bigPcluster1 then .error .efscorrupted
      else .ok { m with
        compressedblks := di.delta0 - d0Cblkcnt, delta0 := 1, delta1 := di.delta1 }
    else .ok { m with delta0 := di.delta0, delta1 := di.delta1 }
  | .plain | .head1 =>
    .ok { m with
      type := di.type
      partialref := m.partialref || di.advise.testBit 15
      clusterofs := di.clusterofs
      pblk := di.u }
  | .head2 => .error .eopnotsupp

def legacyLoadClusterFromDisk (vi : Inode) (blk : BlkRead) (m : Maprecorder) (lcn : ℕ) :
    Except Errno Maprecorder :=
  let ibase := vi.iloc
  let pos := Inode.fullIndexAlign (ibase + vi.inodeIsize + vi.xattrIsize) + lcn * 8
  match zErofsReloadIndexes blk (vi.sbi.blknr pos) with
  | .error e => .error e
  | .ok kaddr =>
    legacyDecodeIndex vi { m with nextpackoff := pos + 8, lcn := lcn }
      (LclusterIndex.decode kaddr (vi.sbi.blkoff pos))

/-- `lo` and `type` of the bits at bit offset `pos` behind `inp`. -/
def decodeCompactedbits (kaddr : Mem) (lobits inp pos : ℕ) : ℕ × LclusterType :=
  let v := leNat kaddr (inp + pos / 8) 4 / 2 ^ (pos % 8)
  (v % 2 ^ lobits, LclusterType.ofBits (v / 2 ^ lobits))

/-- `get_compacted_la_distance`, from slot `i` of a pack on; `n` slots follow slot `i`. -/
def getCompactedLaDistance (dec : ℕ → ℕ × LclusterType) : ℕ → ℕ → ℕ → ℕ
  | n, i, d1 =>
    if (dec i).2 ≠ .nonhead then d1
    else match n with
      | n + 1 => getCompactedLaDistance dec n (i + 1) (d1 + 1)
      | 0 => if (dec i).1 &&& d0Cblkcnt = 0 then d1 + 1 + (dec i).1 - 1 else d1 + 1

/-- The backward count of `unpack_compacted_index` without big pclusters. -/
def compactedNblk (dec : ℕ → ℕ × LclusterType) (i nblk : ℕ) : ℕ :=
  match i with
  | 0 => nblk
  | i + 1 =>
    if (dec i).2 = .nonhead then
      if (dec i).1 ≤ i then compactedNblk dec (i - (dec i).1) (nblk + 1) else nblk
    else compactedNblk dec i (nblk + 1)
termination_by i
decreasing_by all_goals omega

/-- The backward count of `unpack_compacted_index` with big pclusters. -/
def compactedNblkBig (dec : ℕ → ℕ × LclusterType) (i nblk : ℕ) : Except Errno ℕ :=
  match i with
  | 0 => .ok nblk
  | i + 1 =>
    if (dec i).2 = .nonhead then
      if (dec i).1 &&& d0Cblkcnt ≠ 0 then
        compactedNblkBig dec (i - 1) (nblk + ((dec i).1 - d0Cblkcnt))
      else if (dec i).1 ≤ 1 then .error .efscorrupted
      else compactedNblkBig dec (i - ((dec i).1 - 2)) nblk
    else compactedNblkBig dec i (nblk + 1)
termination_by i
decreasing_by all_goals omega

def compactedLobits (lclusterbits : ℕ) : ℕ := max lclusterbits 12

/-- The rest of `unpack_compacted_index`, for slot `i` of a pack with `vcnt` slots. -/
def unpackCompactedSlot (vi : Inode) (m : Maprecorder) (dec : ℕ → ℕ × LclusterType)
    (vcnt i base : ℕ) (lookahead : Bool) : Except Errno Maprecorder :=
  let lo := (dec i).1
  let m := { m with type := (dec i).2 }
  if (dec i).2 = .nonhead then
    let m := { m with
      clusterofs := u16 (2 ^ vi.zLogicalClusterbits)
      delta1 := if lookahead then u16 (getCompactedLaDistance dec (vcnt - 1 - i) i 0)
        else m.delta1 }
    if lo &&& d0Cblkcnt ≠ 0 then
      if ¬ vi.zAdvise.bigPcluster1 then .error .efscorrupted
      else .ok { m with compressedblks := lo - d0Cblkcnt, delta0 := 1 }
    else if i + 1 ≠ vcnt then .ok { m with delta0 := lo }
    else
      -- the last slot saves delta[1]: take delta[0] from the slot before it
      let prev := dec (i - 1)
      let lo := if prev.2 ≠ .nonhead then 0
        else if prev.1 &&& d0Cblkcnt ≠ 0 then 1 else prev.1
      .ok { m with delta0 := u16 (lo + 1) }
  else
    let m := { m with clusterofs := lo, delta0 := 0 }
    if ¬ vi.zAdvise.bigPcluster1 then
      .ok { m with pblk := u32 (base + compactedNblk dec i 1) }
    else match compactedNblkBig dec i 0 with
      | .error e => .error e
      | .ok nblk => .ok { m with pblk := u32 (base + nblk) }

def unpackCompactedIndex (vi : Inode) (kaddr : Mem) (m : Maprecorder)
    (amortizedshift pos : ℕ) (lookahead : Bool) : Except Errno Maprecorder :=
  let lclusterbits := vi.zLogicalClusterbits
  let vcnt := if amortizedshift = 2 ∧ lclusterbits ≤ 14 then 2
    else if amortizedshift = 1 ∧ lclusterbits ≤ 12 then 16 else 0
  if vcnt = 0 then .error .eopnotsupp
  else
    let packsz := vcnt * 2 ^ amortizedshift
    let m := { m with nextpackoff := roundDown pos packsz + packsz }
    let encodebits := (packsz - 4) * 8 / vcnt
    let eofs := vi.sbi.blkoff pos
    let inp := roundDown eofs packsz
    let i := (eofs - inp) / 2 ^ amortizedshift
    let dec := fun k => decodeCompactedbits kaddr (compactedLobits lclusterbits) inp
      (encodebits * k)
    unpackCompactedSlot vi m dec vcnt i (leNat kaddr (inp + packsz - 4) 4) lookahead

/-- Position of the index of `lcn` behind `ebase`, and the amortized size shift there. -/
def compactedIndexPos (vi : Inode) (ebase totalidx lcn : ℕ) : ℕ × ℕ :=
  let compacted4bInitial := if (32 - ebase % 32) / 4 = 32 / 4 then 0 else (32 - ebase % 32) / 4
  let compacted2b := if vi.zAdvise.compacted2B ∧ compacted4bInitial < totalidx
    then roundDown (totalidx - compacted4bInitial) 16 else 0
  if lcn < compacted4bInitial then (ebase + lcn * 4, 2)
  else if lcn - compacted4bInitial < compacted2b then
    (ebase + compacted4bInitial * 4 + (lcn - compacted4bInitial) * 2, 1)
  else (ebase + compacted4bInitial * 4 + compacted2b * 2 +
    (lcn - compacted4bInitial - compacted2b) * 4, 2)

def compactedLoadClusterFromDisk (vi : Inode) (blk : BlkRead) (m : Maprecorder) (lcn : ℕ)
    (lookahead : Bool) : Except Errno Maprecorder :=
  let ebase := roundUp (vi.iloc + vi.inodeIsize + vi.xattrIsize) 8 + 8
  let totalidx := u32 (vi.sbi.blkRoundUp vi.iSize)
  if totalidx ≤ lcn then .error .einval
  else
    let p := compactedIndexPos vi ebase totalidx lcn
    match zErofsReloadIndexes blk (vi.sbi.blknr p.1) with
    | .error e => .error e
    | .ok kaddr => unpackCompactedIndex vi kaddr { m with lcn := lcn } p.2 p.1 lookahead

/-- `z_erofs_load_cluster_from_disk`, which takes the lcluster number as an `unsigned int`. -/
def zErofsLoadClusterFromDisk (vi : Inode) (blk : BlkRead) (m : Maprecorder) (lcn : ℕ)
    (lookahead : Bool) : Except Errno Maprecorder :=
  match vi.datalayout with
  | .compressedFull => legacyLoadClusterFromDisk vi blk m (u32 lcn)
  | .compressedCompact => compactedLoadClusterFromDisk vi blk m (u32 lcn) lookahead
  | _ => .error .einval

end ErofsUtils
