import ErofsUtils.FsckWalk
import ErofsUtils.Pathname
import ErofsUtils.XattrFormat

/-!
# Reading extended attributes

`xattr_foreach` reads one entry at a time, block by block, and calls back for the entry, for the
pieces of its name and for those of its value; `erofs_getxattr` and `erofs_listxattr` are two sets
of such callbacks over the inline entries of an inode and the shared ones. Memory never runs out,
and as the device does not change the shared ids are read again where the code keeps them.
-/

namespace ErofsUtils
open ByteMemory CString

/-- `ENOATTR`, another name of `ENODATA`. -/
def eNoAttr : ℤ := -61

structure XattrDev where
  mem : Mem
  readErr : ℕ → ℕ → Option ℤ
  readErr_neg : ∀ pos len err, readErr pos len = some err → err < 0

/-- `struct erofs_xattr_prefix_item`; `infix_len` is a byte. -/
structure XattrPrefixItem where
  baseIndex : UInt8
  infixBytes : List UInt8
  infixBytes_le : infixBytes.length ≤ 255
  deriving DecidableEq

/-- What the xattr functions use of `struct erofs_sb_info`. -/
structure XattrSb where
  blkszbits : ℕ
  metaBlkaddr : ℕ
  xattrBlkaddr : ℕ
  xattrPrefixes : List XattrPrefixItem
  blkszbits_ge : 9 ≤ blkszbits
  blkszbits_le : blkszbits ≤ 16

theorem XattrSb.bits4k_ge : 9 ≤ 12 := by decide

theorem XattrSb.bits4k_le : 12 ≤ 16 := by decide

def XattrSb.blksiz (sb : XattrSb) : ℕ := 2 ^ sb.blkszbits

/-- What the xattr functions use of `struct erofs_inode`; an inode is compact or extended. -/
structure XattrInode where
  nid : ℕ
  extended : Bool
  iXattrIcount : UInt16
  deriving DecidableEq

namespace XattrInode

def inodeIsize (vi : XattrInode) : ℕ := if vi.extended then 64 else 32

def xattrIsize (vi : XattrInode) : ℕ := erofsXattrIbodySize vi.iXattrIcount.toNat

def iloc (sb : XattrSb) (vi : XattrInode) : ℕ := u64 (sb.metaBlkaddr * sb.blksiz + vi.nid * 32)

def xattrPos (sb : XattrSb) (vi : XattrInode) : ℕ := vi.iloc sb + vi.inodeIsize

end XattrInode

/-- `struct xattr_iter`; `kaddr` is the block that was read last. -/
structure XattrIter where
  kaddr : Mem
  blkaddr : ℕ
  ofs : ℕ

structure XattrIterHandlers (σ : Type*) where
  entry : XattrEntry → σ → ℤ × σ
  name : ℕ → List UInt8 → σ → ℤ × σ
  allocBuffer : ℕ → σ → ℤ × σ
  value : ℕ → List UInt8 → σ → σ

section Reader

variable (dev : XattrDev) (sb : XattrSb)

/-- `erofs_dev_read`: the bytes past the end of the device are zeroes. -/
def XattrDev.erofsDevRead (pos len : ℕ) : Except ℤ Mem :=
  match dev.readErr (u64 pos) len with
  | some err => .error err
  | none => .ok fun i => dev.mem (u64 pos + i)

/-- `erofs_blk_read` of the block of an iterator, with the error that its callers make of it. -/
def xattrIterRead (blkaddr ofs : ℕ) : Except ℤ XattrIter :=
  match dev.erofsDevRead (blkaddr * sb.blksiz) sb.blksiz with
  | .error _ => .error eIo
  | .ok kaddr => .ok { kaddr, blkaddr, ofs }

def xattrIterAt (pos : ℕ) : Except ℤ XattrIter :=
  xattrIterRead dev sb (u32 (u64 pos / sb.blksiz)) (u64 pos % sb.blksiz)

/-- The loop of `init_inode_xattrs` over the shared ids. -/
def readSharedXattrs : ℕ → XattrIter → Except ℤ (List ℕ)
  | 0, _ => .ok []
  | n + 1, it =>
    let next : Except ℤ XattrIter :=
      if it.ofs < sb.blksiz then .ok it else xattrIterRead dev sb (u32 (it.blkaddr + 1)) 0
    match next with
    | .error err => .error err
    | .ok it =>
      match readSharedXattrs n { it with ofs := it.ofs + 4 } with
      | .error err => .error err
      | .ok ids => .ok (leNat it.kaddr it.ofs 4 :: ids)

/-- `init_inode_xattrs`: the shared ids of the inode. -/
def initInodeXattrs (vi : XattrInode) : Except ℤ (List ℕ) :=
  if vi.xattrIsize = xattrHeaderSize then .error eOpNotSupp
  else if vi.xattrIsize < xattrHeaderSize then
    if vi.xattrIsize ≠ 0 then .error eFsCorrupted else .error eNoAttr
  else match xattrIterAt dev sb (vi.xattrPos sb) with
    | .error err => .error err
    | .ok it =>
      readSharedXattrs dev sb (it.kaddr (it.ofs + 4)).toNat { it with ofs := it.ofs + xattrHeaderSize }

def xattrIterFixup (it : XattrIter) : Except ℤ XattrIter :=
  if it.ofs < sb.blksiz then .ok it
  else xattrIterRead dev sb (u32 (it.blkaddr + it.ofs / sb.blksiz)) (it.ofs % sb.blksiz)

def inlinexattrHeaderSize (xattrShared : List ℕ) : ℕ := xattrHeaderSize + 4 * xattrShared.length

/-- `inline_xattr_iter_pre`: the iterator at the inline entries and what they take. -/
def inlineXattrIterPre (vi : XattrInode) (xattrShared : List ℕ) : Except ℤ (XattrIter × ℕ) :=
  let headerSz := inlinexattrHeaderSize xattrShared
  if vi.xattrIsize ≤ headerSz then .error eNoAttr
  else match xattrIterAt dev sb (vi.xattrPos sb + headerSz) with
    | .error err => .error err
    | .ok it => .ok (it, vi.xattrIsize - headerSz)

/-- The step to the next block inside a name or a value. -/
def xattrIterStep (it : XattrIter) : Except ℤ XattrIter :=
  if it.ofs < sb.blksiz then .ok it
  else match xattrIterFixup dev sb it with
    | .error err => .error err
    | .ok it => .ok { it with ofs := 0 }

variable {σ : Type*} (op : XattrIterHandlers σ)

def xattrForeachName (nameLen valueSz : ℕ) : ℕ → ℕ → XattrIter → σ → ℤ × XattrIter × σ
  | 0, _, it, st => (0, it, st)
  | fuel + 1, processed, it, st =>
    if nameLen ≤ processed then (0, it, st)
    else match xattrIterStep dev sb it with
      | .error err => (err, it, st)
      | .ok it =>
        let len := min (sb.blksiz - it.ofs) (nameLen - processed)
        let n := op.name processed (slice it.kaddr it.ofs len) st
        if n.1 ≠ 0 then
          (n.1, { it with ofs := it.ofs + (nameLen - processed + valueSz) }, n.2)
        else xattrForeachName nameLen valueSz fuel (processed + len)
          { it with ofs := it.ofs + len } n.2

def xattrForeachValue (valueSz : ℕ) : ℕ → ℕ → XattrIter → σ → ℤ × XattrIter × σ
  | 0, _, it, st => (0, it, st)
  | fuel + 1, processed, it, st =>
    if valueSz ≤ processed then (0, it, st)
    else match xattrIterStep dev sb it with
      | .error err => (err, it, st)
      | .ok it =>
        let len := min (sb.blksiz - it.ofs) (valueSz - processed)
        xattrForeachValue valueSz fuel (processed + len) { it with ofs := it.ofs + len }
          (op.value processed (slice it.kaddr it.ofs len) st)

def xattrForeachEntry (entry : XattrEntry) (it : XattrIter) (st : σ) : ℤ × XattrIter × σ :=
  let e := op.entry entry st
  if e.1 ≠ 0 then (e.1, { it with ofs := it.ofs + (entry.eNameLen + entry.eValueSize) }, e.2)
  else
    let n := xattrForeachName dev sb op entry.eNameLen entry.eValueSize entry.eNameLen 0 it e.2
    if n.1 ≠ 0 then n
    else
      let a := op.allocBuffer entry.eValueSize n.2.2
      if a.1 ≠ 0 then (a.1, { n.2.1 with ofs := n.2.1.ofs + entry.eValueSize }, a.2)
      else xattrForeachValue dev sb op entry.eValueSize entry.eValueSize 0 n.2.1 a.2

/-- `xattr_foreach`, where `tlimit` is what is left of the inline entries. After an error other
than those of the callbacks the iterator is not used again. -/
def xattrForeach (it : XattrIter) (st : σ) (tlimit : Option ℕ) :
    ℤ × XattrIter × σ × Option ℕ :=
  match xattrIterFixup dev sb it with
  | .error err => (err, it, st, tlimit)
  | .ok it =>
    let entry := XattrEntry.decode it.kaddr it.ofs
    if tlimit.any (· < entry.size) then (eFsCorrupted, it, st, tlimit)
    else
      let r := xattrForeachEntry dev sb op entry { it with ofs := it.ofs + 4 } st
      (if r.1 < 0 then r.1 else 0, { r.2.1 with ofs := roundUp r.2.1.ofs 4 }, r.2.2,
        tlimit.map (· - entry.size))

/-- The loops of `inline_getxattr` and `inline_listxattr`, which go on after `next`. -/
def xattrInlineLoop (next : ℤ) : ℕ → ℤ → XattrIter → σ → ℕ → ℤ × σ
  | 0, ret, _, st, _ => (ret, st)
  | fuel + 1, ret, it, st, remaining =>
    if remaining = 0 then (ret, st)
    else
      let r := xattrForeach dev sb op it st (some remaining)
      if r.1 ≠ next then (r.1, r.2.2.1)
      else xattrInlineLoop next fuel r.1 r.2.1 r.2.2.1 (r.2.2.2.getD 0)

def xattrblockAddr (id : ℕ) : ℕ := u32 (sb.xattrBlkaddr + id * 4 / sb.blksiz)

def xattrblockOffset (id : ℕ) : ℕ := id * 4 % sb.blksiz

/-- The iterator at a shared entry: the block is read unless it is there. -/
def xattrSharedAt (it : Option XattrIter) (id : ℕ) : Except ℤ XattrIter :=
  let blkaddr := xattrblockAddr sb id
  let ofs := xattrblockOffset sb id
  match it with
  | none => xattrIterRead dev sb blkaddr ofs
  | some it =>
    if blkaddr ≠ it.blkaddr then xattrIterRead dev sb blkaddr ofs else .ok { it with ofs }

/-- The loops of `shared_getxattr` and `shared_listxattr`, which go on after `next`; there is no
iterator before the first id. -/
def xattrSharedLoop (next : ℤ) : List ℕ → ℤ → Option XattrIter → σ → ℤ × σ
  | [], ret, _, st => (ret, st)
  | id :: ids, _, it, st =>
    match xattrSharedAt dev sb it id with
    | .error err => (err, st)
    | .ok it =>
      let r := xattrForeach dev sb op it st none
      if r.1 ≠ next then (r.1, r.2.2.1) else xattrSharedLoop next ids r.1 (some r.2.1) r.2.2.1

end Reader

/-- `EROFS_XATTR_LONG_PREFIX`, the high bit of the byte `e_name_index`. -/
def xattrLongPrefix : ℕ := 128

def xattrLongItem (sb : XattrSb) (eNameIndex : ℕ) : Option XattrPrefixItem :=
  sb.xattrPrefixes[eNameIndex % xattrLongPrefix]?

/-- `struct getxattr_iter` without the iterator; `name` is what follows the predefined prefix. -/
structure GetxattrIter where
  index : ℕ
  name : List UInt8
  buffer : Option Mem
  bufferSize : ℕ
  infixLen : ℕ

/-- `xattr_entrymatch` and `erofs_xattr_long_entrymatch`. -/
def xattrEntrymatch (sb : XattrSb) (entry : XattrEntry) (it : GetxattrIter) : ℤ × GetxattrIter :=
  if xattrLongPrefix ≤ entry.eNameIndex then
    match xattrLongItem sb entry.eNameIndex with
    | none => (eNoAttr, it)
    | some pf =>
      if it.index ≠ pf.baseIndex.toNat ∨
          it.name.length ≠ entry.eNameLen + pf.infixBytes.length then (eNoAttr, it)
      else if it.name.take pf.infixBytes.length ≠ pf.infixBytes then (eNoAttr, it)
      else (0, { it with infixLen := pf.infixBytes.length })
  else if it.index ≠ entry.eNameIndex ∨ it.name.length ≠ entry.eNameLen then (eNoAttr, it)
  else (0, { it with infixLen := 0 })

def xattrNamematch (processed : ℕ) (buf : List UInt8) (it : GetxattrIter) : ℤ × GetxattrIter :=
  if buf ≠ (it.name.drop (it.infixLen + processed)).take buf.length then (eNoAttr, it)
  else (0, it)

def xattrCheckbuffer (valueSz : ℕ) (it : GetxattrIter) : ℤ × GetxattrIter :=
  let err := if it.bufferSize < valueSz then eRange else 0
  (if it.buffer.isNone then 1 else err, { it with bufferSize := valueSz })

def xattrCopyvalue (processed : ℕ) (buf : List UInt8) (it : GetxattrIter) : GetxattrIter :=
  { it with buffer := it.buffer.map fun b => store b processed buf }

def findXattrHandlers (sb : XattrSb) : XattrIterHandlers GetxattrIter where
  entry := xattrEntrymatch sb
  name := xattrNamematch
  allocBuffer := xattrCheckbuffer
  value := xattrCopyvalue

structure ListxattrIter where
  buffer : Option Mem
  bufferSize : ℕ
  bufferOfs : ℕ

/-- The base index and the infix of an entry, as `xattr_entrylist` finds them. -/
def xattrBaseInfix (sb : XattrSb) (eNameIndex : ℕ) : Option (ℕ × List UInt8) :=
  if xattrLongPrefix ≤ eNameIndex then
    (xattrLongItem sb eNameIndex).map fun pf => (pf.baseIndex.toNat, pf.infixBytes)
  else some (eNameIndex, [])

def xattrEntrylist (sb : XattrSb) (entry : XattrEntry) (it : ListxattrIter) :
    ℤ × ListxattrIter :=
  match xattrBaseInfix sb entry.eNameIndex with
  | none => (1, it)
  | some (baseIndex, infixBytes) =>
    if baseIndex = 0 ∨ xattrTypesSize ≤ baseIndex then (1, it)
    else
      let pre := (xattrTypes baseIndex).getD []
      let len := pre.length + infixBytes.length
      match it.buffer with
      | none => (1, { it with bufferOfs := it.bufferOfs + (len + entry.eNameLen + 1) })
      | some b =>
        if it.bufferSize < it.bufferOfs + (len + entry.eNameLen + 1) then (eRange, it)
        else (0, { it with
          buffer := some (store b it.bufferOfs (pre ++ infixBytes))
          bufferOfs := it.bufferOfs + len })

def xattrNamelist (_ : ℕ) (buf : List UInt8) (it : ListxattrIter) : ℤ × ListxattrIter :=
  (0, { it with
    buffer := it.buffer.map fun b => store b it.bufferOfs buf
    bufferOfs := it.bufferOfs + buf.length })

def xattrSkipvalue (_ : ℕ) (it : ListxattrIter) : ℤ × ListxattrIter :=
  (1, { it with
    buffer := it.buffer.map fun b => store b it.bufferOfs [0]
    bufferOfs := it.bufferOfs + 1 })

/-- No value gets past `xattr_skipvalue`. -/
def listXattrHandlers (sb : XattrSb) : XattrIterHandlers ListxattrIter where
  entry := xattrEntrylist sb
  name := xattrNamelist
  allocBuffer := xattrSkipvalue
  value := fun _ _ it => it

section Calls

variable (dev : XattrDev) (sb : XattrSb) (vi : XattrInode)

def inlineGetxattr (xattrShared : List ℕ) (st : GetxattrIter) : ℤ × GetxattrIter :=
  match inlineXattrIterPre dev sb vi xattrShared with
  | .error err => (err, st)
  | .ok (it, remaining) =>
    let r := xattrInlineLoop dev sb (findXattrHandlers sb) eNoAttr remaining remaining it st
      remaining
    (if r.1 ≠ 0 then r.1 else r.2.bufferSize, r.2)

def sharedGetxattr (xattrShared : List ℕ) (st : GetxattrIter) : ℤ × GetxattrIter :=
  let r := xattrSharedLoop dev sb (findXattrHandlers sb) eNoAttr xattrShared eNoAttr none st
  (if r.1 ≠ 0 then r.1 else r.2.bufferSize, r.2)

/-- `erofs_getxattr`: what it returns, and the buffer after it. -/
def erofsGetxattr (name : List UInt8) (buffer : Option Mem) (bufferSize : ℕ) : ℤ × Option Mem :=
  match initInodeXattrs dev sb vi with
  | .error err => (err, buffer)
  | .ok xattrShared =>
    match erofsXattrPrefixMatches name with
    | none => (eNoAttr, buffer)
    | some (index, prefixlen) =>
      if erofsNameLen < (name.drop prefixlen).length then (eRange, buffer)
      else
        let st : GetxattrIter :=
          { index, name := name.drop prefixlen, buffer, bufferSize := u32 bufferSize, infixLen := 0 }
        let r := inlineGetxattr dev sb vi xattrShared st
        if r.1 ≠ eNoAttr then (r.1, r.2.buffer)
        else
          let r := sharedGetxattr dev sb xattrShared r.2
          (r.1, r.2.buffer)

def inlineListxattr (xattrShared : List ℕ) (st : ListxattrIter) : ℤ × ListxattrIter :=
  match inlineXattrIterPre dev sb vi xattrShared with
  | .error err => (err, st)
  | .ok (it, remaining) =>
    let r := xattrInlineLoop dev sb (listXattrHandlers sb) 0 remaining remaining it st remaining
    (if r.1 ≠ 0 then r.1 else r.2.bufferOfs, r.2)

def sharedListxattr (xattrShared : List ℕ) (st : ListxattrIter) : ℤ × ListxattrIter :=
  let r := xattrSharedLoop dev sb (listXattrHandlers sb) 0 xattrShared 0 none st
  (if r.1 ≠ 0 then r.1 else r.2.bufferOfs, r.2)

/-- `erofs_listxattr`: what it returns, and the buffer after it. -/
def erofsListxattr (buffer : Option Mem) (bufferSize : ℕ) : ℤ × Option Mem :=
  match initInodeXattrs dev sb vi with
  | .error err => if err = eNoAttr then (0, buffer) else (err, buffer)
  | .ok xattrShared =>
    let r := inlineListxattr dev sb vi xattrShared
      { buffer, bufferSize := u32 bufferSize, bufferOfs := 0 }
    if r.1 < 0 ∧ r.1 ≠ eNoAttr then (r.1, r.2.buffer)
    else
      let r := sharedListxattr dev sb xattrShared r.2
      (r.1, r.2.buffer)

end Calls

end ErofsUtils
