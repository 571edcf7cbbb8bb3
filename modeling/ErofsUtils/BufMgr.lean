import ErofsUtils.Layout

/-!
# The buffer manager

The allocator of `cache.c`. A buffer block is a run of bytes that will get consecutive blocks
of the image; buffer heads are the pieces of it that were handed out. Blocks are mapped, that
is, given an address, in list order and only when somebody asks for one.

Blocks and heads are known by an identifier that stands for their address in memory, and a
handle `bh` is the pair of both since every head points at its block. A head also remembers
how many bytes were asked for it. The code does not store that number, but it is what the
caller is going to write.
-/

namespace ErofsUtils

def nullAddr : ℕ := 2 ^ 32 - 1

/-- `sbi->blkszbits`. mkfs refuses blocks below 512 bytes, and the size is an `unsigned int`. -/
structure BlockSize where
  bits : ℕ
  low : 9 ≤ bits
  high : bits ≤ 31
  deriving DecidableEq

namespace BlockSize

theorem bits4k_low : 9 ≤ 12 := by decide

theorem bits4k_high : 12 ≤ 31 := by decide

variable (sb : BlockSize)

/-- `erofs_blksiz`. -/
def size : ℕ := 2 ^ sb.bits

/-- `n - 1` over `erofs_off_t`. -/
def pred64 (n : ℕ) : ℕ := if n = 0 then 2 ^ 64 - 1 else n - 1

/-- `roundup` over `erofs_off_t`. -/
def roundup (x y : ℕ) : ℕ := u64 (x + (y - 1)) / y * y

def blkRoundUp (addr : ℕ) : ℕ := u64 (addr + (sb.size - 1)) / sb.size

end BlockSize

/-- The `type` argument of `erofs_balloc` and `erofs_battach`. -/
inductive BufType
  | data | metadata | inode | dira | xattr | devt
  | other (type : ℤ)
  deriving DecidableEq

/-- `bb->type`: what `get_alignsize` makes of the requested type. -/
inductive BlockType
  | data | metadata
  deriving DecidableEq

/-- `get_alignsize`, `none` for `-EINVAL`. -/
def getAlignsize (sb : BlockSize) : BufType → Option (ℕ × BlockType)
  | .data => some (sb.size, .data)
  | .inode => some (32, .metadata)
  | .dira => some (sb.size, .metadata)
  | .xattr => some (4, .metadata)
  | .devt => some (128, .metadata)
  | .metadata => some (1, .metadata)
  | .other _ => none

/-- `struct erofs_buffer_head`, with the number of bytes its owner asked for. -/
structure BufferHead where
  id : ℕ
  off : ℕ
  len : ℕ
  deriving DecidableEq

/-- `struct erofs_buffer_block`; `off` is `buffers.off`. -/
structure BufferBlock where
  id : ℕ
  type : BlockType
  blkaddr : ℕ
  off : ℕ
  buffers : List BufferHead
  deriving DecidableEq

/-- `struct erofs_bufmgr`. The buckets of mapped blocks are one list in the order of the last
`erofs_bupdate_mapped`: a bucket holds its blocks of one type and one fill level in that
order. `lastMapped` is `none` for the list head `blkh`. -/
structure BufMgr where
  sb : BlockSize
  blocks : List BufferBlock
  tailBlkaddr : ℕ
  metablkcnt : ℕ
  lastMapped : Option ℕ
  mappedList : List ℕ
  fresh : ℕ
  deriving DecidableEq

def splitAtBlock (id : ℕ) :
    List BufferBlock → Option (List BufferBlock × BufferBlock × List BufferBlock)
  | [] => none
  | b :: bs =>
    if b.id = id then some ([], b, bs)
    else (splitAtBlock id bs).map fun r => (b :: r.1, r.2.1, r.2.2)

/-- `list_next_entry(bb, list)->blkaddr`; the list head has `NULL_ADDR`. -/
def nextAddr : List BufferBlock → ℕ
  | [] => nullAddr
  | b :: _ => b.blkaddr

/-- `erofs_buffer_init`. Nobody sets `metablkcnt` there. -/
def erofsBufferInit (sb : BlockSize) (startblk metablkcnt : ℕ) : BufMgr where
  sb := sb
  blocks := []
  tailBlkaddr := startblk
  metablkcnt := metablkcnt
  lastMapped := none
  mappedList := []
  fresh := 0

section Attach

variable (sb : BlockSize) (tail next : ℕ) (bb : BufferBlock) (incr alignsize extrasize : ℕ)

/-- The left side of the out-of-block test of `__erofs_battach`. -/
def battachRoom : ℕ :=
  u64 (u64 (BlockSize.roundup (BlockSize.pred64 bb.off % sb.size + 1) alignsize + incr) +
    extrasize)

/-- The tests of `__erofs_battach`: `none` for `-EINVAL`, else `tailupdate`. -/
def battachCheck : Option Bool :=
  if battachRoom sb bb incr alignsize extrasize < sb.size then some false
  else if sb.size < battachRoom sb bb incr alignsize extrasize ∧ next ≠ nullAddr then none
  else if bb.blkaddr = nullAddr then some false
  else if tail = bb.blkaddr + sb.blkRoundUp bb.off then some true
  else if sb.size < battachRoom sb bb incr alignsize extrasize then none
  else some false

def battachRet : ℕ :=
  BlockSize.pred64 (u64 (BlockSize.roundup bb.off alignsize + incr)) % sb.size + 1

/-- The last head of a ballooned block reaches up to `buffers.off`. -/
def stretchLast (off : ℕ) : List BufferHead → List BufferHead
  | [] => []
  | [h] => [{ h with len := off - h.off }]
  | h :: hs => h :: stretchLast off hs

/-- What `__erofs_battach` does to the block, with a new head or for a balloon. -/
def battachBlock (bh : Option ℕ) : BufferBlock :=
  let off := u64 (BlockSize.roundup bb.off alignsize + incr)
  { bb with
    off := off
    buffers :=
      match bh with
      | some id => bb.buffers ++ [⟨id, BlockSize.roundup bb.off alignsize, incr⟩]
      | none => stretchLast off bb.buffers }

end Attach

namespace BufMgr

def bupdateMapped (s : BufMgr) (bb : BufferBlock) : List ℕ :=
  if bb.blkaddr = nullAddr then s.mappedList else s.mappedList.erase bb.id ++ [bb.id]

/-- `__erofs_battach` without `dryrun`. -/
def attach (s : BufMgr) (id : ℕ) (bh : Option ℕ) (incr alignsize extrasize : ℕ) :
    Option (BufMgr × ℕ) :=
  match splitAtBlock id s.blocks with
  | none => none
  | some (p, bb, q) =>
    match battachCheck s.sb s.tailBlkaddr (nextAddr q) bb incr alignsize extrasize with
    | none => none
    | some tailupdate =>
      let bb' := battachBlock bb incr alignsize bh
      some ({ s with
        blocks := p ++ bb' :: q
        tailBlkaddr :=
          if tailupdate then u32 (bb.blkaddr + s.sb.blkRoundUp bb'.off) else s.tailBlkaddr
        mappedList := s.bupdateMapped bb }, battachRet s.sb bb incr alignsize)

/-- `bh->list.next == &bb->buffers.list`. -/
def isTail (s : BufMgr) (bid hid : ℕ) : Bool :=
  match splitAtBlock bid s.blocks with
  | none => false
  | some (_, bb, _) => bb.buffers.getLast?.map BufferHead.id == some hid

def erofsBhBalloon (s : BufMgr) (bid hid incr : ℕ) : BufMgr × Except ℤ ℕ :=
  if s.isTail bid hid then
    match s.attach bid none incr 1 0 with
    | none => (s, .error (-22))
    | some (s', ret) => (s', .ok ret)
  else (s, .error (-22))

section Find

variable (s : BufMgr) (type : BlockType) (size requiredExt inlineExt alignsize : ℕ)

/-- The first block of `mapped_buckets[type][used_before]`. -/
def firstMapped (usedBefore : ℕ) :
    Option (List BufferBlock × BufferBlock × List BufferBlock) :=
  (s.mappedList.filterMap fun id => splitAtBlock id s.blocks).find? fun r =>
    r.2.1.type = type ∧ r.2.1.off % s.sb.size = usedBefore

/-- The search for a most-fit mapped block, from `used_before` down. -/
def findMapped : ℕ → Option (ℕ × ℕ)
  | 0 => none
  | n + 1 =>
    match s.firstMapped type (n + 1) with
    | none => findMapped n
    | some (_, cur, q) =>
      -- the last mapped block can be expended, don't handle it here
      if nextAddr q = nullAddr then findMapped n
      else
        match battachCheck s.sb s.tailBlkaddr (nextAddr q) cur size alignsize
            (u32 (requiredExt + inlineExt)) with
        | none => findMapped n
        | some _ =>
          some (cur.id, u32 (battachRet s.sb cur size alignsize + requiredExt + inlineExt))

/-- The search from the last mapped block on; `acc` is `bb` with `usedmax`. -/
def findExpandable (used0 : ℕ) : List BufferBlock → Option ℕ × ℕ → Option ℕ × ℕ
  | [], acc => acc
  | cur :: rest, acc =>
    if cur.off % s.sb.size = 0 ∨ cur.type ≠ type then findExpandable used0 rest acc
    else
      match battachCheck s.sb s.tailBlkaddr (nextAddr rest) cur size alignsize
          (u32 (requiredExt + inlineExt)) with
      | none => findExpandable used0 rest acc
      | some _ =>
        let used := u32 (u32 (battachRet s.sb cur size alignsize + requiredExt) % s.sb.size +
          inlineExt)
        if s.sb.size < used then findExpandable used0 rest acc
        else if used < cur.off % s.sb.size ∧ used < used0 then findExpandable used0 rest acc
        else if acc.2 < used then findExpandable used0 rest (some cur.id, used)
        else findExpandable used0 rest acc

def fromLastMapped : List BufferBlock :=
  match s.lastMapped with
  | none => s.blocks
  | some id =>
    match splitAtBlock id s.blocks with
    | none => []
    | some (_, bb, q) => bb :: q

def erofsBfindForAttach : Except ℤ (Option ℕ) :=
  let blksiz := s.sb.size
  let used0 := u32 (u64 (size + requiredExt) % blksiz + inlineExt)
  -- inline data should be in the same fs block
  if blksiz < used0 then .error (-28)
  else if used0 = 0 ∨ alignsize = blksiz then .ok none
  else
    let total := u64 (size + requiredExt + inlineExt)
    let acc :=
      if blksiz ≤ total then none
      else
        s.findMapped type size requiredExt inlineExt alignsize
          (blksiz - total - (blksiz - total) % alignsize)
    let start := match acc with
      | none => (none, 0)
      | some (id, used) => (some id, used)
    .ok (s.findExpandable type size requiredExt inlineExt alignsize used0 s.fromLastMapped
      start).1

end Find

/-- A new block goes behind the last mapped one for data, to the end of the list else. -/
def insertBlock (s : BufMgr) (bb : BufferBlock) : List BufferBlock :=
  match bb.type, s.lastMapped with
  | .metadata, _ => s.blocks ++ [bb]
  | .data, none => bb :: s.blocks
  | .data, some id =>
    match splitAtBlock id s.blocks with
    | none => bb :: s.blocks
    | some (p, b, q) => p ++ b :: bb :: q

def newBlock (s : BufMgr) (type : BlockType) : BufMgr :=
  let bb := ⟨s.fresh, type, nullAddr, 0, []⟩
  { s with blocks := s.insertBlock bb, fresh := s.fresh + 1 }

/-- The last part of `erofs_balloc`: attach a new head to the block that was found or made. -/
def ballocIn (s : BufMgr) (id size alignsize extrasize : ℕ) : BufMgr × Except ℤ (ℕ × ℕ) :=
  match s.attach id (some s.fresh) size alignsize extrasize with
  | none => (s, .error (-22))
  | some (s', _) => ({ s' with fresh := s.fresh + 1 }, .ok (id, s.fresh))

def erofsBalloc (s : BufMgr) (type : BufType) (size requiredExt inlineExt : ℕ) :
    BufMgr × Except ℤ (ℕ × ℕ) :=
  match getAlignsize s.sb type with
  | none => (s, .error (-22))
  | some (alignsize, btype) =>
    match s.erofsBfindForAttach btype size requiredExt inlineExt alignsize with
    | .error e => (s, .error e)
    | .ok (some id) => s.ballocIn id size alignsize (u32 (requiredExt + inlineExt))
    | .ok none =>
      (s.newBlock btype).ballocIn s.fresh size alignsize (u32 (requiredExt + inlineExt))

def erofsBattach (s : BufMgr) (bid hid : ℕ) (type : BufType) (size : ℕ) :
    BufMgr × Except ℤ (ℕ × ℕ) :=
  match getAlignsize s.sb type with
  | none => (s, .error (-22))
  | some (alignsize, _) =>
    if s.isTail bid hid then s.ballocIn bid size alignsize 0 else (s, .error (-22))

/-- `__erofs_mapbh`: the mapped block. -/
def mapped (s : BufMgr) (bb : BufferBlock) : BufferBlock :=
  if bb.blkaddr = nullAddr then { bb with blkaddr := s.tailBlkaddr } else bb

/-- `__erofs_mapbh`: the block address behind it. -/
def mappedEnd (s : BufMgr) (bb : BufferBlock) : ℕ :=
  u32 ((s.mapped bb).blkaddr + s.sb.blkRoundUp bb.off)

/-- `__erofs_mapbh` on the block between `p` and `q`. -/
def mapBlock (s : BufMgr) (p : List BufferBlock) (bb : BufferBlock) (q : List BufferBlock) :
    BufMgr :=
  { s with
    blocks := p ++ s.mapped bb :: q
    tailBlkaddr := max s.tailBlkaddr (s.mappedEnd bb)
    lastMapped := if bb.blkaddr = nullAddr then some bb.id else s.lastMapped
    mappedList := if bb.blkaddr = nullAddr then s.bupdateMapped (s.mapped bb) else s.mappedList }

def mapbhLoop (bb : Option ℕ) (s : BufMgr) (p : List BufferBlock) : List BufferBlock → BufMgr
  | [] => s
  | t :: q =>
    if bb = some t.id then s.mapBlock p t q
    else mapbhLoop bb (s.mapBlock p t q) (p ++ [s.mapped t]) q

def splitLastMapped (s : BufMgr) : List BufferBlock × List BufferBlock :=
  match s.lastMapped with
  | none => ([], s.blocks)
  | some id =>
    match splitAtBlock id s.blocks with
    | none => (s.blocks, [])
    | some (p, bb, q) => (p ++ [bb], q)

/-- `bb && bb->blkaddr != NULL_ADDR`. -/
def isMapped (s : BufMgr) (bb : Option ℕ) : Bool :=
  match bb.bind fun id => splitAtBlock id s.blocks with
  | none => false
  | some (_, bb, _) => bb.blkaddr ≠ nullAddr

def erofsMapbh (s : BufMgr) (bb : Option ℕ) : BufMgr :=
  if s.isMapped bb then s
  else mapbhLoop bb s s.splitLastMapped.1 s.splitLastMapped.2

def bfree (s : BufMgr) (p : List BufferBlock) (bb : BufferBlock) (q : List BufferBlock) :
    BufMgr :=
  { s with
    blocks := p ++ q
    lastMapped :=
      if s.lastMapped = some bb.id then p.getLast?.map BufferBlock.id else s.lastMapped
    mappedList := s.mappedList.erase bb.id }

end BufMgr

/-- What flushing a head does: `erofs_skip_write_bhops` keeps it, the other handlers remove it
or fail. -/
inductive BhFlush
  | skip | done
  | error (ret : ℤ)

/-- The inner loop of `erofs_bflush`: the heads that stay, `skip`, and the error that ended it. -/
def flushHeads (flush : ℕ → BhFlush) : List BufferHead → List BufferHead × Bool × Option ℤ
  | [] => ([], false, none)
  | h :: hs =>
    match flush h.id with
    | .skip => (h :: (flushHeads flush hs).1, true, (flushHeads flush hs).2.2)
    | .error ret => (h :: hs, false, some ret)
    | .done => flushHeads flush hs

namespace BufMgr

/-- `BLK_ROUND_UP` of a block, counted when it holds metadata. -/
def metaBlocks (s : BufMgr) (bb : BufferBlock) : ℕ :=
  if bb.type = .data then 0 else s.sb.blkRoundUp bb.off

/-- The loop of `erofs_bflush`; `p` is what earlier rounds left in the list. -/
def bflushLoop (flush : ℕ → BhFlush) (bb : Option ℕ) (s : BufMgr) (p : List BufferBlock) :
    List BufferBlock → BufMgr × Option ℤ
  | [] => (s, none)
  | t :: q =>
    if bb = some t.id then (s, none)
    else
      let r := flushHeads flush t.buffers
      let s₁ := s.mapBlock p t q
      let t' := { s.mapped t with buffers := r.1 }
      match r.2.2 with
      | some ret => ({ s₁ with blocks := p ++ t' :: q }, some ret)
      | none =>
        if r.2.1 then bflushLoop flush bb { s₁ with blocks := p ++ t' :: q } (p ++ [t']) q
        else
          bflushLoop flush bb
            { s₁.bfree p t' q with metablkcnt := u32 (s.metablkcnt + s.metaBlocks t) } p q

def erofsBflush (s : BufMgr) (flush : ℕ → BhFlush) (bb : Option ℕ) : BufMgr × Option ℤ :=
  bflushLoop flush bb s [] s.blocks

def erofsBdrop (s : BufMgr) (bid hid : ℕ) (tryrevoke : Bool) : BufMgr :=
  match splitAtBlock bid s.blocks with
  | none => s
  | some (p, bb, q) =>
    let rollback := tryrevoke = true ∧ bb.blkaddr ≠ nullAddr ∧
      s.tailBlkaddr = bb.blkaddr + s.sb.blkRoundUp bb.off
    let bb' := { bb with buffers := bb.buffers.filter fun h => h.id ≠ hid }
    if bb'.buffers ≠ [] then { s with blocks := p ++ bb' :: q }
    else if rollback then { s.bfree p bb q with tailBlkaddr := bb.blkaddr }
    else { s.bfree p bb q with metablkcnt := u32 (s.metablkcnt + s.metaBlocks bb) }

end BufMgr

inductive BufOp
  | balloc (type : BufType) (size requiredExt inlineExt : ℕ)
  | battach (bid hid : ℕ) (type : BufType) (size : ℕ)
  | balloon (bid hid incr : ℕ)
  | mapbh (bb : Option ℕ)
  | bflush (flush : ℕ → BhFlush) (bb : Option ℕ)
  | bdrop (bid hid : ℕ) (tryrevoke : Bool)

/-- The state after one call, whether it succeeds or is rejected. -/
def BufMgr.step (s : BufMgr) : BufOp → BufMgr
  | .balloc type size requiredExt inlineExt =>
    (s.erofsBalloc type size requiredExt inlineExt).1
  | .battach bid hid type size => (s.erofsBattach bid hid type size).1
  | .balloon bid hid incr => (s.erofsBhBalloon bid hid incr).1
  | .mapbh bb => s.erofsMapbh bb
  | .bflush flush bb => (s.erofsBflush flush bb).1
  | .bdrop bid hid tryrevoke => s.erofsBdrop bid hid tryrevoke

end ErofsUtils
