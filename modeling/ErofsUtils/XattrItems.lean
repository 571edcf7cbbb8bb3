import ErofsUtils.XattrPrefix
import ErofsUtils.XattrSize

/-!
# The items of all inodes

`mkfs.erofs` keeps one item for each name and value. A hash table finds the items, which count
their references: those of the counting phase, that looks for xattrs worth sharing, and those of
the inodes. An operation that touches an item which has been freed has no result here.
-/

namespace ErofsUtils
open ByteMemory CString

/-- `BKDRHash`, where `char` is signed. -/
def bkdrHash (str : List UInt8) : ℕ :=
  str.foldl (fun hash c =>
    u32 (hash * 131313 + if c.toNat < 128 then c.toNat else c.toNat + (2 ^ 32 - 256))) 0

/-- The bucket of `ea_hashtable` for a name and a value: `hash_min` with 16 bits. -/
def eaBucket (key value : List UInt8) : ℕ :=
  u32 ((bkdrHash key ^^^ bkdrHash value) * 0x61C88647) / 2 ^ 16

def XattrItem.kvbuf (item : XattrItem) : List UInt8 := item.key ++ 0 :: item.value

abbrev ItemMem := ℕ → Option XattrItem

/-- The xattrs in memory: the items by their addresses, of which those from `next` on are not yet
used; `ea_hashtable` with the bucket of each link and the lists of the inodes, with the inode of
each node, newest first; the references of the counting phase; `shared_xattrs_list`, and what the
shared area holds from `xattr_blkaddr` on. -/
structure XattrHeap where
  items : ItemMem
  next : ℕ
  table : List (ℕ × ℕ)
  nodes : List (ℕ × ℕ)
  counting : List ℕ
  shared : List ℕ
  sharedCount : ℕ
  area : Mem

/-- The configuration: the long prefixes and `c_inline_xattr_tolerance`. -/
structure XattrCfg where
  prefixes : List EaTypeNode
  inlineXattrTolerance : ℕ
  numbered : Numbered prefixes

inductive XattrOp
  | count (key value : List UInt8)
  | share (slot : ℕ)
  | clean (sharedxattrs : Bool)
  | set (ino : ℕ) (key value : List UInt8)
  | remove (ino : ℕ) (key : List UInt8)
  | exportIbody (ino : ℕ)

section Steps

/-- The search of `get_xattritem` through a bucket, for an item that is there. -/
def findXattritem (items : ItemMem) (bucket : ℕ) (key value : List UInt8) :
    List (ℕ × ℕ) → Option (Option (ℕ × XattrItem))
  | [] => some none
  | (b, id) :: links =>
    if b ≠ bucket then findXattritem items bucket key value links
    else match items id with
      | none => none
      | some item =>
        if item.key = key ∧ item.value = value then some (some (id, item))
        else findXattritem items bucket key value links

def getXattritem (cfg : XattrCfg) (key value : List UInt8) (s : XattrHeap) :
    Option (Except ℤ ℕ × XattrHeap) :=
  match findXattritem s.items (eaBucket key value) key value s.table with
  | none => none
  | some (some (id, item)) =>
    some (.ok id,
      { s with items := Function.update s.items id (some { item with count := u32 (item.count + 1) }) })
  | some none =>
    match newXattritem cfg.prefixes key value with
    | none => some (.error eNoAttr, s)
    | some item =>
      some (.ok s.next, { s with
        items := Function.update s.items s.next (some item)
        next := s.next + 1
        table := (eaBucket key value, s.next) :: s.table })

/-- `put_xattritem`: the item is freed with its last reference, and its link stays. -/
def putXattritem (id : ℕ) (items : ItemMem) : Option ItemMem :=
  match items id with
  | none => none
  | some item =>
    some (Function.update items id
      (if 1 < item.count then some { item with count := item.count - 1 } else none))

def erofsSetxattr (cfg : XattrCfg) (ino : ℕ) (key value : List UInt8) (s : XattrHeap) :
    Option XattrHeap :=
  match getXattritem cfg key value s with
  | none => none
  | some (.error _, s) => some s
  | some (.ok id, s) => some { s with nodes := (ino, id) :: s.nodes }

/-- `get_xattritem` and `erofs_xattr_add` in the counting phase. -/
def countXattr (cfg : XattrCfg) (key value : List UInt8) (s : XattrHeap) : Option XattrHeap :=
  match getXattritem cfg key value s with
  | none => none
  | some (.error _, s) => some s
  | some (.ok id, s) =>
    let s := { s with counting := id :: s.counting }
    if (s.items id).any (·.count = cfg.inlineXattrTolerance + 1) then
      some { s with shared := id :: s.shared, sharedCount := s.sharedCount + 1 }
    else some s

/-- The loop of `erofs_build_shared_xattrs_from_path` that writes the shared items and gives them
their ids, from `p` bytes into the area. -/
def assignShared (slot : ℕ) : ℕ → List ℕ → ItemMem → Mem → Option (ItemMem × Mem)
  | _, [], items, area => some (items, area)
  | p, id :: ids, items, area =>
    match items id with
    | none => none
    | some item =>
      let item := { item with sharedXattrId := ((4 * slot + p) / 4 : ℕ) }
      assignShared slot (erofsNextXattrAlign p item) ids (Function.update items id (some item))
        (store area (4 * slot + p) (erofsWriteXattrEntry item))

def compSharedXattrItem (items : ItemMem) (a b : ℕ) : Bool :=
  decide (((items a).map XattrItem.kvbuf).getD [] ≤ ((items b).map XattrItem.kvbuf).getD [])

/-- The end of `erofs_build_shared_xattrs_from_path`, before it cleans up: the shared items are
sorted and go to the area, which starts at a multiple of four bytes. The array that is sorted has a
place for each item that is counted, and a list that holds an item twice has no end. -/
def shareXattrs (slot : ℕ) (s : XattrHeap) : Option XattrHeap :=
  if s.sharedCount = 0 then some s
  else if ¬ (s.shared.Nodup ∧ s.shared.length = s.sharedCount) then none
  else
    let sorted := s.shared.mergeSort (compSharedXattrItem s.items)
    match assignShared slot 0 sorted s.items s.area with
    | none => none
    | some (items, area) => some { s with items, area, shared := sorted }

/-- The items that `erofs_cleanxattrs` takes from the table. -/
def cleanTakes (sharedxattrs : Bool) (items : ItemMem) (link : ℕ × ℕ) : Bool :=
  (items link.2).any fun item => ! (sharedxattrs && decide (0 ≤ item.sharedXattrId))

def XattrHeap.gone (s : XattrHeap) (sharedxattrs : Bool) : List ℕ :=
  (s.table.filter (cleanTakes sharedxattrs s.items)).map Prod.snd

/-- `erofs_cleanxattrs`. It ends the counting phase for the items that it frees. -/
def erofsCleanxattrs (sharedxattrs : Bool) (s : XattrHeap) : Option XattrHeap :=
  if s.table.any fun link => (s.items link.2).isNone then none
  else some { s with
    items := fun id => if id ∈ s.gone sharedxattrs then none else s.items id
    table := s.table.filter fun link => ! cleanTakes sharedxattrs s.items link
    counting := s.counting.filter (· ∉ s.gone sharedxattrs)
    sharedCount := if sharedxattrs then s.sharedCount else 0 }

/-- The loop of `erofs_removexattr` over the nodes. -/
def removeLoop (ino : ℕ) (key : List UInt8) :
    List (ℕ × ℕ) → ItemMem → Option (List (ℕ × ℕ) × ItemMem)
  | [], items => some ([], items)
  | (i, id) :: nodes, items =>
    if i ≠ ino then
      (removeLoop ino key nodes items).map fun r => ((i, id) :: r.1, r.2)
    else match items id with
      | none => none
      | some item =>
        if item.key = key then (putXattritem id items).bind (removeLoop ino key nodes)
        else (removeLoop ino key nodes items).map fun r => ((i, id) :: r.1, r.2)

def erofsRemovexattr (ino : ℕ) (key : List UInt8) (s : XattrHeap) : Option XattrHeap :=
  (removeLoop ino key s.nodes s.items).map fun r => { s with nodes := r.1, items := r.2 }

def XattrHeap.ixattrs (s : XattrHeap) (ino : ℕ) : List ℕ :=
  (s.nodes.filter (·.1 = ino)).map Prod.snd

/-- The first loop of `erofs_export_xattr_ibody`, after some shared ids: the ids that it writes,
and the list of the inline items, to which each one is added in front. -/
def exportShared : ℕ → List ℕ → ItemMem → Option (List ℤ × List ℕ × ItemMem)
  | _, [], items => some ([], [], items)
  | hSharedCount, id :: ids, items =>
    match items id with
    | none => none
    | some item =>
      if item.sharedXattrId < 0 ∨ ucharMax ≤ hSharedCount then
        (exportShared hSharedCount ids items).map fun r => (r.1, r.2.1 ++ [id], r.2.2)
      else
        (putXattritem id items).bind fun items =>
          (exportShared (hSharedCount + 1) ids items).map fun r =>
            (item.sharedXattrId :: r.1, r.2)

/-- The second loop: the items that it writes. -/
def exportInline : List ℕ → ItemMem → Option (List XattrItem × ItemMem)
  | [], items => some ([], items)
  | id :: ids, items =>
    match items id with
    | none => none
    | some item =>
      (putXattritem id items).bind fun items =>
        (exportInline ids items).map fun r => (item :: r.1, r.2)

/-- The lists that `erofs_export_xattr_ibody` writes for an inode, and the heap after it. -/
def exportXattrs (ino : ℕ) (s : XattrHeap) : Option (List ℤ × List XattrItem × XattrHeap) :=
  (exportShared 0 (s.ixattrs ino) s.items).bind fun r =>
    (exportInline r.2.1 r.2.2).map fun r' =>
      (r.1, r'.1, { s with nodes := s.nodes.filter (·.1 ≠ ino), items := r'.2 })

def xattrStep (cfg : XattrCfg) (op : XattrOp) (s : XattrHeap) : Option XattrHeap :=
  match op with
  | .count key value => countXattr cfg key value s
  | .share slot => shareXattrs slot s
  | .clean sharedxattrs => erofsCleanxattrs sharedxattrs s
  | .set ino key value => erofsSetxattr cfg ino key value s
  | .remove ino key => erofsRemovexattr ino key s
  | .exportIbody ino => (exportXattrs ino s).map fun r => r.2.2

end Steps

end ErofsUtils
