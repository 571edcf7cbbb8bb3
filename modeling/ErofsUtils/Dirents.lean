import ErofsUtils.CString
import ErofsUtils.Layout

/-!
# Reading directories

`erofs_iterate_dir` with `traverse_dirents`, which hands every entry of a directory to a
callback, and `erofs_namei` with `find_target_dirent`, which looks a name up. Both read a
directory block by block into a buffer that keeps what an earlier read has left in it. Both carry
a record of the places of the buffer that they look at and of the entries that they hand out.
-/

namespace ErofsUtils
open ByteMemory CString

abbrev FileName := List UInt8

def erofsNameLen : ℕ := 255

def erofsFtMax : ℕ := 8

def eFsCorrupted : ℤ := -117
def eNotDir : ℤ := -20
def eNoEnt : ℤ := -2
def eIo : ℤ := -5

/-- A difference of `unsigned int`. -/
def subU32 (a b : ℕ) : ℕ := (a + 2 ^ 32 - b) % 2 ^ 32

/-- What the directory code uses of the superblock; a mount refuses other block sizes. -/
structure DirSb where
  blkszbits : ℕ
  rootNid : ℕ
  blkszbits_le : blkszbits ≤ 16

def DirSb.blksz (sbi : DirSb) : ℕ := 2 ^ sbi.blkszbits

/-- What the directory code uses of an inode: `pread count offset` is `erofs_pread`, which fails
with a negative code or gives the bytes from `offset` on. -/
structure DirInode where
  nid : ℕ
  isDir : Bool
  iSize : ℕ
  pread : ℕ → ℕ → Except ℤ Mem
  pread_neg : ∀ {n pos e}, pread n pos = .error e → e < 0

def fillBuf (buf bytes : Mem) (n : ℕ) : Mem := fun i => if i < n then bytes i else buf i

namespace Dirent

variable (mem : Mem) (stop maxsize k : ℕ)

/-- The fields of the dirent at index `k` of `struct erofs_dirent`, which has 12 bytes. -/
def nid : ℕ := leNat mem (12 * k) 8

def nameoff : ℕ := leNat mem (12 * k + 8) 2

def fileType : ℕ := (mem (12 * k + 10)).toNat

/-- `de + 1 >= end`. -/
def isLast : Bool := stop ≤ 12 * (k + 1)

def namelen : ℕ :=
  if isLast stop k then
    strnlen mem (nameoff mem k) (subU32 maxsize (nameoff mem k)) % 2 ^ 32
  else subU32 (nameoff mem (k + 1)) (nameoff mem k)

/-- The places that are looked at for the name of an entry: its own offset, and the name itself
or the offset of the next entry. -/
def nameReads : List ℕ :=
  List.range' (12 * k + 8) 2 ++
    if isLast stop k then strnlenReads mem (nameoff mem k) (subU32 maxsize (nameoff mem k))
    else List.range' (12 * (k + 1) + 8) 2

def dname : FileName := slice mem (nameoff mem k) (namelen mem stop maxsize k)

end Dirent

def erofsValidateFilename (mem : Mem) (pos : ℕ) : ℕ → Bool
  | 0 => true
  | n + 1 =>
    if mem pos = 0 then true
    else if mem pos = 47 then false
    else erofsValidateFilename mem (pos + 1) n

def validateReads (mem : Mem) (pos : ℕ) : ℕ → List ℕ
  | 0 => []
  | n + 1 => pos :: if mem pos = 0 ∨ mem pos = 47 then [] else validateReads mem (pos + 1) n

def isDotDotdotLen (mem : Mem) (pos len : ℕ) : Bool :=
  if 1 ≤ len ∧ mem pos ≠ 46 then false else len = 1 ∨ (len = 2 ∧ mem (pos + 1) = 46)

def dotReads (mem : Mem) (pos len : ℕ) : List ℕ :=
  (if 1 ≤ len then [pos] else []) ++ if mem pos = 46 ∧ len = 2 then [pos + 1] else []

/-- What a callback finds in `struct erofs_dir_context`: `pos` is the place of `dname` in the
buffer. -/
structure DirVisit where
  nid : ℕ
  ftype : ℕ
  pos : ℕ
  dname : FileName
  dotDotdot : Bool
  deriving DecidableEq

inductive DirentFault
  | bogusNameoff | bogusNamelen | wrongOrder | invalidFileType | duplicatedDotdot
  | corruptedDotdot | duplicatedDot | corruptedDot | illegalFilename
  deriving DecidableEq

/-- `flags` and `pnid` of `struct erofs_dir_context`. -/
structure DirMarks where
  validPnid : Bool
  dotdotFound : Bool
  dotFound : Bool
  pnid : ℕ
  deriving DecidableEq

/-- An iteration under way: what the callback keeps is `st`; `inspected` has the places looked
at and `delivered` the entries handed to the callback, each with the `maxsize` of its block. -/
structure DirWalk (σ : Type*) where
  marks : DirMarks
  st : σ
  inspected : List (ℕ × ℕ)
  delivered : List (ℕ × DirVisit)

def DirWalk.look {σ : Type*} (w : DirWalk σ) (maxsize : ℕ) (places : List ℕ) : DirWalk σ :=
  { w with inspected := w.inspected ++ places.map (·, maxsize) }

section Traverse

variable {σ : Type*} (sbi : DirSb) (dir : DirInode) (fsck : Bool)

/-- The `switch` of `traverse_dirents` on an entry that is `.` or `..`. -/
def markSpecial (deNid namelen : ℕ) (c : DirMarks) : Option DirentFault × DirMarks :=
  if namelen = 2 then
    if fsck ∧ c.dotdotFound then (some .duplicatedDotdot, c)
    else
      let c := { c with dotdotFound := true }
      let c :=
        if sbi.rootNid = dir.nid then { c with pnid := sbi.rootNid, validPnid := true } else c
      if fsck ∧ c.validPnid ∧ deNid ≠ c.pnid then (some .corruptedDotdot, c) else (none, c)
  else if namelen = 1 then
    if fsck ∧ c.dotFound then (some .duplicatedDot, c)
    else
      let c := { c with dotFound := true }
      if fsck ∧ deNid ≠ dir.nid then (some .corruptedDot, c) else (none, c)
  else (none, c)

/-- The order check against the name before, at `prev` with its length. -/
def checkOrder (mem : Mem) (nameoff namelen : ℕ) : Option (ℕ × ℕ) → Bool
  | none => true
  | some (p, plen) =>
    let cmp := strncmp mem p nameoff (min plen namelen)
    !(decide (0 < cmp) || (decide (cmp = 0) && decide (namelen ≤ plen)))

def orderReads (mem : Mem) (nameoff namelen : ℕ) : Option (ℕ × ℕ) → List ℕ
  | none => []
  | some (p, plen) => strncmpReads mem p nameoff (min plen namelen)

/-- The turn of `traverse_dirents` for the entry at `k`, up to the callback: `stop` is the first
offset of the block, `next` is `next_nameoff`. -/
def direntTurn (mem : Mem) (stop maxsize k next : ℕ) (prev : Option (ℕ × ℕ)) (w : DirWalk σ) :
    Except DirentFault DirVisit × DirWalk σ :=
  let nameoff := Dirent.nameoff mem k
  let namelen := Dirent.namelen mem stop maxsize k
  let w := w.look maxsize (Dirent.nameReads mem stop maxsize k ++ List.range' (12 * k) 8)
  if nameoff ≠ next then (.error .bogusNameoff, w)
  else if maxsize < (nameoff + namelen) % 2 ^ 32 ∨ namelen = 0 ∨ erofsNameLen < namelen then
    (.error .bogusNamelen, w)
  else
    let w := if fsck then w.look maxsize (orderReads mem nameoff namelen prev) else w
    if fsck ∧ checkOrder mem nameoff namelen prev = false then (.error .wrongOrder, w)
    else
      let w := w.look maxsize [12 * k + 10]
      if fsck ∧ erofsFtMax ≤ Dirent.fileType mem k then (.error .invalidFileType, w)
      else
        let w := w.look maxsize (dotReads mem nameoff namelen)
        let visit : DirVisit :=
          { nid := Dirent.nid mem k, ftype := Dirent.fileType mem k, pos := nameoff
            dname := Dirent.dname mem stop maxsize k
            dotDotdot := isDotDotdotLen mem nameoff namelen }
        if visit.dotDotdot then
          match markSpecial sbi dir fsck visit.nid namelen w.marks with
          | (some e, marks) => (.error e, { w with marks := marks })
          | (none, marks) => (.ok visit, { w with marks := marks })
        else
          let w := if fsck then w.look maxsize (validateReads mem nameoff namelen) else w
          if fsck ∧ erofsValidateFilename mem nameoff namelen = false then
            (.error .illegalFilename, w)
          else (.ok visit, w)

/-- How `traverse_dirents` ends. -/
inductive DirEnd
  | done
  | fault (e : DirentFault)
  | callback (ret : ℤ)
  deriving DecidableEq

def DirEnd.ret : DirEnd → ℤ
  | done => 0
  | fault _ => eFsCorrupted
  | callback ret => ret

variable (cb : DirVisit → σ → Option (ℤ × σ))

/-- An entry is handed to the callback, which may fail to return. -/
def deliver (maxsize : ℕ) (v : DirVisit) (w : DirWalk σ) : Option (ℤ × DirWalk σ) :=
  match cb v w.st with
  | none => none
  | some (ret, st) => some (ret, { w with st := st, delivered := w.delivered ++ [(maxsize, v)] })

def traverseLoop (mem : Mem) (stop maxsize : ℕ) :
    ℕ → ℕ → ℕ → Option (ℕ × ℕ) → DirWalk σ → Option (DirEnd × DirWalk σ)
  | 0, _, _, _, w => some (.done, w)
  | fuel + 1, k, next, prev, w =>
    if stop ≤ 12 * k then some (.done, w)
    else
      match direntTurn sbi dir fsck mem stop maxsize k next prev w with
      | (.error e, w) => some (.fault e, w)
      | (.ok v, w) =>
        match deliver cb maxsize v w with
        | none => none
        | some (ret, w) =>
          if ret ≠ 0 then some (.callback ret, w)
          else
            traverseLoop mem stop maxsize fuel (k + 1) (next + v.dname.length)
              (some (v.pos, v.dname.length)) w

/-- Each turn moves on by one dirent, so `next_nameoff` turns are more than enough. -/
def traverseDirents (mem : Mem) (nextNameoff maxsize : ℕ) (w : DirWalk σ) :
    Option (DirEnd × DirWalk σ) :=
  traverseLoop sbi dir fsck cb mem nextNameoff maxsize nextNameoff 0 nextNameoff none w

/-- The loop of `erofs_iterate_dir`: an error is returned at once, another result is what `err`
is after the loop. -/
def iterateLoop : ℕ → ℕ → Mem → DirWalk σ → Option (Except ℤ ℤ × DirWalk σ)
  | 0, _, _, w => some (.ok 0, w)
  | fuel + 1, pos, buf, w =>
    if dir.iSize ≤ pos then some (.ok 0, w)
    else
      let maxsize := min (dir.iSize - pos) sbi.blksz
      match dir.pread maxsize pos with
      | .error e => some (.error e, w)
      | .ok bytes =>
        let buf := fillBuf buf bytes maxsize
        let w := w.look maxsize (List.range' 8 2)
        let nameoff := Dirent.nameoff buf 0
        if nameoff < 12 ∨ sbi.blksz ≤ nameoff then some (.error eFsCorrupted, w)
        else
          match traverseDirents sbi dir fsck cb buf nameoff maxsize w with
          | none => none
          | some (.done, w) => iterateLoop fuel (pos + maxsize) buf w
          | some (e, w) => some (.ok e.ret, w)

/-- The start of an iteration, where `.` and `..` are not found yet. -/
def DirWalk.start (marks : DirMarks) (st : σ) : DirWalk σ :=
  ⟨{ marks with dotdotFound := false, dotFound := false }, st, [], []⟩

/-- `erofs_iterate_dir` with a buffer that holds `buf` at first. Each turn reads at least one
byte, so `i_size` turns are enough. -/
def erofsIterateDir (buf : Mem) (marks : DirMarks) (st : σ) : Option (ℤ × DirWalk σ) :=
  if ¬ dir.isDir then some (eNotDir, ⟨marks, st, [], []⟩)
  else
    match iterateLoop sbi dir fsck cb dir.iSize 0 buf (.start marks st) with
    | none => none
    | some (.error e, w) => some (e, w)
    | some (.ok err, w) =>
      if fsck ∧ ¬ (w.marks.dotdotFound ∧ w.marks.dotFound) then some (eFsCorrupted, w)
      else some (err, w)

end Traverse

section Namei

variable (sbi : DirSb) (dir : DirInode) (name : FileName)

/-- The loop of `find_target_dirent` with the places it looks at: the index of the entry found,
if any. -/
def findTargetLoop (mem : Mem) (stop maxsize : ℕ) :
    ℕ → ℕ → Except ℤ (Option ℕ) × List ℕ
  | 0, _ => (.ok none, [])
  | fuel + 1, k =>
    if stop ≤ 12 * k then (.ok none, [])
    else
      let nameoff := Dirent.nameoff mem k
      let namelen := Dirent.namelen mem stop maxsize k
      let reads := Dirent.nameReads mem stop maxsize k
      if maxsize < (nameoff + namelen) % 2 ^ 32 ∨ erofsNameLen < namelen then
        (.error eFsCorrupted, reads)
      else
        let reads := reads ++
          if name.length = namelen then List.range' nameoff namelen else []
        if name.length = namelen ∧ slice mem nameoff namelen = name then (.ok (some k), reads)
        else
          match findTargetLoop mem stop maxsize fuel (k + 1) with
          | (r, rest) => (r, reads ++ rest)

def findTargetDirent (mem : Mem) (nameoff maxsize : ℕ) : Except ℤ (Option ℕ) × List ℕ :=
  findTargetLoop name mem nameoff maxsize nameoff 0

/-- What a lookup leaves: its result, the places it looked at, each with the `maxsize` of its
block, and the place and the length of the name that matched, with the same. -/
structure NameiEnd where
  ret : Except ℤ ℕ
  inspected : List (ℕ × ℕ)
  matched : Option (ℕ × ℕ × ℕ)

def NameiEnd.look (r : NameiEnd) (maxsize : ℕ) (places : List ℕ) : NameiEnd :=
  { r with inspected := places.map (·, maxsize) ++ r.inspected }

/-- The loop of `erofs_namei` on an inode that has been read. -/
def nameiLoop : ℕ → ℕ → Mem → NameiEnd
  | 0, _, _ => ⟨.error eNoEnt, [], none⟩
  | fuel + 1, offset, buf =>
    if dir.iSize ≤ offset then ⟨.error eNoEnt, [], none⟩
    else
      let maxsize := min (dir.iSize - offset) sbi.blksz
      match dir.pread maxsize offset with
      | .error e => ⟨.error e, [], none⟩
      | .ok bytes =>
        let buf := fillBuf buf bytes maxsize
        let nameoff := Dirent.nameoff buf 0
        if nameoff < 12 ∨ sbi.blksz ≤ nameoff then
          NameiEnd.look ⟨.error eFsCorrupted, [], none⟩ maxsize (List.range' 8 2)
        else
          match findTargetDirent name buf nameoff maxsize with
          | (.error e, reads) =>
            NameiEnd.look ⟨.error e, [], none⟩ maxsize (List.range' 8 2 ++ reads)
          | (.ok (some k), reads) =>
            let found := (Dirent.nameoff buf k, Dirent.namelen buf nameoff maxsize k)
            NameiEnd.look ⟨.ok (Dirent.nid buf k), [], some (maxsize, found)⟩ maxsize
              (List.range' 8 2 ++ reads ++ List.range' (12 * k) 8)
          | (.ok none, reads) =>
            (nameiLoop fuel (offset + maxsize) buf).look maxsize (List.range' 8 2 ++ reads)

end Namei

end ErofsUtils
