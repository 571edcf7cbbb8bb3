import ErofsUtils.BufMgrFail
import ErofsUtils.Extract
import ErofsUtils.ExtractWalk
import ErofsUtils.FileNames
import ErofsUtils.XattrDump
import ErofsUtils.XattrSize

/-!
# Extracting nodes

What extract.erofs does with the nodes of its walk: directories are made first, and the rest in
some order. Of the nodes for inodes with several links, a table keeps one path for each, in the
slot of the number of the inode modulo the size of the table. Nodes with a path there are made as
hard links to it.
-/

namespace ErofsUtils
open CString PathStrings

def eExist : ℤ := -17
def eNxIo : ℤ := -6
def eIsDir : ℤ := -21
def eNotEmpty : ℤ := -39
def eLoop : ℤ := -40
def eNoDev : ℤ := -19

def retExtractFailSkip : ℤ := 9

def ErofsNode.nid (n : ErofsNode) : ℕ := n.inode.dir.nid

def ErofsNode.nlink (n : ErofsNode) : ℕ := n.inode.nlink

/-- What a name in the output directory stands for. -/
inductive OutKind
  | dir
  | file (data : List UInt8)
  | symlink (text : List UInt8)
  | special (typeId : FileType) (rdev : ℕ)
  deriving DecidableEq

/-- The tree below the output directory, each name by its path from there. -/
abbrev OutTree := FileNames (List FileName) OutKind

def OutTree.empty : OutTree := ⟨[], fun _ => .dir, 0⟩

/-- The options, the image with the other fields of its inodes, and what `stat` finds for a symlink
with a text. A file is opened while the image is open, so its descriptor is never 0. -/
structure OutEnv where
  overwrite : Bool
  superuser : Bool
  image : DataEnv
  fields : FsckInode → DataInode
  rdev : FsckInode → ℕ
  follow : OutTree → List UInt8 → Option OutKind
  outfd : ℤ
  outfd_pos : 0 < outfd

def DataErr.ret : DataErr → ℤ
  | .read .eio => eIo
  | .read .einval => eInval
  | .read .enomem => eNoMem
  | .read .enospc => eNoSpc
  | .read .enoent => eNoEnt
  | .read .eopnotsupp => eOpNotSupp
  | .read .efscorrupted => eFsCorrupted
  | .enodev => eNoDev
  | .sys errno => -errno

namespace OutEnv

variable (env : OutEnv) (inode : FsckInode)

/-- `erofs_verify_inode_data` on a new file: its result and the bytes that are then in the file. -/
def verifyInodeData : Option (ℤ × List UInt8) :=
  match extractVerifyInodeData env.image (env.fields inode) true env.outfd with
  | none => none
  | some (.ok (), out) => some (0, out.bytes)
  | some (.error e, out) => some (e.ret, out.bytes)

def pread : Option (Except DataErr (List UInt8)) :=
  erofsPreadData env.image (env.fields inode) (env.fields inode).iSize 0

end OutEnv

section Calls

/-! The calls of the system, for a process that may do everything. A path is taken from the output
directory on, which is there and is a directory. -/

variable (env : OutEnv)

def parentIsDir (t : OutTree) (p : List FileName) : Bool :=
  p.dropLast = [] ∨ t.look p.dropLast = some .dir

def stat (t : OutTree) (path : List UInt8) : Option OutKind :=
  if pathComponents path = [] then some .dir
  else
    match t.look (pathComponents path) with
    | some (.symlink text) => env.follow t text
    | kind => kind

/-- `mkdir`, `symlink` and `mknod`. -/
def sysCreate (path : List UInt8) (kind : OutKind) (t : OutTree) : Except ℤ OutTree :=
  let p := pathComponents path
  if p = [] ∨ t.find p ≠ none then .error eExist
  else if parentIsDir t p then .ok (t.create p kind)
  else .error eNoEnt

/-- `open` for writing with `O_CREAT` and `O_NOFOLLOW`, and with `O_TRUNC` or `O_EXCL`. -/
def sysOpen (overwrite : Bool) (path : List UInt8) (t : OutTree) : Except ℤ (ℕ × OutTree) :=
  let p := pathComponents path
  if p = [] then .error (if overwrite then eIsDir else eExist)
  else
    match t.find p with
    | none => if parentIsDir t p then .ok (t.next, t.create p (.file [])) else .error eNoEnt
    | some i =>
      if overwrite then
        match t.kind i with
        | .file _ => .ok (i, t.write i (.file []))
        | .dir => .error eIsDir
        | .symlink _ => .error eLoop
        | .special _ _ => .error eNxIo
      else .error eExist

def sysLink (src : List UInt8) (path : List UInt8) (t : OutTree) : Except ℤ OutTree :=
  let p := pathComponents path
  match t.find (pathComponents src) with
  | none => .error eNoEnt
  | some i =>
    if p = [] ∨ t.find p ≠ none then .error eExist
    else if parentIsDir t p then
      if t.kind i = .dir then .error ePerm else .ok (t.addName p i)
    else .error eNoEnt

def sysUnlink (path : List UInt8) (t : OutTree) : Except ℤ OutTree :=
  match t.look (pathComponents path) with
  | none => .error eNoEnt
  | some .dir => .error eIsDir
  | some _ => .ok (t.erase (pathComponents path))

def sysRmdir (path : List UInt8) (t : OutTree) : Except ℤ OutTree :=
  match t.look (pathComponents path) with
  | none => .error eNoEnt
  | some .dir =>
    if t.entries.any fun e => e.1.dropLast = pathComponents path ∧ e.1 ≠ [] then
      .error eNotEmpty
    else .ok (t.erase (pathComponents path))
  | some _ => .error eNotDir

end Calls

section Extract

variable (env : OutEnv)

def fileExists (t : OutTree) (path : List UInt8) : Bool :=
  match stat env t path with
  | some (.file _) => true
  | _ => false

/-- A call that makes the name `path`, with the second try that overwriting gives it. -/
def createAgain (path : List UInt8) (call : OutTree → Except ℤ OutTree) (t : OutTree) :
    ℤ × OutTree :=
  match call t with
  | .ok t => (0, t)
  | .error e =>
    if e = eExist ∧ env.overwrite then
      match sysUnlink path t with
      | .error e => (e, t)
      | .ok t =>
        match call t with
        | .ok t => (0, t)
        | .error e => (e, t)
    else (e, t)

/-- The loop of `mkdirs`, where `pre` is the path up to `str[i]`. -/
def mkdirsLoop (pre : List UInt8) : List UInt8 → OutTree → ℤ × OutTree
  | [], t =>
    if pre ≠ [] ∧ stat env t pre = none then
      match sysCreate pre .dir t with
      | .error e => (e, t)
      | .ok t => (0, t)
    else (0, t)
  | b :: rest, t =>
    if b = 47 ∧ pre ≠ [] ∧ stat env t pre = none then
      match sysCreate pre .dir t with
      | .error e => (e, t)
      | .ok t => mkdirsLoop (pre ++ [b]) rest t
    else mkdirsLoop (pre ++ [b]) rest t

def mkdirs (path : List UInt8) (t : OutTree) : ℤ × OutTree := mkdirsLoop env [] path t

def erofsExtractDir (path : List UInt8) (t : OutTree) : ℤ × OutTree :=
  match mkdirs env path t with
  | (e, t) =>
    if e = 0 then (0, t)
    else if env.overwrite then
      let unlinked := if e = eExist ∧ t.look (pathComponents path) ≠ some .dir then sysUnlink path t
        else .ok t
      match unlinked with
      | .error e => (e, t)
      | .ok t =>
        match mkdirs env path t with
        | (e, t) =>
          (if e = eExist ∧ t.look (pathComponents path) ≠ some .dir then eNotDir else e, t)
    else (if e = eExist ∧ t.look (pathComponents path) ≠ some .dir then eNotDir else e, t)

/-- What is left to do with a file that is open. Without a result `erofs_verify_inode_data` does
not return, or runs over its buffer. -/
def fillFile (inode : FsckInode) (opened : ℕ × OutTree) : Option (ℤ × OutTree) :=
  match env.verifyInodeData inode with
  | none => none
  | some (ret, data) => some (ret, opened.2.write opened.1 (.file data))

def erofsExtractFile (inode : FsckInode) (path : List UInt8) (t : OutTree) :
    Option (ℤ × OutTree) :=
  match sysOpen env.overwrite path t with
  | .ok opened => fillFile env inode opened
  | .error e =>
    if env.overwrite then
      match if e = eIsDir then sysRmdir path t else .ok t with
      | .error _ => some (eIsDir, t)
      | .ok t =>
        match sysOpen env.overwrite path t with
        | .ok opened => fillFile env inode opened
        | .error e => some (e, t)
    else some (if e = eExist then retExtractFailSkip else e, t)

def erofsExtractSymlink (inode : FsckInode) (path : List UInt8) (t : OutTree) :
    Option (ℤ × OutTree) :=
  match env.pread inode with
  | none => none
  | some (.error e) => some (e.ret, t)
  | some (.ok buf) =>
    let symlink := fun t => if upToNul buf = [] then .error eNoEnt
      else sysCreate path (.symlink (upToNul buf)) t
    match createAgain env path symlink t with
    | (e, t) => some (if e = eExist ∧ ¬ env.overwrite then retExtractFailSkip else e, t)

def erofsExtractSpecial (inode : FsckInode) (path : List UInt8) (t : OutTree) : ℤ × OutTree :=
  match createAgain env path (sysCreate path (.special inode.mode (env.rdev inode))) t with
  | (e, t) => (if e = 0 ∨ e = eExist ∨ env.superuser then e else eCanceled, t)

/-- What is left to do once the source has been made with the result `ret`. Nothing is linked where
the target is the source, or a prefix of its path. -/
def linkTarget (srcPath targetPath : List UInt8) (ret : ℤ) (t : OutTree) : ℤ × OutTree :=
  if targetPath.isPrefixOf srcPath then (ret, t)
  else
    match createAgain env targetPath (sysLink srcPath targetPath) t with
    | (e, t) =>
      (if e = 0 then ret else if e = eExist ∧ ¬ env.overwrite then retExtractFailSkip else e, t)

def erofsExtractHardlink (inode : FsckInode) (srcPath targetPath : List UInt8) (t : OutTree) :
    Option (ℤ × OutTree) :=
  match if fileExists env t srcPath then some (0, t) else erofsExtractFile env inode srcPath t with
  | none => none
  | some (ret, t) => some (linkTarget env srcPath targetPath ret t)

end Extract

section Table

def nrHardlinkHashtable : ℕ := 16384

/-- `erofsHardlinkMap`. -/
abbrev HardlinkMap := ℕ → Option (ℕ × List UInt8)

def erofsHardlinkInsert (nid : ℕ) (path : List UInt8) (map : HardlinkMap) : HardlinkMap :=
  fun k => if k = nid % nrHardlinkHashtable then some (nid, path) else map k

def erofsHardlinkFind (map : HardlinkMap) (nid : ℕ) : Option (List UInt8) :=
  match map (nid % nrHardlinkHashtable) with
  | some entry => if entry.1 = nid then some entry.2 else none
  | none => none

/-- What `erofsNodeClassification` fills. -/
structure NodeClasses where
  hardlinks : HardlinkMap
  nodeDirs : List ErofsNode
  nodeOther : List ErofsNode

def classifyNode (c : NodeClasses) (n : ErofsNode) : NodeClasses :=
  if n.typeId = .dir then { c with nodeDirs := c.nodeDirs ++ [n] }
  else if 1 < n.nlink ∧ erofsHardlinkFind c.hardlinks n.nid = none then
    { c with
      hardlinks := erofsHardlinkInsert n.nid n.path c.hardlinks
      nodeOther := c.nodeOther ++ [n] }
  else { c with nodeOther := c.nodeOther ++ [n] }

def erofsNodeClassification (nodes : List ErofsNode) : NodeClasses :=
  nodes.foldl classifyNode ⟨fun _ => none, [], []⟩

end Table

section Nodes

variable (env : OutEnv)

def writeNodeEntity2File (hardlinks : HardlinkMap) (n : ErofsNode) (t : OutTree) :
    Option (ℤ × OutTree) :=
  match erofsHardlinkFind hardlinks n.nid with
  | some src => erofsExtractHardlink env n.inode src n.path t
  | none =>
    match n.typeId with
    | .dir => some (erofsExtractDir env n.path t)
    | .regFile => erofsExtractFile env n.inode n.path t
    | .symlink => erofsExtractSymlink env n.inode n.path t
    | .chrdev | .blkdev | .fifo | .sock => some (erofsExtractSpecial env n.inode n.path t)
    | .unknown => some (0, t)

/-- Node after node: a failure is noted and the rest goes on. -/
def writeNodes (hardlinks : HardlinkMap) : List ErofsNode → OutTree → Option OutTree
  | [], t => some t
  | n :: ns, t =>
    match writeNodeEntity2File env hardlinks n t with
    | none => none
    | some (_, t) => writeNodes hardlinks ns t

/-- `extractErofsNode`, and with several threads too, where `order` is the order in which these
get to the nodes that are no directories: a node with a path in the table is made under a lock. -/
def extractErofsNode (nodes order : List ErofsNode) (t : OutTree) : Option OutTree :=
  let c := erofsNodeClassification nodes
  match writeNodes env c.hardlinks c.nodeDirs t with
  | none => none
  | some t => writeNodes env c.hardlinks order t

end Nodes

end ErofsUtils
