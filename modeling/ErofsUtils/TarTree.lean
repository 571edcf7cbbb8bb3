import ErofsUtils.RebuildPath

/-!
# Replaying tar entries

The part of `tarerofs_parse_tar` that follows the header, on the tree of inodes and dentries, with
`tarerofs_remove_inode` and `erofs_iput`.
-/

namespace ErofsUtils

namespace TreeHeap

/-- `erofs_iput`. An inode without references is freed together with its dentries. -/
def erofsIput (t : TreeHeap) (i : ℕ) : TreeHeap :=
  if 1 ≤ (t.inode i).count - 1 then t.setInode i { t.inode i with count := (t.inode i).count - 1 }
  else t.setInode i { t.inode i with count := 0, iSubdirs := [] }

/-- `--inode->i_nlink`. -/
def decNlink (t : TreeHeap) (i : ℕ) : TreeHeap :=
  t.setInode i { t.inode i with nlink := (t.inode i).nlink - 1 }

/-- `++inode->i_nlink`. -/
def incNlink (t : TreeHeap) (i : ℕ) : TreeHeap :=
  t.setInode i { t.inode i with nlink := (t.inode i).nlink + 1 }

def setDentryInode (t : TreeHeap) (d inode : ℕ) : TreeHeap :=
  t.setDentry d { t.dentry d with inode := inode }

/-- `tarerofs_remove_inode`. The recursion is as deep as the directories are nested. -/
def tarerofsRemoveInode : ℕ → TreeHeap → ℕ → TreeHeap
  | 0, t, _ => t
  | depth + 1, t, inode =>
    let t := t.decNlink inode
    if (t.inode inode).mode ≠ .dir then t
    else
      let t := (t.subdirs inode).foldl (fun t d =>
        let child := (t.dentry d).inode
        let t := if isDotDotdot (t.dentry d).name then t else tarerofsRemoveInode depth t child
        (t.erofsIput child).setDentryInode d 0) t
      t.decNlink (t.inode inode).iParent

/-- Remove the inode of a dentry and drop the reference of the dentry. -/
def replaceInode (t : TreeHeap) (d inode : ℕ) : TreeHeap :=
  ((tarerofsRemoveInode t.nextInode t (t.dentry d).inode).erofsIput
    (t.dentry d).inode).setDentryInode d inode

end TreeHeap

/-- An entry of a tar archive: the name and the link name, which are C strings, whether the type
flag says that it is a hard link, the type in `st_mode`, and the error, if any, of the operations
on its data and its xattrs. -/
structure TarEntry where
  path : List Char
  link : List Char
  hardlink : Bool
  mode : FileType
  rest : Option Errno
  nul : '\x00' ∉ path ∧ '\x00' ∉ link

inductive TarErrno
  | errno (err : Errno)
  | enotdir
  | eisdir
  deriving DecidableEq

/-- `tarerofs_parse_tar` returns, or it dereferences `NULL`. -/
inductive TarOutcome
  | ok (t : TreeHeap)
  | error (err : TarErrno)
  | fault

namespace TreeHeap

/-- A hard link: `d2` is looked up when the entry `d` has lost its inode. -/
def tarHardLink (t : TreeHeap) (root : ℕ) (aufs : Bool) (d : ℕ) (x : TarEntry) : TarOutcome :=
  if x.mode = .dir then .error .eisdir
  else
    let t := if (t.dentry d).type ≠ .unknown then t.replaceInode d 0 else t.setDentryInode d 0
    match (erofsRebuildGetDentry t root x.link aufs false).ret with
    | .error err => .error (.errno err)
    | .ok w =>
      if w.d = 0 then .fault
      else if (w.tree.dentry w.d).type = .unknown then .error (.errno .enoent)
      else if (w.tree.inode (w.tree.dentry w.d).inode).mode = .dir then .error .eisdir
      else
        let inode := (w.tree.dentry w.d).inode
        let t := w.tree.erofsIgrab inode
        let t := t.setDentry d
          { t.dentry d with inode := inode, type := (t.dentry w.d).type }
        .ok (t.incNlink inode)

/-- `new_inode`: the dentry refers to the parent that the inode gets. -/
def tarNewInode (t : TreeHeap) (d : ℕ) (mode : FileType) : ℕ × TreeHeap :=
  let (inode, t) := t.erofsNewInode .unknown (t.dentry d).inode
  (inode, t.setDentry d { t.dentry d with inode := inode, type := mode })

/-- What follows when the inode is known: its mode, its data, its links and its first dentries. -/
def tarFillInode (t : TreeHeap) (d inode : ℕ) (whout : Bool) (x : TarEntry) : TarOutcome :=
  let t :=
    if whout then
      let t := t.setInode inode { t.inode inode with mode := .chrdev }
      let t := t.setDentry d { t.dentry d with type := .chrdev }
      t.setInode (t.inode inode).iParent { t.inode (t.inode inode).iParent with whiteouts := true }
    else t.setInode inode { t.inode inode with mode := x.mode }
  match x.rest with
  | some err => .error (.errno err)
  | none =>
    if (t.inode inode).mode ≠ .dir then .ok (t.incNlink inode)
    else if (t.inode inode).nlink = 0 then .ok (t.erofsInitEmptyDir inode)
    else .ok t

def tarerofsParseTar (t : TreeHeap) (root : ℕ) (aufs : Bool) (x : TarEntry) : TarOutcome :=
  match (erofsRebuildGetDentry t root x.path aufs true).ret with
  | .error err => .error (.errno err)
  | .ok w =>
    let t := w.tree
    let d := w.d
    if d = 0 then
      -- some tarballs include '.' which indicates the root directory
      if x.mode ≠ .dir then .error .enotdir else t.tarFillInode 0 root w.whout x
    else if w.opq then
      match x.rest with
      | some err => .error (.errno err)
      | none =>
        .ok (t.setInode (t.dentry d).inode { t.inode (t.dentry d).inode with isOpaque := true })
    else if x.hardlink then t.tarHardLink root aufs d x
    else if (t.dentry d).type ≠ .unknown then
      if (t.dentry d).type ≠ .dir ∨ x.mode ≠ .dir then
        let parent := (t.inode (t.dentry d).inode).iParent
        let (inode, t) := (t.replaceInode d parent).tarNewInode d x.mode
        t.tarFillInode d inode w.whout x
      else t.tarFillInode d (t.dentry d).inode w.whout x
    else
      let (inode, t) := t.tarNewInode d x.mode
      t.tarFillInode d inode w.whout x

def tarReplay (root : ℕ) (aufs : Bool) : TreeHeap → List TarEntry → TarOutcome
  | t, [] => .ok t
  | t, x :: xs =>
    match t.tarerofsParseTar root aufs x with
    | .ok t' => tarReplay root aufs t' xs
    | r => r

end TreeHeap

end ErofsUtils
