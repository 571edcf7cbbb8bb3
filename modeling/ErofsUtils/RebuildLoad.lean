import ErofsUtils.Overlay

/-!
# Loading source images into one tree

`erofs_rebuild_load_tree` and its callback. The merged tree is kept by value: a directory is the
list of its dentries, each with the directory below it. The dentry that
`erofs_rebuild_get_dentry` returns for a dirent's name, which has no slash in it, is the first one
of that name in the directory, or else a new one at its end.
-/

namespace ErofsUtils

inductive RebuildDatamode
  | blobIndex | resvsp | full
  deriving DecidableEq

/-- An inode of the merged tree: the dirent that the dentry was made from, and `opaque`. -/
structure MergeInode where
  src : SrcEntry
  isOpaque : Bool
  deriving DecidableEq

def MergeInode.isDir (i : MergeInode) : Bool := i.src.inode.isDir

/-- The dentries of a directory of the merged tree, without `.` and `..`. -/
inductive MergeDir
  | nil
  | cons (name : Name) (inode : MergeInode) (sub rest : MergeDir)
  deriving DecidableEq

namespace MergeDir

def names : MergeDir → List Name
  | nil => []
  | cons name _ _ rest => name :: rest.names

/-- The first dentry of a name, with the directory below it. -/
def find (c : Name) : MergeDir → Option (MergeInode × MergeDir)
  | nil => none
  | cons name inode sub rest => if name = c then some (inode, sub) else rest.find c

/-- The directory below that dentry is replaced. -/
def setSub : MergeDir → Name → MergeDir → MergeDir
  | nil, _, _ => nil
  | cons name inode sub rest, c, sub' =>
    if name = c then cons name inode sub' rest else cons name inode sub (rest.setSub c sub')

/-- `erofs_d_alloc`: a dentry at the end. Its array holds at most `EROFS_NAME_LEN - 1` characters
of the name. -/
def dAlloc : MergeDir → Name → MergeInode → MergeDir → MergeDir
  | nil, c, inode, sub => cons (c.take (nameLen - 1)) inode sub nil
  | cons name inode' sub' rest, c, inode, sub =>
    cons name inode' sub' (rest.dAlloc c inode sub)

def entriesAt : MergeDir → List Name → List SrcEntry
  | _, [] => []
  | nil, _ :: _ => []
  | cons name inode sub rest, c :: path =>
    (if name = c then match path with
      | [] => [inode.src]
      | c' :: path => sub.entriesAt (c' :: path)
    else []) ++ rest.entriesAt (c :: path)

end MergeDir

/-- The part of `erofs_read_xattrs_from_disk` that looks at the opaque xattr. -/
def readOpaque (src : SrcInode) : Except Errno Bool :=
  if src.isOpaque ∧ ¬ src.isDir then .error .einval else .ok src.isOpaque

def erofsRebuildUpdateInode (mode : RebuildDatamode) (src : SrcInode) : Except Errno Unit :=
  match src.mode with
  | .chrdev | .blkdev | .fifo | .sock | .dir | .symlink => .ok ()
  | .regFile =>
    if src.iSize = 0 then .ok ()
    else match mode with
      | .blobIndex => match src.blobIndex with
        | none => .ok ()
        | some e => .error e
      | .resvsp => .ok ()
      | .full => .error .eopnotsupp
  | .unknown => .error .einval

/-- `erofs_iterate_dir` with the callback `erofs_rebuild_dirent_iter`: the dirents of a directory
of image `dev` are merged into `mergedir` one after the other. A further link of a regular file
shares the inode of the first one, which has passed the same checks. -/
def erofsRebuildDirentIter (mode : RebuildDatamode) (dev : ℕ) :
    SrcDir → MergeDir → Except Errno MergeDir
  | .nil, mergedir => .ok mergedir
  | .cons name src sub rest, mergedir =>
    let merged : Except Errno MergeDir :=
      match mergedir.find name with
      | some (d, dsub) =>
        -- bail out if the file exists in the upper layers
        if ¬ d.isDir ∨ d.isOpaque then .ok mergedir
        else if ¬ src.isDir then .ok mergedir
        else match erofsRebuildDirentIter mode dev sub dsub with
          | .error e => .error e
          | .ok dsub => .ok (mergedir.setSub name dsub)
      | none =>
        match readOpaque src with
        | .error e => .error e
        | .ok isOpaque =>
          match erofsRebuildUpdateInode mode src with
          | .error e => .error e
          | .ok () =>
            let inode : MergeInode := ⟨⟨dev, name, src⟩, isOpaque⟩
            if src.isDir then
              match erofsRebuildDirentIter mode dev sub .nil with
              | .error e => .error e
              | .ok dsub => .ok (mergedir.dAlloc name inode dsub)
            else .ok (mergedir.dAlloc name inode .nil)
    match merged with
    | .error e => .error e
    | .ok mergedir => erofsRebuildDirentIter mode dev rest mergedir

def erofsRebuildLoadTree (mode : RebuildDatamode) (root : MergeDir) (l : Layer) :
    Except Errno MergeDir :=
  erofsRebuildDirentIter mode l.dev l.root root

/-- The loop of `erofs_mkfs_rebuild_load_trees` over the images, the uppermost one first. -/
def erofsMkfsRebuildLoadTrees (mode : RebuildDatamode) :
    List Layer → MergeDir → Except Errno MergeDir
  | [], root => .ok root
  | l :: layers, root =>
    match erofsRebuildLoadTree mode root l with
    | .error e => .error e
    | .ok root => erofsMkfsRebuildLoadTrees mode layers root

end ErofsUtils
