import Mathlib.Data.List.Basic
import ErofsUtils.Layout

/-!
# Dumping the source tree

`erofs_mkfs_dump_tree` of `inode.c` with the handlers it calls on every inode and the jobs it
issues. The walk keeps a list of directories to write: all entries of the first one are handled,
its subdirectories go to the front of the list, and the job that writes the directory itself is
issued. In the threaded build the jobs run in another thread, in the order in which they were
issued; otherwise `erofs_mkfs_go` runs them at once.

What the operations on one inode return is a parameter, so that a run is determined by the tree
and by a pattern of failures.
-/

namespace ErofsUtils

/-- A dentry of `i_subdirs`, in the order in which `erofs_prepare_dir_file` leaves them. A dentry
with `validnid` refers to an inode of the base image of an incremental build. -/
inductive Dentry where
  | dot
  | dotdot
  | valid (nid : ℕ)
  | file (ino : ℕ)
  | dir (ino : ℕ) (subdirs : List Dentry)

structure Dir where
  ino : ℕ
  parent : ℕ
  subdirs : List Dentry

mutual
/-- The directories of a dentry in depth-first order, each with its parent. -/
def Dentry.dirs (parent : ℕ) : Dentry → List Dir
  | .dir ino subdirs => ⟨ino, parent, subdirs⟩ :: dirsBelow ino subdirs
  | _ => []

/-- The directories in a list of dentries of the directory `parent`. -/
def dirsBelow (parent : ℕ) : List Dentry → List Dir
  | [] => []
  | d :: ds => d.dirs parent ++ dirsBelow parent ds
end

mutual
/-- The inodes of the other files of a dentry, hard links repeated. -/
def Dentry.files : Dentry → List ℕ
  | .file ino => [ino]
  | .dir _ subdirs => filesBelow subdirs
  | _ => []

def filesBelow : List Dentry → List ℕ
  | [] => []
  | d :: ds => d.files ++ filesBelow ds
end

namespace Dir

def dirs (d : Dir) : List Dir := d :: dirsBelow d.ino d.subdirs

/-- The inodes whose references the dentries of a directory hold. -/
def refs (d : Dir) : List ℕ := d.subdirs.filterMap fun e =>
  match e with
  | .dot => some d.ino
  | .dotdot => some d.parent
  | .valid _ => none
  | .file ino => some ino
  | .dir ino _ => some ino

end Dir

/-- `inode->datasource`. -/
inductive DataSource
  | none | localpath | diskbuf | resvsp
  deriving DecidableEq

/-- The fields of `struct erofs_inode` that the handlers test. `compressible` stands for
`cfg.c_compr_opts[0].alg && erofs_file_is_compressible(inode)` and `fromBase` for
`inode->dev == inode->sbi->dev && !inode->opaque`. -/
structure MkfsInode where
  islnk : Bool
  isreg : Bool
  hasLink : Bool
  isize : ℕ
  compressible : Bool
  datasource : DataSource
  extended : Bool
  fromBase : Bool

inductive MkfsOp
  | scanFileXattrs | prepareXattrIbody | openFile | beginCompressedFile
  | opendir | readdir | initEmptyDir | prepareDirFile | rebuildLoadBasedir | diskbufGetfd
  | readlink | writeFileFromBuffer | reserveDataBlocks
  | lseek | writeCompressedFile | lseekBack | writeUnencodedFile
  | prepareInodeBuffer | writeTailEnd | writeDirFile
  deriving DecidableEq

/-- A build: its mode, its inodes, and what every operation returns. A descriptor or `-errno` is
returned for `open` and `erofs_diskbuf_getfd`. -/
structure MkfsEnv where
  rebuild : Bool
  incremental : Bool
  forceCompact : Bool
  inode : ℕ → MkfsInode
  ret : MkfsOp → ℕ → ℤ

/-- `struct erofs_mkfs_jobitem`; `stop` is the item of type `~0` that ends the worker. -/
inductive MkfsJob
  | ndir (ino : ℕ) (fd : ℤ) (ictx : Bool)
  | dir (ino : ℕ)
  | dirBh (dir : Dir)
  | stop

namespace MkfsEnv

variable (env : MkfsEnv)

/-- `erofs_mkfs_job_write_file`. -/
def jobWriteFile (ino : ℕ) (ictx : Bool) : ℤ :=
  if (env.inode ino).datasource = .diskbuf ∧ env.ret .lseek ino < 0 then env.ret .lseek ino
  else if ictx then
    if env.ret .writeCompressedFile ino ≠ -28 then env.ret .writeCompressedFile ino
    else if env.ret .lseekBack ino < 0 then env.ret .lseekBack ino
    -- fallback to all data uncompressed
    else env.ret .writeUnencodedFile ino
  else env.ret .writeUnencodedFile ino

/-- `erofs_mkfs_handle_nondirectory`. What `erofs_prepare_inode_buffer` and
`erofs_write_tail_end` return is not looked at. -/
def handleNondirectory (ino : ℕ) (fd : ℤ) (ictx : Bool) : ℤ :=
  if (env.inode ino).islnk then
    if (env.inode ino).hasLink = false ∧ env.ret .readlink ino < 0 then env.ret .readlink ino
    else env.ret .writeFileFromBuffer ino
  else if (env.inode ino).isize ≠ 0 then
    if (env.inode ino).datasource = .resvsp then env.ret .reserveDataBlocks ino
    else if 0 ≤ fd then env.jobWriteFile ino ictx
    else 0
  else 0

/-- `erofs_mkfs_jobfn`. The result of `erofs_write_tail_end` is dropped here too. -/
def jobfn : MkfsJob → ℤ
  | .ndir ino fd ictx => env.handleNondirectory ino fd ictx
  | .dir ino => env.ret .prepareInodeBuffer ino
  | .dirBh d => env.ret .writeDirFile d.ino
  | .stop => 0

/-- `erofs_mkfs_handle_directory` up to its job. -/
def handleDirectory (ino : ℕ) : Except ℤ MkfsJob :=
  if env.ret .opendir ino ≠ 0 then .error (env.ret .opendir ino)
  else if env.ret .readdir ino ≠ 0 then .error (env.ret .readdir ino)
  else if env.ret .initEmptyDir ino ≠ 0 then .error (env.ret .initEmptyDir ino)
  else if env.ret .prepareDirFile ino ≠ 0 then .error (env.ret .prepareDirFile ino)
  else .ok (.dir ino)

/-- `erofs_mkfs_handle_inode` up to its job; an error is what it returns without one. -/
def mkfsHandleInode (ino : ℕ) (isdir : Bool) : Except ℤ MkfsJob :=
  if env.ret .scanFileXattrs ino < 0 then .error (env.ret .scanFileXattrs ino)
  else if env.ret .prepareXattrIbody ino < 0 then .error (env.ret .prepareXattrIbody ino)
  else if isdir then env.handleDirectory ino
  else if (env.inode ino).islnk = false ∧ (env.inode ino).isize ≠ 0 then
    if env.ret .openFile ino < 0 then .error (env.ret .openFile ino)
    else if (env.inode ino).compressible = true ∧ env.ret .beginCompressedFile ino < 0 then
      .error (env.ret .beginCompressedFile ino)
    else .ok (.ndir ino (env.ret .openFile ino) (env.inode ino).compressible)
  else .ok (.ndir ino 0 false)

/-- `erofs_rebuild_handle_inode` up to its job. When the descriptor of the disk buffer is missing
it returns what `erofs_prepare_xattr_ibody` has returned, which is not an error. -/
def rebuildHandleInode (ino : ℕ) (isdir : Bool) : Except ℤ MkfsJob :=
  if (env.inode ino).extended = true ∧ env.forceCompact = true then .error (-22)
  else if env.incremental = true ∧ isdir = true ∧ (env.inode ino).fromBase = true ∧
      env.ret .rebuildLoadBasedir ino ≠ 0 then .error (env.ret .rebuildLoadBasedir ino)
  else if env.ret .prepareXattrIbody ino < 0 then .error (env.ret .prepareXattrIbody ino)
  else if isdir then
    if env.ret .prepareDirFile ino ≠ 0 then .error (env.ret .prepareDirFile ino)
    else .ok (.dir ino)
  else if (env.inode ino).isreg = true ∧ (env.inode ino).isize ≠ 0 ∧
      (env.inode ino).datasource = .diskbuf then
    if env.ret .diskbufGetfd ino < 0 then .error (env.ret .prepareXattrIbody ino)
    else if (env.inode ino).compressible = true ∧ env.ret .beginCompressedFile ino < 0 then
      .error (env.ret .beginCompressedFile ino)
    else .ok (.ndir ino (env.ret .diskbufGetfd ino) (env.inode ino).compressible)
  else .ok (.ndir ino (-1) false)

def handleInode (ino : ℕ) (isdir : Bool) : Except ℤ MkfsJob :=
  if env.rebuild then env.rebuildHandleInode ino isdir else env.mkfsHandleInode ino isdir

end MkfsEnv

/-- What the main thread does, as far as somebody can tell afterwards. `load` creates the dentries
of a directory, `link` meets an inode again, and `flush` waits for the jobs and then fixes the
block address of the metadata area and the nid of the root. -/
inductive MkfsAct
  | load (dir : Dir)
  | grab (ino : ℕ)
  | link (ino : ℕ)
  | handled (ino : ℕ) (err : ℤ)
  | go (job : MkfsJob) (err : ℤ)
  | flush

/-- The state of the walk: the inodes with the mark in `i_parent`, and what was done, newest
first. -/
structure DumpState where
  visited : List ℕ
  log : List MkfsAct

namespace DumpState

def push (s : DumpState) (a : MkfsAct) : DumpState := { s with log := a :: s.log }

/-- `erofs_mark_parent_inode`. -/
def mark (s : DumpState) (ino : ℕ) : DumpState := { s with visited := ino :: s.visited }

end DumpState

section Dump

variable (go : MkfsJob → ℤ) (env : MkfsEnv)

/-- Handle one inode: its job is issued unless something failed before. -/
def handleOne (ino : ℕ) (isdir : Bool) (loads : List MkfsAct) (s : DumpState) : DumpState × ℤ :=
  match env.handleInode ino isdir with
  | .error err => (s.push (.handled ino err), err)
  | .ok job =>
    (({ s with log := loads ++ s.log }.push (.go job (go job))).push (.handled ino (go job)),
      go job)

/-- The dentries of a directory come into being while it is handled, except in a rebuild. -/
def loadDir (d : Dir) : List MkfsAct := if env.rebuild then [] else [.load d]

/-- The loop over `i_subdirs` in `erofs_mkfs_dump_tree`, with the subdirectories it found. -/
def dumpSubdirs (dir : ℕ) : List Dentry → DumpState → DumpState × List Dir
  | [], s => (s, [])
  | .file ino :: ds, s =>
    if ino ∈ s.visited then dumpSubdirs dir ds (s.push (.link ino))
    else
      let r := handleOne go env ino false [] (s.mark ino)
      if r.2 ≠ 0 then (r.1, []) else dumpSubdirs dir ds r.1
  | .dir ino subdirs :: ds, s =>
    if ino ∈ s.visited then dumpSubdirs dir ds (s.push (.link ino))
    else
      let d : Dir := ⟨ino, dir, subdirs⟩
      let r := handleOne go env ino true (loadDir env d) (s.mark ino)
      if r.2 ≠ 0 then (r.1, [])
      else
        let r' := dumpSubdirs dir ds (r.1.push (.grab ino))
        (r'.1, d :: r'.2)
  | .dot :: ds, s => dumpSubdirs dir ds s
  | .dotdot :: ds, s => dumpSubdirs dir ds s
  | .valid _ :: ds, s => dumpSubdirs dir ds s

def workSize (work : List Dir) : ℕ := (work.map fun d => d.dirs.length).sum

/-- The subdirectories that a pass found are smaller than the directory. -/
theorem workSize_dumpSubdirs (dir : ℕ) (ds : List Dentry) (s : DumpState) :
    workSize (dumpSubdirs go env dir ds s).2 ≤ (dirsBelow dir ds).length := by
  induction ds generalizing s with
  | nil => simp [dumpSubdirs, workSize]
  | cons d ds ih =>
    cases d with
    | dot | dotdot | valid nid => simpa [dumpSubdirs, dirsBelow, Dentry.dirs] using ih _
    | file ino =>
      simp only [dumpSubdirs, dirsBelow, Dentry.dirs, List.nil_append]
      split_ifs
      · exact ih _
      · simp [workSize]
      · exact ih _
    | dir ino subdirs =>
      simp only [dumpSubdirs, dirsBelow, Dentry.dirs, List.length_append]
      split_ifs
      · exact (ih _).trans (Nat.le_add_left _ _)
      · simp [workSize]
      · simp only [workSize, List.map_cons, List.sum_cons, Dir.dirs]
        exact Nat.add_le_add_left (ih _) _

/-- The outer loop of `erofs_mkfs_dump_tree`. The error of the inner loop goes to a variable that
the job of the directory sets again; a walk that ends returns the outer `err`, which is 0. -/
def dumpLoop (work : List Dir) (s : DumpState) : DumpState × ℤ :=
  match work with
  | [] => (s, 0)
  | dir :: rest =>
    let r := dumpSubdirs go env dir.ino dir.subdirs s
    let err := go (.dirBh dir)
    let s' := r.1.push (.go (.dirBh dir) err)
    if err ≠ 0 then (s', err) else dumpLoop (r.2 ++ rest) s'
termination_by workSize work
decreasing_by
  have := workSize_dumpSubdirs go env dir.ino dir.subdirs s
  simp only [workSize, List.map_append, List.sum_append, List.map_cons, List.sum_cons] at this ⊢
  simp only [Dir.dirs, List.length_cons] at this ⊢
  omega

/-- What has been done when the walk begins: a rebuild has all its dentries. -/
def dumpInit (root : Dir) : DumpState :=
  ⟨[root.ino], .grab root.ino :: if env.rebuild then root.dirs.map .load else []⟩

/-- `erofs_mkfs_dump_tree`, which is what `__erofs_mkfs_build_tree` returns. -/
def dumpTree (root : Dir) : DumpState × ℤ :=
  let r := handleOne go env root.ino true (loadDir env root) (dumpInit env root)
  if r.2 ≠ 0 then r
  else dumpLoop go env [root] (if env.incremental then r.1 else r.1.push .flush)

end Dump

end ErofsUtils
