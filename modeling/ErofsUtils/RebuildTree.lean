import Mathlib.Data.List.Basic
import Mathlib.Logic.Function.Basic
import ErofsUtils.Layout

/-!
# Path lookup in the tree that tar and rebuild build

The inodes and dentries of `inode.c` as a heap of records, with `erofs_rebuild_get_dentry` and
`erofs_rebuild_mkdir` of `rebuild.c` on it. A pointer is a number, `NULL` is `0`, and every
allocation succeeds.
-/

namespace ErofsUtils

/-- `EROFS_FT_*`. The type bits of a mode are given by the same names; `unknown` stands for any
bits that name no file type. -/
inductive FileType
  | unknown | regFile | dir | chrdev | blkdev | fifo | sock | symlink
  deriving DecidableEq, Repr

/-- A C string, without its `NUL`. -/
abbrev Name := List Char

/-- The fields of `struct erofs_inode` that make up the tree. -/
structure TreeInode where
  mode : FileType
  iParent : ℕ
  nlink : ℤ
  count : ℕ
  iSubdirs : List ℕ
  isOpaque : Bool
  whiteouts : Bool
  deriving DecidableEq, Repr

def nameLen : ℕ := 255

/-- `struct erofs_dentry`. Its array holds the name and a `NUL`. -/
structure TreeDentry where
  name : Name
  type : FileType
  inode : ℕ
  fits : name.length < nameLen
  deriving DecidableEq

/-- `strncpy` of a name into a dentry. -/
def TreeDentry.ofName (s : Name) (type : FileType) (inode : ℕ) : TreeDentry :=
  ⟨s.take (nameLen - 1), type, inode, by
    rw [List.length_take]
    unfold nameLen
    omega⟩

theorem TreeDentry.ofName_eq {s : Name} (hs : s.length < nameLen) (type : FileType) (inode : ℕ) :
    TreeDentry.ofName s type inode = ⟨s, type, inode, hs⟩ := by
  have hlen : s.length ≤ nameLen - 1 := by omega
  simp [TreeDentry.ofName, List.take_of_length_le hlen]

/-- What `calloc` and `malloc` have handed out. The pointers from `nextInode` and `nextDentry` on
are free. -/
structure TreeHeap where
  inode : ℕ → TreeInode
  dentry : ℕ → TreeDentry
  nextInode : ℕ
  nextDentry : ℕ

def aufsWhPfx : Name := ['.', 'w', 'h', '.']

def aufsWhDiropq : Name := aufsWhPfx ++ aufsWhPfx ++ ['.', 'o', 'p', 'q']

def dotName : Name := ['.']

def dotdotName : Name := ['.', '.']

def isDotDotdot (n : Name) : Prop := n = dotName ∨ n = dotdotName

instance (n : Name) : Decidable (isDotDotdot n) :=
  inferInstanceAs (Decidable (n = dotName ∨ n = dotdotName))

namespace TreeHeap

def setInode (t : TreeHeap) (i : ℕ) (v : TreeInode) : TreeHeap :=
  { t with inode := Function.update t.inode i v }

def setDentry (t : TreeHeap) (e : ℕ) (v : TreeDentry) : TreeHeap :=
  { t with dentry := Function.update t.dentry e v }

section Updates

variable (t : TreeHeap) (i e : ℕ) (v : TreeInode) (w : TreeDentry)

@[simp] theorem setInode_dentry : (t.setInode i v).dentry = t.dentry := rfl
@[simp] theorem setInode_nextInode : (t.setInode i v).nextInode = t.nextInode := rfl
@[simp] theorem setInode_nextDentry : (t.setInode i v).nextDentry = t.nextDentry := rfl
@[simp] theorem setDentry_inode : (t.setDentry e w).inode = t.inode := rfl
@[simp] theorem setDentry_nextInode : (t.setDentry e w).nextInode = t.nextInode := rfl
@[simp] theorem setDentry_nextDentry : (t.setDentry e w).nextDentry = t.nextDentry := rfl

theorem setInode_inode (j : ℕ) :
    (t.setInode i v).inode j = if j = i then v else t.inode j := by
  simp [setInode, Function.update_apply]

theorem setDentry_dentry (f : ℕ) :
    (t.setDentry e w).dentry f = if f = e then w else t.dentry f := by
  simp [setDentry, Function.update_apply]

end Updates

def subdirs (t : TreeHeap) (i : ℕ) : List ℕ := (t.inode i).iSubdirs

def setSubdirs (t : TreeHeap) (i : ℕ) (ds : List ℕ) : TreeHeap :=
  t.setInode i { t.inode i with iSubdirs := ds }

def erofsIgrab (t : TreeHeap) (i : ℕ) : TreeHeap :=
  t.setInode i { t.inode i with count := (t.inode i).count + 1 }

def erofsNewInode (t : TreeHeap) (mode : FileType) (parent : ℕ) : ℕ × TreeHeap :=
  (t.nextInode,
    { t.setInode t.nextInode ⟨mode, parent, 0, 1, [], false, false⟩ with
      nextInode := t.nextInode + 1 })

/-- `erofs_d_alloc`, with the inode and the type that its callers set. The name is cut to fit. -/
def erofsDAlloc (t : TreeHeap) (parent : ℕ) (s : Name) (inode : ℕ) (type : FileType) :
    ℕ × TreeHeap :=
  let t' := { t.setDentry t.nextDentry (.ofName s type inode) with
    nextDentry := t.nextDentry + 1 }
  (t.nextDentry, t'.setSubdirs parent (t'.subdirs parent ++ [t.nextDentry]))

def erofsInitEmptyDir (t : TreeHeap) (dir : ℕ) : TreeHeap :=
  let t₁ := ((t.erofsDAlloc dir dotName dir .dir).2).erofsIgrab dir
  let t₂ := (t₁.erofsDAlloc dir dotdotName (t₁.inode dir).iParent .dir).2
  let t₃ := t₂.erofsIgrab (t₂.inode dir).iParent
  t₃.setInode dir { t₃.inode dir with nlink := 2 }

def erofsRebuildMkdir (t : TreeHeap) (dir : ℕ) (s : Name) : ℕ × TreeHeap :=
  let (inode, t₁) := t.erofsNewInode .dir dir
  (t₁.erofsInitEmptyDir inode).erofsDAlloc dir s inode .dir

def erofsRebuildMakeRoot : TreeHeap :=
  let t : TreeHeap :=
    ⟨fun _ => ⟨.unknown, 0, 0, 0, [], false, false⟩, fun _ => .ofName [] .unknown 0, 1, 1⟩
  (t.erofsNewInode .dir 1).2.erofsInitEmptyDir 1

/-- What the callers do with an entry that `erofs_rebuild_get_dentry` left to them: its inode gets
the directory in the dentry as its parent. -/
def fillEntry (t : TreeHeap) (d : ℕ) (mode : FileType) : TreeHeap :=
  let (inode, t₁) := t.erofsNewInode mode (t.dentry d).inode
  let t₂ := t₁.setDentry d { t₁.dentry d with type := mode, inode := inode }
  if mode = .dir then t₂.erofsInitEmptyDir inode else t₂

def findDentry (t : TreeHeap) (i : ℕ) (s : Name) : Option ℕ :=
  (t.subdirs i).find? fun e => (t.dentry e).name = s

/-- `list_del` and `list_add`. -/
def moveToHead (t : TreeHeap) (i e : ℕ) : TreeHeap :=
  t.setSubdirs i (e :: (t.subdirs i).erase e)

end TreeHeap

/-- The locals and the out parameters of `erofs_rebuild_get_dentry`. -/
structure LookupState where
  tree : TreeHeap
  pwd : ℕ
  d : ℕ
  whout : Bool
  opq : Bool

namespace LookupState

variable (aufs toHead : Bool)

/-- The entry `s` of `pwd` does not exist: the last one is left to the caller to fill in, the
others become directories. -/
def createEntry (w : LookupState) (s : Name) (slash : Bool) : LookupState :=
  if slash then
    let (d, tree) := w.tree.erofsRebuildMkdir w.pwd s
    { w with tree := tree, d := d, pwd := (tree.dentry d).inode }
  else
    let (d, tree) := w.tree.erofsDAlloc w.pwd s w.pwd .unknown
    { w with tree := tree, d := d }

def enterName (w : LookupState) (s : Name) (slash : Bool) : Except Errno LookupState :=
  match w.tree.findDentry w.pwd s with
  | none => .ok (w.createEntry s slash)
  | some d =>
    if (w.tree.dentry d).type ≠ .dir ∧ slash then .error .eio
    else if (w.tree.dentry d).inode = 0 then .ok (w.createEntry s slash)
    else .ok { w with
      tree := if toHead then w.tree.moveToHead w.pwd d else w.tree
      d := d
      pwd := (w.tree.dentry d).inode }

/-- One component of the path; `slash` tells whether a slash ends it. -/
def component (w : LookupState) (s : Name) (slash : Bool) : Except Errno LookupState :=
  if s = dotName then .ok w
  else if s = dotdotName then .ok { w with pwd := (w.tree.inode w.pwd).iParent }
  else if aufs ∧ ¬slash ∧ s = aufsWhDiropq then .ok { w with opq := true }
  else if aufs ∧ ¬slash ∧ aufsWhPfx <+: s then
    { w with whout := true }.enterName toHead (s.drop aufsWhPfx.length) slash
  else w.enterName toHead s slash

end LookupState

/-- What `erofs_rebuild_get_dentry` returns, with the path string it leaves behind. -/
structure LookupResult where
  ret : Except Errno LookupState
  path : List Char

/-- The loop of `erofs_rebuild_get_dentry`, at the position of `path` between `done` and `rest`.
A slash becomes a `NUL` while its component is handled. -/
def getDentryLoop (aufs toHead : Bool) : ℕ → LookupState → List Char → List Char → LookupResult
  | 0, w, done, rest => ⟨.ok w, done ++ rest⟩
  | fuel + 1, w, done, rest =>
    if rest = [] then ⟨.ok w, done⟩
    else
      let s := rest.takeWhile (· ≠ '/')
      match rest.dropWhile (· ≠ '/') with
      | [] => ⟨w.component aufs toHead s false, done ++ s⟩
      | _ :: next =>
        if s = [] then
          getDentryLoop aufs toHead fuel w (done ++ '/' :: next.takeWhile (· = '/'))
            (next.dropWhile (· = '/'))
        else
          match w.component aufs toHead s true with
          | .error err => ⟨.error err, done ++ s ++ '\x00' :: next⟩
          | .ok w' => getDentryLoop aufs toHead fuel w' (done ++ s ++ ['/']) next

def erofsRebuildGetDentry (t : TreeHeap) (pwd : ℕ) (path : List Char) (aufs toHead : Bool) :
    LookupResult :=
  getDentryLoop aufs toHead path.length ⟨t, pwd, 0, false, false⟩ [] path

end ErofsUtils
