import ErofsUtils.RebuildTree

/-!
# What an overlay of images shows

The directories of source images as trees of dirents, and the rules of overlayfs for a stack of
them: at each name the uppermost entry is shown, anything that is not a directory hides what lies
below it, an opaque directory hides the directories below it, and other directories are united.
-/

namespace ErofsUtils

/-- An inode of a source image: `isOpaque` tells whether it carries the opaque xattr, and
`blobIndex` is the error, if any, of `erofs_rebuild_write_blob_index` on its data. -/
structure SrcInode where
  nid : ℕ
  mode : FileType
  iSize : ℕ
  isOpaque : Bool
  blobIndex : Option Errno
  deriving DecidableEq

def SrcInode.isDir (i : SrcInode) : Bool := i.mode = .dir

/-- The dirents of a directory of a source image, without `.` and `..`; each comes with its inode
and, for a directory, the dirents of that. -/
inductive SrcDir
  | nil
  | cons (name : Name) (inode : SrcInode) (sub rest : SrcDir)

namespace SrcDir

def names : SrcDir → List Name
  | nil => []
  | cons name _ _ rest => name :: rest.names

def lookup (c : Name) : SrcDir → Option (SrcInode × SrcDir)
  | nil => none
  | cons name inode sub rest => if name = c then some (inode, sub) else rest.lookup c

/-- A directory as an image holds it: each name once and not longer than a dirent allows, and
nothing below what is not a directory. -/
def Wf : SrcDir → Prop
  | nil => True
  | cons name inode sub rest =>
    (name ≠ [] ∧ '/' ∉ name ∧ ¬ isDotDotdot name ∧ name.length ≤ nameLen) ∧
      name ∉ rest.names ∧ (inode.isDir = false → sub = nil) ∧ sub.Wf ∧ rest.Wf

theorem lookup_of_notMem {c : Name} : ∀ {dir : SrcDir}, c ∉ dir.names → dir.lookup c = none
  | nil, _ => rfl
  | cons name inode sub rest, h => by
      rw [names, List.mem_cons, not_or] at h
      rw [lookup, if_neg (Ne.symm h.1)]
      exact lookup_of_notMem h.2

end SrcDir

/-- A source image: its number, whether its root is marked as opaque, and the dirents of its
root. -/
structure Layer where
  dev : ℕ
  rootOpaque : Bool
  root : SrcDir

structure SrcEntry where
  dev : ℕ
  name : Name
  inode : SrcInode
  deriving DecidableEq

structure StackNode where
  entry : SrcEntry
  sub : SrcDir

namespace StackNode

def isDir (n : StackNode) : Bool := n.entry.inode.isDir

def isOpaque (n : StackNode) : Bool := n.entry.inode.isOpaque

def child (c : Name) (n : StackNode) : Option StackNode :=
  (n.sub.lookup c).map fun found => ⟨⟨n.entry.dev, c, found.1⟩, found.2⟩

end StackNode

def childStack (c : Name) (dirs : List StackNode) : List StackNode :=
  dirs.filterMap (StackNode.child c)

def overlayDirs : List StackNode → List StackNode
  | [] => []
  | n :: ns =>
    if n.isDir then n :: (if n.isOpaque then [] else overlayDirs ns) else []

def shownAt : List StackNode → List Name → List StackNode
  | ns, [] => ns
  | ns, c :: path => shownAt (childStack c (overlayDirs ns)) path

/-- The root of a layer. Its inode is a directory; nothing else of it matters. -/
def Layer.node (l : Layer) : StackNode :=
  ⟨⟨l.dev, [], ⟨0, .dir, 0, l.rootOpaque, none⟩⟩, l.root⟩

def overlayAt (layers : List Layer) (path : List Name) : Option SrcEntry :=
  (shownAt (layers.map Layer.node) path).head?.map StackNode.entry

@[simp] theorem childStack_nil (c : Name) : childStack c [] = [] := rfl

@[simp] theorem childStack_append (c : Name) (ns ms : List StackNode) :
    childStack c (ns ++ ms) = childStack c ns ++ childStack c ms := List.filterMap_append

/-- The united directories are a front part of all directories of the stack. -/
theorem isPrefix_overlayDirs (ns : List StackNode) :
    overlayDirs ns <+: ns.filter StackNode.isDir := by
  induction ns with
  | nil => exact List.prefix_rfl
  | cons n ns ih =>
      rw [overlayDirs, List.filter_cons]
      cases n.isDir with
      | false => exact List.nil_prefix
      | true =>
          rw [if_pos rfl, if_pos rfl, List.prefix_cons_inj]
          cases n.isOpaque with
          | true => exact List.nil_prefix
          | false => exact ih

theorem isPrefix_childStack (c : Name) {ns ms : List StackNode} (h : ns <+: ms) :
    childStack c ns <+: childStack c ms := by
  obtain ⟨ls, rfl⟩ := h
  exact ⟨childStack c ls, (childStack_append c ns ls).symm⟩

theorem name_of_mem_childStack {c : Name} {ns : List StackNode} {n : StackNode}
    (h : n ∈ childStack c ns) : n.entry.name = c := by
  obtain ⟨m, -, hm⟩ := List.mem_filterMap.mp h
  obtain ⟨found, -, rfl⟩ := Option.map_eq_some_iff.mp hm
  rfl

end ErofsUtils
