import ErofsUtils.FsckWalk
import ErofsUtils.Namei
import ErofsUtils.PathStrings

/-!
# The walk of extract.erofs

`doInitNodeRecursive` goes through an image as the check of `fsck.erofs` does, with its own copy of
the callback and of the buffer for the path, and makes an `ErofsNode` of each inode: what is
extracted is at the path that the buffer holds then. Directories are gone through without the
checks of `fsck.erofs` on names. The walk starts at the root or at the path of a target.
-/

namespace ErofsUtils
open ByteMemory CString PathStrings

structure ErofsNode where
  path : List UInt8
  typeId : FileType
  inode : FsckInode

/-- What the walk of `extract.erofs` uses of an image. `snprintf` is what that function makes of
a format for which there are no arguments. -/
structure ExtractEnv where
  sbi : DirSb
  readInode : ℕ → Except ℤ FsckInode
  stack : ℕ → Mem
  nameiStack : ℕ → Mem
  snprintf : List UInt8 → List UInt8
  readInode_neg : ∀ {nid e}, readInode nid = .error e → e < 0
  readInode_nid : ∀ {nid inode}, readInode nid = .ok inode → inode.dir.nid = nid
  snprintf_plain : ∀ {format}, 37 ∉ format → snprintf format = format

def ExtractEnv.pathEnv (env : ExtractEnv) : PathEnv where
  sbi := env.sbi
  readInode := fun nid => (env.readInode nid).map (·.dir)
  stack := env.stack
  nameiStack := env.nameiStack
  readInode_neg := by
    intro nid e h
    cases hread : env.readInode nid with
    | error e' =>
        rw [hread] at h
        cases h
        exact env.readInode_neg hread
    | ok inode =>
        rw [hread] at h
        cases h
  readInode_nid := by
    intro nid dir h
    cases hread : env.readInode nid with
    | error e' =>
        rw [hread] at h
        cases h
    | ok inode =>
        rw [hread] at h
        cases h
        exact env.readInode_nid hread

/-- Where a walk has got to: what the buffer held when it started, as a string and up to
`iter_pos`, and the names of the entries followed since. -/
structure WalkPlace where
  path : List UInt8
  base : List UInt8
  names : List FileName

/-- `iter_path` and `iter_pos`, and `erofsNodes` with the place at which each node was made. As in
the check, each entry followed is on record in `calls`. -/
structure ExtractState where
  iterPath : PathBuf
  iterPos : ℕ
  calls : List (ℕ × ℕ)
  place : WalkPlace
  nodes : List (WalkPlace × ErofsNode)

namespace ExtractState

/-- The state in which the entry `name` is followed. -/
def follow (s : ExtractState) (name : FileName) : ExtractState :=
  let currPos := s.iterPos + 1 + name.length
  { s with
    iterPath := s.iterPath.put s.iterPos (47 :: strncpy name ++ [0])
    iterPos := currPos
    calls := s.calls ++ [(s.iterPos, currPos)]
    place := { s.place with names := s.place.names ++ [name] } }

def comeBack (s t : ExtractState) : ExtractState :=
  { t with iterPath := t.iterPath.put s.iterPos [0], iterPos := s.iterPos, place := s.place }

end ExtractState

section Walk

variable (env : ExtractEnv)

/-- `dirent_iter`, where `recurse` is `doInitNodeRecursive`. -/
def direntIter (recurse : ℕ → ExtractState → Option (ℤ × ExtractState)) (v : DirVisit)
    (s : ExtractState) : Option (ℤ × ExtractState) :=
  if v.dotDotdot then some (0, s)
  else if pathMax ≤ s.iterPos + v.dname.length then some (eOpNotSupp, s)
  else
    match recurse v.nid (s.follow v.dname) with
    | none => none
    | some (ret, t) => some (ret, s.comeBack t)

/-- The type that `createErofsNode` gives to a node; there is none for the packed inode. -/
def nodeTypeId (inode : FsckInode) : FileType :=
  match inode.mode with
  | .regFile => if inode.isPacked then .unknown else .regFile
  | mode => mode

def createErofsNode (inode : FsckInode) (s : ExtractState) : ExtractState :=
  if nodeTypeId inode = .unknown then s
  else
    { s with nodes := s.nodes ++
        [(s.place, ⟨cString (pathMax + 1) s.iterPath.mem, nodeTypeId inode, inode⟩)] }

/-- `doInitNodeRecursive`; without fuel it does not return. -/
def doInitNodeRecursive : ℕ → ℕ → ExtractState → Option (ℤ × ExtractState)
  | 0, _, _ => none
  | fuel + 1, nid, s =>
    match env.readInode nid with
    | .error ret => some (ret, s)
    | .ok inode =>
      let s := createErofsNode inode s
      if inode.dir.isDir then
        (erofsIterateDir env.sbi inode.dir false (direntIter (doInitNodeRecursive fuel))
          (env.stack nid) ⟨false, false, false, 0⟩ s).map fun r => (r.1, r.2.st)
      else some (0, s)

/-- The buffer with what `snprintf` leaves in it for the text of a whole path. -/
def ExtractState.startAt (s : ExtractState) (text : List UInt8) (pos : ℕ) : ExtractState :=
  let buf := s.iterPath.put 0 (text.take (pathMax - 1) ++ [0])
  { s with
    iterPath := buf
    iterPos := pos
    place := ⟨cString (pathMax + 1) buf.mem, text.take pos, []⟩ }

def initErofsNodeByRoot (fuel : ℕ) (s : ExtractState) : Option (ℤ × ExtractState) :=
  doInitNodeRecursive env fuel env.sbi.rootNid (s.startAt [47] 0)

/-- `doInitNode`: the path is looked up, and the walk starts at what `erofs_get_pathname` says is
the path of the inode found. -/
def doInitNode (fuel : ℕ) (path : List UInt8) (recursive : Bool) (s : ExtractState) :
    Option (ℤ × ExtractState) :=
  match erofsIlookup env.pathEnv path with
  | .error ret => some (ret, s)
  | .ok vi =>
    match erofsGetPathname env.pathEnv vi.nid pathMax fuel ⟨fun _ => 0, []⟩ with
    | none => none
    | some (ret, pathnameBuf) =>
      if ret ≠ 0 then some (ret, s)
      else
        let text := env.snprintf (cString pathMax pathnameBuf.mem)
        let s := s.startAt text text.length
        if recursive then doInitNodeRecursive env fuel vi.nid s
        else
          match env.readInode vi.nid with
          | .error ret => some (ret, s)
          | .ok inode => some (0, createErofsNode inode s)

/-- One call of `extract.erofs` to make nodes. -/
inductive ExtractStart
  | root
  | target (path : List UInt8) (recursive : Bool)

def initErofsNode (fuel : ℕ) : ExtractStart → ExtractState → Option (ℤ × ExtractState)
  | .root => initErofsNodeByRoot env fuel
  | .target path recursive => doInitNode env fuel path recursive

/-- The calls made for a list of targets, one after the other; a target that fails is left out. -/
def initErofsNodes (fuel : ℕ) : List ExtractStart → ExtractState → Option ExtractState
  | [], s => some s
  | start :: starts, s =>
    match initErofsNode env fuel start s with
    | none => none
    | some (_, s) => initErofsNodes fuel starts s

end Walk

section Rule

/-- A relation between the states before and after a call that the walk keeps, from a state with
`P` on for an inode and from a state with `Q` on for an entry. -/
structure ExtractRule (env : ExtractEnv) (P Q : ExtractState → Prop)
    (R : ExtractState → ExtractState → Prop) : Prop where
  refl : ∀ s, R s s
  trans : ∀ {s t u}, R s t → R t u → R s u
  pos : ∀ {s t}, R s t → t.iterPos = s.iterPos
  keeps : ∀ {s t}, R s t → Q s → Q t
  create : ∀ {s nid inode}, P s → env.readInode nid = .ok inode → R s (createErofsNode inode s)
  enter : ∀ {s}, P s → Q s
  follow : ∀ {s name}, Q s → name ≠ [] → s.iterPos + name.length < pathMax → P (s.follow name)
  comeBack : ∀ {s t name}, Q s → name ≠ [] → s.iterPos + name.length < pathMax →
    R (s.follow name) t → R s (s.comeBack t)

variable {env : ExtractEnv} {P Q : ExtractState → Prop}
variable {R : ExtractState → ExtractState → Prop}

def Finished (R : ExtractState → ExtractState → Prop) (s : ExtractState)
    (r : Option (ℤ × ExtractState)) : Prop :=
  ∃ ret t, r = some (ret, t) ∧ R s t

/-- The step of the walk: an entry with a name moves `iter_pos` on where it is followed. -/
theorem ExtractRule.direntIter (hR : ExtractRule env P Q R)
    {recurse : ℕ → ExtractState → Option (ℤ × ExtractState)} {v : DirVisit} {s : ExtractState}
    (hs : Q s) (hname : v.dname ≠ [])
    (hrec : ∀ nid t, P t → s.iterPos < t.iterPos → t.iterPos ≤ pathMax →
      Finished R t (recurse nid t)) :
    Finished R s (direntIter recurse v s) := by
  unfold ErofsUtils.direntIter
  by_cases hdot : v.dotDotdot = true
  · rw [if_pos hdot]
    exact ⟨0, s, rfl, hR.refl s⟩
  rw [if_neg hdot]
  by_cases hlong : pathMax ≤ s.iterPos + v.dname.length
  · rw [if_pos hlong]
    exact ⟨_, s, rfl, hR.refl s⟩
  rw [if_neg hlong]
  have hshort : s.iterPos + v.dname.length < pathMax := Nat.lt_of_not_le hlong
  have hpos : s.iterPos < (s.follow v.dname).iterPos ∧ (s.follow v.dname).iterPos ≤ pathMax := by
    simp only [ExtractState.follow]
    omega
  obtain ⟨ret, t, hret, ht⟩ :=
    hrec v.nid (s.follow v.dname) (hR.follow hs hname hshort) hpos.1 hpos.2
  rw [hret]
  exact ⟨ret, s.comeBack t, rfl, hR.comeBack hs hname hshort ht⟩

/-- The walk from an inode returns when there is fuel for what is left of the path. -/
theorem ExtractRule.doInitNodeRecursive (hR : ExtractRule env P Q R) {fuel : ℕ} (nid : ℕ)
    {s : ExtractState} (hs : P s) (hfuel : 0 < fuel) (hpos : pathMax < fuel + s.iterPos) :
    Finished R s (doInitNodeRecursive env fuel nid s) := by
  induction fuel generalizing nid s with
  | zero => omega
  | succ fuel ih =>
      rw [ErofsUtils.doInitNodeRecursive]
      split
      · exact ⟨_, s, rfl, hR.refl s⟩
      next inode hread =>
      have hcreate := hR.create hs hread
      dsimp only
      split
      · -- the entries of a directory are followed with less of the path left
        have hiter : ∀ v t, v.dname ≠ [] → Q t ∧ R s t → ∃ ret t',
            ErofsUtils.direntIter (ErofsUtils.doInitNodeRecursive env fuel) v t = some (ret, t') ∧
              Q t' ∧ R s t' := by
          rintro v t hname ⟨hQ, ht⟩
          have hrec : ∀ nid u, P u → t.iterPos < u.iterPos → u.iterPos ≤ pathMax →
              Finished R u (ErofsUtils.doInitNodeRecursive env fuel nid u) := by
            intro nid u hu hgt hle
            have he := hR.pos ht
            exact ih nid hu (by omega) (by omega)
          obtain ⟨ret, t', hret, ht'⟩ := hR.direntIter hQ hname hrec
          exact ⟨ret, t', hret, hR.keeps ht' hQ, hR.trans ht ht'⟩
        obtain ⟨ret, w, hrun, -, hw⟩ := erofsIterateDir_total env.sbi inode.dir false
          (env.stack nid) hiter ⟨false, false, false, 0⟩
          ⟨hR.keeps hcreate (hR.enter hs), hcreate⟩
        rw [hrun]
        exact ⟨ret, w.st, rfl, hw⟩
      · exact ⟨0, _, rfl, hcreate⟩

end Rule

end ErofsUtils
