import ErofsUtils.DirBlocks
import ErofsUtils.RebuildTree

/-!
# The walk of fsck.erofs

`erofsfsck_check_inode` goes down into a directory through `erofs_iterate_dir` and its callback
`erofsfsck_dirent_iter`, and remembers no directory that it has been in. What ends the walk on an
image with cycles is the length of the path: each entry followed moves `extract_pos` on, and none
is followed that would take it past `PATH_MAX`.
-/

namespace ErofsUtils
open ByteMemory CString

def pathMax : ℕ := 4096

def eOpNotSupp : ℤ := -95
def eCanceled : ℤ := -125

/-- What `fsck.erofs` uses of an inode. -/
structure FsckInode where
  dir : DirInode
  mode : FileType
  nlink : ℕ
  isPacked : Bool
  isDir_eq : dir.isDir = decide (mode = .dir)

theorem FsckInode.isDir_dir : true = decide (FileType.dir = .dir) := rfl

theorem FsckInode.isDir_regFile : false = decide (FileType.regFile = .dir) := rfl

/-- The state of a check: `fsckcfg.extract_path` is the buffer, if there is one, and `world`
whatever else the functions called for an inode work on. Each nested call of
`erofsfsck_check_inode` is on record in `calls`, with `extract_pos` before and in the call. -/
structure FsckState (ω : Type*) where
  extractPath : Option Mem
  extractPos : ℕ
  corrupted : Bool
  world : ω
  calls : List (ℕ × ℕ)

/-- The functions that `erofsfsck_check_inode` calls for one inode, and the options. `stack` is
what the buffer of `erofs_iterate_dir` holds before anything is read into it. -/
structure FsckEnv (ω : Type*) where
  sbi : DirSb
  checkDecomp : Bool
  dumpXattrs : Bool
  stack : ω → Mem
  readInode : ℕ → ω → Except ℤ FsckInode × ω
  verifyXattr : FsckInode → ω → ℤ × ω
  verifyInodeData : FsckInode → ω → ℤ × ω
  hardlinkFind : ℕ → ω → Option Mem
  link : Mem → Mem → ω → ℤ × ω
  extractDir : FsckInode → Mem → ω → ℤ × ω
  extractFile : FsckInode → Mem → ω → ℤ × ω
  extractSymlink : FsckInode → Mem → ω → ℤ × ω
  extractSpecial : FsckInode → Mem → ω → ℤ × ω
  hardlinkInsert : ℕ → Mem → ω → ℤ × ω
  doDumpXattrs : FsckInode → Option Mem → ω → ℤ × ω
  setAttributes : FsckInode → Option Mem → ω → ω

section Walk

variable {ω : Type*} (env : FsckEnv ω)

/-- The calls of `erofsfsck_extract_inode` that create something at the path, if any. -/
def extractAt (inode : FsckInode) : Option (Mem → ω → ℤ × ω) :=
  match inode.mode with
  | .dir => some (env.extractDir inode)
  | .regFile => if inode.isPacked then none else some (env.extractFile inode)
  | .symlink => some (env.extractSymlink inode)
  | .chrdev | .blkdev | .fifo | .sock => some (env.extractSpecial inode)
  | .unknown => none

def erofsfsckExtractInode (inode : FsckInode) (extractPath : Option Mem) (w : ω) : ℤ × ω :=
  match extractPath with
  | none => env.verifyInodeData inode w
  | some path =>
    match env.hardlinkFind inode.dir.nid w with
    | some oldpath => env.link oldpath path w
    | none =>
      match extractAt env inode with
      | none => env.verifyInodeData inode w
      | some extract =>
        match extract path w with
        | (ret, w) =>
          if ret ≠ 0 ∧ ret ≠ eCanceled then (ret, w)
          -- record nid and old path for hardlink
          else if 1 < inode.nlink ∧ ¬ inode.dir.isDir then
            env.hardlinkInsert inode.dir.nid path w
          else (ret, w)

/-- The end of `erofsfsck_check_inode` at the label `out`. -/
def fsckOut (ret : ℤ) (s : FsckState ω) : ℤ × FsckState ω :=
  (ret, if ret ≠ 0 ∧ ret ≠ eIo then { s with corrupted := true } else s)

/-- `erofsfsck_dirent_iter` in the directory `dirNid`, where `check` is `erofsfsck_check_inode`. -/
def erofsfsckDirentIter (check : ℕ → ℕ → FsckState ω → Option (ℤ × FsckState ω)) (dirNid : ℕ)
    (v : DirVisit) (s : FsckState ω) : Option (ℤ × FsckState ω) :=
  if v.dotDotdot then some (0, s)
  else
    let prevPos := s.extractPos
    if pathMax ≤ prevPos + v.dname.length then some (eOpNotSupp, s)
    else
      let currPos := prevPos + v.dname.length + if s.extractPath.isSome then 1 else 0
      let path := s.extractPath.map (store · prevPos (47 :: strncpy v.dname ++ [0]))
      match check dirNid v.nid { s with
          extractPath := path, extractPos := currPos, calls := s.calls ++ [(prevPos, currPos)] } with
      | none => none
      | some (ret, s) =>
        some (ret, { s with
          extractPath := s.extractPath.map (store · prevPos [0]), extractPos := prevPos })

/-- `erofsfsck_check_inode` up to the walk into a directory: an error is what it returns. -/
def checkBeforeDir (inode : FsckInode) (s : FsckState ω) :
    Except (ℤ × FsckState ω) (ℤ × FsckState ω) :=
  let verified : ℤ × ω :=
    if env.checkDecomp ∧ env.dumpXattrs then (0, s.world) else env.verifyXattr inode s.world
  if verified.1 ≠ 0 then .error (fsckOut verified.1 { s with world := verified.2 })
  else
    match erofsfsckExtractInode env inode s.extractPath verified.2 with
    | (ret, w) =>
      if ret ≠ 0 ∧ ret ≠ eCanceled then .error (fsckOut ret { s with world := w })
      else if env.checkDecomp ∧ env.dumpXattrs then
        match env.doDumpXattrs inode s.extractPath w with
        | (ret, w) =>
          if ret ≠ 0 then .error (ret, { s with world := w }) else .ok (ret, { s with world := w })
      else .ok (ret, { s with world := w })

def checkAfterDir (inode : FsckInode) (ret : ℤ) (s : FsckState ω) : ℤ × FsckState ω :=
  let s :=
    if ret = 0 ∧ ¬ inode.isPacked then
      { s with world := env.setAttributes inode s.extractPath s.world }
    else s
  fsckOut (if ret = eCanceled then 0 else ret) s

/-- `erofsfsck_check_inode`; without fuel it does not return. -/
def erofsfsckCheckInode : ℕ → ℕ → ℕ → FsckState ω → Option (ℤ × FsckState ω)
  | 0, _, _, _ => none
  | fuel + 1, pnid, nid, s =>
    match env.readInode nid s.world with
    | (.error ret, w) => some (fsckOut ret { s with world := w })
    | (.ok inode, w) =>
      match checkBeforeDir env inode { s with world := w } with
      | .error r => some r
      | .ok (ret, s) =>
        -- the dir depth should be restricted in order to avoid loops
        if inode.dir.isDir then
          match erofsIterateDir env.sbi inode.dir true
            (erofsfsckDirentIter (erofsfsckCheckInode fuel) inode.dir.nid)
            (env.stack s.world) ⟨true, false, false, pnid⟩ s with
          | none => none
          | some (ret, w) => some (checkAfterDir env inode ret w.st)
        else some (checkAfterDir env inode ret s)

end Walk

section Terminates

variable {ω : Type*} {env : FsckEnv ω}

/-- The state in which an entry with the name `name` is followed. -/
def FsckState.follow (s : FsckState ω) (name : FileName) : FsckState ω :=
  let currPos := s.extractPos + name.length + if s.extractPath.isSome then 1 else 0
  { s with
    extractPath := s.extractPath.map (store · s.extractPos (47 :: strncpy name ++ [0]))
    extractPos := currPos
    calls := s.calls ++ [(s.extractPos, currPos)] }

def FsckState.comeBack (s t : FsckState ω) : FsckState ω :=
  { t with
    extractPath := t.extractPath.map (store · s.extractPos [0])
    extractPos := s.extractPos }

/-- A relation between the states before and after a call that a walk keeps: it is about the path
and the record of calls, and following an entry and coming back keeps it. -/
structure WalkRule (R : FsckState ω → FsckState ω → Prop) : Prop where
  frame : ∀ {s t}, t.extractPath = s.extractPath → t.extractPos = s.extractPos →
    t.calls = s.calls → R s t
  trans : ∀ {s t u}, R s t → R t u → R s u
  pos : ∀ {s t}, R s t → t.extractPos = s.extractPos
  follow : ∀ {s t name}, name ≠ [] → s.extractPos + name.length < pathMax →
    R (s.follow name) t → R s (s.comeBack t)

section Rule

variable {R : FsckState ω → FsckState ω → Prop}

theorem WalkRule.and {R' : FsckState ω → FsckState ω → Prop} (hR : WalkRule R)
    (hR' : WalkRule R') : WalkRule fun s t => R s t ∧ R' s t where
  frame := fun hpath hpos hcalls => ⟨hR.frame hpath hpos hcalls, hR'.frame hpath hpos hcalls⟩
  trans := fun h h' => ⟨hR.trans h.1 h'.1, hR'.trans h.2 h'.2⟩
  pos := fun h => hR.pos h.1
  follow := fun hname hlong h => ⟨hR.follow hname hlong h.1, hR'.follow hname hlong h.2⟩

def Returned (R : FsckState ω → FsckState ω → Prop) (s : FsckState ω)
    (r : Option (ℤ × FsckState ω)) : Prop :=
  ∃ ret s', r = some (ret, s') ∧ R s s'

theorem WalkRule.fsckOut (hR : WalkRule R) (ret : ℤ) (s : FsckState ω) :
    R s (fsckOut ret s).2 := by
  unfold ErofsUtils.fsckOut
  dsimp only
  split
  · exact hR.frame rfl rfl rfl
  · exact hR.frame rfl rfl rfl

theorem WalkRule.checkBeforeDir (hR : WalkRule R) {inode : FsckInode} {s : FsckState ω} :
    (∀ r, checkBeforeDir env inode s = .error r → R s r.2) ∧
      ∀ r, checkBeforeDir env inode s = .ok r → R s r.2 := by
  unfold ErofsUtils.checkBeforeDir
  generalize (if env.checkDecomp = true ∧ env.dumpXattrs = true then (0, s.world)
    else env.verifyXattr inode s.world) = verified
  have hframe : ∀ w : ω, R s { s with world := w } := fun w => hR.frame rfl rfl rfl
  dsimp only
  split
  · exact ⟨fun r h => (Except.error.inj h) ▸ hR.trans (hframe _) (hR.fsckOut _ _),
      fun r h => (by cases h)⟩
  split
  · exact ⟨fun r h => (Except.error.inj h) ▸ hR.trans (hframe _) (hR.fsckOut _ _),
      fun r h => (by cases h)⟩
  split
  · split
    · exact ⟨fun r h => (Except.error.inj h) ▸ hframe _, fun r h => (by cases h)⟩
    · exact ⟨fun r h => (by cases h), fun r h => (Except.ok.inj h) ▸ hframe _⟩
  · exact ⟨fun r h => (by cases h), fun r h => (Except.ok.inj h) ▸ hframe _⟩

theorem WalkRule.checkAfterDir (hR : WalkRule R) (inode : FsckInode) (ret : ℤ)
    (s : FsckState ω) : R s (checkAfterDir env inode ret s).2 := by
  unfold ErofsUtils.checkAfterDir
  dsimp only
  apply hR.trans _ (hR.fsckOut _ _)
  split
  · exact hR.frame rfl rfl rfl
  · exact hR.frame rfl rfl rfl

/-- The step of the walk: an entry with a name moves `extract_pos` on where it is followed. -/
theorem WalkRule.erofsfsckDirentIter (hR : WalkRule R)
    {check : ℕ → ℕ → FsckState ω → Option (ℤ × FsckState ω)} {v : DirVisit}
    (hname : v.dname ≠ []) {s : FsckState ω}
    (hcheck : ∀ pnid nid t, s.extractPos < t.extractPos → t.extractPos ≤ pathMax →
      Returned R t (check pnid nid t)) (dirNid : ℕ) :
    Returned R s (erofsfsckDirentIter check dirNid v s) := by
  have hlen := List.length_pos_iff.mpr hname
  have hrefl : R s s := hR.frame rfl rfl rfl
  unfold ErofsUtils.erofsfsckDirentIter
  by_cases hdot : v.dotDotdot = true
  · rw [if_pos hdot]
    exact ⟨0, s, rfl, hrefl⟩
  rw [if_neg hdot]
  by_cases hlong : pathMax ≤ s.extractPos + v.dname.length
  · simp only [if_pos hlong]
    exact ⟨_, s, rfl, hrefl⟩
  simp only [if_neg hlong]
  have hpos : s.extractPos < (s.follow v.dname).extractPos := by
    simp only [FsckState.follow]
    omega
  have hle : (s.follow v.dname).extractPos ≤ pathMax := by
    simp only [FsckState.follow]
    split <;> omega
  obtain ⟨ret, t, hret, ht⟩ := hcheck dirNid v.nid (s.follow v.dname) hpos hle
  simp only [FsckState.follow] at hret
  rw [hret]
  exact ⟨ret, s.comeBack t, rfl, hR.follow hname (by omega) ht⟩

theorem WalkRule.erofsfsckCheckInode (hR : WalkRule R) {fuel : ℕ} (pnid nid : ℕ)
    (s : FsckState ω) (hfuel : 0 < fuel) (hpos : pathMax < fuel + s.extractPos) :
    Returned R s (erofsfsckCheckInode env fuel pnid nid s) := by
  induction fuel generalizing pnid nid s with
  | zero => omega
  | succ fuel ih =>
      have hframe : ∀ w : ω, R s { s with world := w } := fun w => hR.frame rfl rfl rfl
      rw [ErofsUtils.erofsfsckCheckInode]
      split
      · exact ⟨_, _, rfl, hR.trans (hframe _) (hR.fsckOut _ _)⟩
      next inode w _ =>
      split
      · next r hbefore =>
          exact ⟨_, _, rfl, hR.trans (hframe w) (hR.checkBeforeDir.1 r hbefore)⟩
      · next ret s1 hbefore =>
          have hs1 : R s s1 := hR.trans (hframe w) (hR.checkBeforeDir.2 (ret, s1) hbefore)
          split
          · -- the entries of a directory are followed with less of the path left
            have hiter : ∀ v t, v.dname ≠ [] → R s1 t → ∃ ret t',
                ErofsUtils.erofsfsckDirentIter (ErofsUtils.erofsfsckCheckInode env fuel)
                  inode.dir.nid v t = some (ret, t') ∧ R s1 t' := by
              intro v t hname ht
              have hcheck : ∀ pnid nid u, t.extractPos < u.extractPos →
                  u.extractPos ≤ pathMax →
                  Returned R u (ErofsUtils.erofsfsckCheckInode env fuel pnid nid u) := by
                intro pnid nid u hgt hle
                have he := (hR.pos ht).trans (hR.pos hs1)
                exact ih pnid nid u (by omega) (by omega)
              obtain ⟨ret, t', hret, ht'⟩ := hR.erofsfsckDirentIter hname hcheck inode.dir.nid
              exact ⟨ret, t', hret, hR.trans ht ht'⟩
            obtain ⟨ret, w', hrun, hw⟩ := erofsIterateDir_total env.sbi inode.dir true
              (env.stack s1.world) hiter ⟨true, false, false, pnid⟩ (hR.frame rfl rfl rfl)
            rw [hrun]
            exact ⟨_, _, rfl, hR.trans hs1 (hR.trans hw (hR.checkAfterDir _ _ _))⟩
          · exact ⟨_, _, rfl, hR.trans hs1 (hR.checkAfterDir _ _ _)⟩

end Rule

/-- Every nested call on record has moved `extract_pos` on, within `PATH_MAX`. -/
def CallsGrow (calls : List (ℕ × ℕ)) : Prop := ∀ c ∈ calls, c.1 < c.2 ∧ c.2 ≤ pathMax

/-- `extract_pos` is as before, and the nested calls made have moved it on. -/
def Kept (s t : FsckState ω) : Prop :=
  t.extractPos = s.extractPos ∧ (CallsGrow s.calls → CallsGrow t.calls)

theorem walkRule_kept : WalkRule (ω := ω) Kept where
  frame := fun _ hpos hcalls => ⟨hpos, fun h => hcalls ▸ h⟩
  trans := fun h h' => ⟨h'.1.trans h.1, fun hs => h'.2 (h.2 hs)⟩
  pos := fun h => h.1
  follow := by
    intro s t name hname hlong ht
    have hlen := List.length_pos_iff.mpr hname
    refine ⟨rfl, fun hgrow => ht.2 ?_⟩
    intro c hc
    rw [FsckState.follow, List.mem_append, List.mem_singleton] at hc
    rcases hc with hc | rfl
    · exact hgrow c hc
    · dsimp only
      split <;> omega

/-- The walk of fsck ends on every image, from every position on a path: each nested call on
record has moved `extract_pos` on, no further than `PATH_MAX`, and after the walk it is where it
was. -/
theorem fsckWalk_terminates (env : FsckEnv ω) (pnid nid : ℕ) (s : FsckState ω) :
    ∃ ret s', erofsfsckCheckInode env (pathMax + 1) pnid nid { s with calls := [] } =
        some (ret, s') ∧ s'.extractPos = s.extractPos ∧
      ∀ c ∈ s'.calls, c.1 < c.2 ∧ c.2 ≤ pathMax := by
  have hret : Returned Kept { s with calls := [] }
      (erofsfsckCheckInode env (pathMax + 1) pnid nid { s with calls := [] }) :=
    walkRule_kept.erofsfsckCheckInode pnid nid _ (Nat.succ_pos pathMax) (by omega)
  obtain ⟨ret, s', hrun, hpos, hcalls⟩ := hret
  refine ⟨ret, s', hrun, hpos, ?_⟩
  apply hcalls
  intro c hc
  cases hc

end Terminates

end ErofsUtils
