import ErofsUtils.DirEntries
import ErofsUtils.DepthFirst

/-!
# The pathname of an inode

`erofs_get_pathname` looks for an inode through all directories, without a record of those it has
been in, and writes its path on the way back. The search ends exactly when it cannot go down from
directory to directory for ever: nothing in it bounds the depth, since the size of the buffer is
looked at only when the inode is found.
-/

namespace ErofsUtils
open ByteMemory CString DepthFirst

def pathnameFound : ℤ := 1

def eRange : ℤ := -34

def ftUnknown : ℕ := 0

def ftDir : ℕ := 2

/-- What the search uses of an image: `readInode` is `erofs_read_inode_from_disk`, which fails with
a negative code; `stack` and `nameiStack` are what the buffers of `erofs_iterate_dir` and of
`erofs_namei` hold before anything of a directory is read into them. -/
structure PathEnv where
  sbi : DirSb
  readInode : ℕ → Except ℤ DirInode
  stack : ℕ → Mem
  nameiStack : ℕ → Mem
  readInode_neg : ∀ {nid e}, readInode nid = .error e → e < 0
  readInode_nid : ∀ {nid dir}, readInode nid = .ok dir → dir.nid = nid

/-- The buffer of the caller, with a record of the places written. -/
structure PathBuf where
  mem : Mem
  written : List ℕ

def PathBuf.put (b : PathBuf) (pos : ℕ) (bytes : List UInt8) : PathBuf :=
  ⟨store b.mem pos bytes, b.written ++ List.range' pos bytes.length⟩

section Search

variable (env : PathEnv) (target size : ℕ)

/-- `erofs_get_pathname_iter` at the position `pos` of its directory, where `descend` is the
search through a directory. -/
def erofsGetPathnameIter (descend : DirInode → ℕ → PathBuf → Option (ℤ × PathBuf)) (pos : ℕ)
    (v : DirVisit) (b : PathBuf) : Option (ℤ × PathBuf) :=
  let len := v.dname.length
  if v.dotDotdot then some (0, b)
  else if v.nid = target then
    if size < pos + len + 2 then some (eRange, b)
    else some (pathnameFound, b.put pos (47 :: strncpy v.dname ++ [0]))
  else if v.ftype = ftDir ∨ v.ftype = ftUnknown then
    match env.readInode v.nid with
    | .error ret => some (ret, b)
    | .ok dir =>
      if dir.isDir then
        match descend dir (pos + len + 1) b with
        | none => none
        | some (ret, b) =>
          some (ret, if ret = pathnameFound then b.put pos (47 :: strncpy v.dname) else b)
      else some (0, b)
  else some (0, b)

/-- The search through a directory whose path ends at `pos`; without fuel it does not return. -/
def searchDir : ℕ → DirInode → ℕ → PathBuf → Option (ℤ × PathBuf)
  | 0, _, _, _ => none
  | fuel + 1, dir, pos, b =>
    (erofsIterateDir env.sbi dir false (erofsGetPathnameIter env target size (searchDir fuel) pos)
      (env.stack dir.nid) ⟨false, false, false, 0⟩ b).map fun r => (r.1, r.2.st)

def erofsGetPathname (fuel : ℕ) (b : PathBuf) : Option (ℤ × PathBuf) :=
  if target = env.sbi.rootNid then
    if size < 2 then some (eRange, b) else some (0, b.put 0 [47, 0])
  else
    match env.readInode env.sbi.rootNid with
    | .error ret => some (ret, b)
    | .ok root =>
      match searchDir env target size fuel root 0 b with
      | none => none
      | some (ret, b) =>
        if ret = pathnameFound then some (0, b)
        else if ret = 0 then some (eNoEnt, b)
        else some (ret, b)

def searchChild (v : DirVisit) : Child DirInode :=
  if v.dotDotdot then .skip
  else if v.nid = target then .stop
  else if v.ftype = ftDir ∨ v.ftype = ftUnknown then
    match env.readInode v.nid with
    | .error _ => .stop
    | .ok dir => if dir.isDir then .enter dir else .skip
  else .skip

/-- The entries of a directory for the search; one that cannot be gone through stops it after
these. -/
def searchChildren (dir : DirInode) : List (Child DirInode) :=
  let entries := dirEntries env.sbi dir (env.stack dir.nid)
  entries.1.map (searchChild env target) ++ if entries.2 = 0 then [] else [.stop]

end Search

section Walk

variable {env : PathEnv} {target size : ℕ}

def walkRet (r : Option (ℤ × PathBuf)) : Option Bool := r.map fun r => decide (r.1 = 0)

section Entry

variable {descend : DirInode → ℕ → PathBuf → Option (ℤ × PathBuf)} {pos : ℕ} {v : DirVisit}
variable {b : PathBuf}

theorem iter_skip (h : searchChild env target v = .skip) :
    erofsGetPathnameIter env target size descend pos v b = some (0, b) := by
  unfold searchChild at h
  unfold erofsGetPathnameIter
  dsimp only
  split at h
  · next hdot => rw [if_pos hdot]
  · next hdot =>
      rw [if_neg hdot]
      split at h
      · cases h
      · next hnid =>
          rw [if_neg hnid]
          split at h
          · next hft =>
              rw [if_pos hft]
              split at h
              · cases h
              · next dir hread =>
                  split at h
                  · cases h
                  · next hdir => rw [if_neg hdir]
          · next hft => rw [if_neg hft]

theorem iter_stop (h : searchChild env target v = .stop) :
    ∃ ret b', erofsGetPathnameIter env target size descend pos v b = some (ret, b') ∧ ret ≠ 0 := by
  unfold searchChild at h
  unfold erofsGetPathnameIter
  dsimp only
  split at h
  · cases h
  next hdot =>
  rw [if_neg hdot]
  split at h
  · next hnid =>
      rw [if_pos hnid]
      split
      · exact ⟨_, _, rfl, by decide⟩
      · exact ⟨_, _, rfl, by decide⟩
  next hnid =>
  rw [if_neg hnid]
  split at h
  · next hft =>
      rw [if_pos hft]
      split at h
      · next e hread =>
          have hneg := env.readInode_neg hread
          exact ⟨e, b, rfl, by omega⟩
      · split at h <;> cases h
  · cases h

/-- An entry for another inode which is a directory sends the search down. -/
theorem searchChild_enter {dir : DirInode} (h : searchChild env target v = .enter dir) :
    v.dotDotdot = false ∧ v.nid ≠ target ∧ (v.ftype = ftDir ∨ v.ftype = ftUnknown) ∧
      env.readInode v.nid = .ok dir ∧ dir.isDir = true := by
  unfold searchChild at h
  split at h
  · cases h
  next hdot =>
  split at h
  · cases h
  next hnid =>
  split at h
  · next hft =>
      split at h
      · cases h
      · next dir' hread =>
          split at h
          · next hdir =>
              cases h
              exact ⟨Bool.eq_false_iff.mpr hdot, hnid, hft, hread, hdir⟩
          · cases h
  · cases h

theorem iter_enter {dir : DirInode} (h : searchChild env target v = .enter dir) :
    erofsGetPathnameIter env target size descend pos v b =
      (descend dir (pos + v.dname.length + 1) b).map fun r =>
        (r.1, if r.1 = pathnameFound then r.2.put pos (47 :: strncpy v.dname) else r.2) := by
  obtain ⟨hdot, hnid, hft, hread, hdir⟩ := searchChild_enter h
  unfold erofsGetPathnameIter
  simp only [hdot, Bool.false_eq_true, if_false, if_neg hnid, if_pos hft, hread, hdir, if_true]
  cases descend dir (pos + v.dname.length + 1) b with
  | none => rfl
  | some r => rfl

end Entry

theorem walkRet_visitAll {descend : DirInode → ℕ → PathBuf → Option (ℤ × PathBuf)}
    {down : DirInode → Option Bool} (hdown : ∀ dir pos b, walkRet (descend dir pos b) = down dir)
    (pos : ℕ) (vs : List DirVisit) (ret : ℤ) (b : PathBuf) :
    walkRet (visitAll (erofsGetPathnameIter env target size descend pos) vs ret b) =
      walkList down (vs.map (searchChild env target) ++ if ret = 0 then [] else [.stop]) := by
  induction vs generalizing b with
  | nil =>
      rw [visitAll]
      by_cases hr : ret = 0
      · simp [hr, walkRet, walkList]
      · simp [hr, walkRet, walkList]
  | cons v vs ih =>
      rw [visitAll, List.map_cons, List.cons_append]
      cases hc : searchChild env target v with
      | skip =>
          rw [iter_skip hc, walkList]
          exact ih b
      | stop =>
          have hstop : ∃ r b', erofsGetPathnameIter env target size descend pos v b =
              some (r, b') ∧ r ≠ 0 := iter_stop hc
          obtain ⟨r, b', hiter, hne⟩ := hstop
          rw [hiter, walkList]
          simp [walkRet, hne]
      | enter dir =>
          rw [iter_enter hc, walkList, ← hdown dir (pos + v.dname.length + 1) b]
          cases descend dir (pos + v.dname.length + 1) b with
          | none => rfl
          | some r =>
              by_cases hr : r.1 = 0
              · simp only [hr, walkRet, Option.map_some, decide_true]
                exact ih _
              · simp [hr, walkRet]

/-- The search through a directory is a depth-first walk, whatever the position and the buffer. -/
theorem walkRet_searchDir (size fuel : ℕ) (dir : DirInode) (pos : ℕ) (b : PathBuf) :
    walkRet (searchDir env target size fuel dir pos b) =
      walk (searchChildren env target) fuel dir := by
  induction fuel generalizing dir pos b with
  | zero => rfl
  | succ fuel ih =>
      rw [searchDir, erofsIterateDir_visitAll, walk]
      exact walkRet_visitAll ih pos _ _ b

/-- The search goes down for ever: from the root through a directory in each directory, with no
entry for the inode, no unreadable inode and no malformed entry that it meets before. -/
def EndlessSearch (env : PathEnv) (target : ℕ) : Prop :=
  target ≠ env.sbi.rootNid ∧ ∃ way : ℕ → DirInode,
    env.readInode env.sbi.rootNid = .ok (way 0) ∧
      ∀ n, GoesDown (searchChildren env target) (way (n + 1)) (way n)

theorem getPathname_eq_none_iff {fuel : ℕ} {b : PathBuf} {root : DirInode}
    (hroot : target ≠ env.sbi.rootNid) (hread : env.readInode env.sbi.rootNid = .ok root) :
    erofsGetPathname env target size fuel b = none ↔
      walk (searchChildren env target) fuel root = none := by
  rw [← walkRet_searchDir size fuel root 0 b, erofsGetPathname, if_neg hroot, hread]
  dsimp only
  cases searchDir env target size fuel root 0 b with
  | none => simp [walkRet]
  | some r =>
      simp only [walkRet, Option.map_some]
      split
      · simp
      · split <;> simp

theorem getPathname_of_endless (h : EndlessSearch env target) (fuel : ℕ) (b : PathBuf) :
    erofsGetPathname env target size fuel b = none := by
  obtain ⟨hroot, way, h0, hway⟩ := h
  rw [getPathname_eq_none_iff hroot h0]
  by_contra hne
  exact walk_ends_iff.mp ⟨fuel, hne⟩ ⟨way, rfl, hway⟩

theorem getPathname_of_not_endless (h : ¬ EndlessSearch env target) (b : PathBuf) :
    ∃ fuel, erofsGetPathname env target size fuel b ≠ none := by
  by_cases hroot : target = env.sbi.rootNid
  · refine ⟨0, ?_⟩
    rw [erofsGetPathname, if_pos hroot]
    split <;> simp
  cases hread : env.readInode env.sbi.rootNid with
  | error e =>
      refine ⟨0, ?_⟩
      rw [erofsGetPathname, if_neg hroot, hread]
      simp
  | ok root =>
      have hends : ∃ fuel, walk (searchChildren env target) fuel root ≠ none := by
        apply walk_ends_iff.mpr
        rintro ⟨way, h0, hway⟩
        exact h ⟨hroot, way, by rw [hread, h0], hway⟩
      obtain ⟨fuel, hfuel⟩ := hends
      exact ⟨fuel, fun hn => hfuel ((getPathname_eq_none_iff hroot hread).mp hn)⟩

/-- `erofs_get_pathname` ends exactly when the image has no such way down, for every inode and
every buffer. -/
theorem getPathname_terminates_iff (env : PathEnv) (target size : ℕ) (b : PathBuf) :
    (∃ fuel, erofsGetPathname env target size fuel b ≠ none) ↔ ¬ EndlessSearch env target := by
  constructor
  · rintro ⟨fuel, hne⟩ h
    exact hne (getPathname_of_endless h fuel b)
  · intro h
    exact getPathname_of_not_endless h b

end Walk

def loopDir : DirInode := imageDir 36 (dotEntries ++ [(36, 2, [97])]) []

def loopEnv : PathEnv where
  sbi := rootSb
  readInode := fun nid => if nid = 36 then .ok loopDir else .error eIo
  stack := fun _ _ => 0
  nameiStack := fun _ _ => 0
  readInode_neg := by
    intro nid e h
    split at h
    · cases h
    · cases h
      decide
  readInode_nid := by
    intro nid dir h
    split at h
    · next hn =>
        cases h
        exact hn.symm
    · cases h

theorem loopDir_goesDown : GoesDown (searchChildren loopEnv 40) loopDir loopDir := by
  have hent : dirEntries rootSb loopDir (fun _ => 0) =
      ([⟨36, 2, 36, [46], true⟩, ⟨36, 2, 37, [46, 46], true⟩, ⟨36, 2, 39, [97], false⟩], 0) := by
    decide +kernel
  refine ⟨[.skip, .skip], [], ?_, ?_⟩
  · change ((dirEntries rootSb loopDir (fun _ => 0)).1.map (searchChild loopEnv 40) ++
      if (dirEntries rootSb loopDir (fun _ => 0)).2 = 0 then [] else [.stop]) = _
    rw [hent]
    rfl
  · simp [Child.Stops]

theorem getPathname_loops :
    ¬ ∀ (env : PathEnv) (target size : ℕ) (b : PathBuf),
      ∃ fuel, erofsGetPathname env target size fuel b ≠ none := by
  intro h
  obtain ⟨fuel, hne⟩ := h loopEnv 40 4096 ⟨fun _ => 0, []⟩
  apply hne
  apply getPathname_of_endless
  exact ⟨by decide, fun _ => loopDir, rfl, fun _ => loopDir_goesDown⟩

end ErofsUtils
