import ErofsUtils.ExtractWalk

/-!
# The buffer for the path

Both walks put a slash, a name and a NUL behind the path in a buffer of `PATH_MAX` bytes, and take
them away again. The path is as before after each call, but the test on the length leaves the slash
out: where an entry is followed to `PATH_MAX` itself, the NUL is put behind the buffer.
-/

namespace ErofsUtils
open ByteMemory CString PathStrings

/-- The places that the calls on record have written: from `extract_pos` before a call to the NUL
at `extract_pos` in it. -/
def pathWrites (calls : List (ℕ × ℕ)) : List ℕ :=
  calls.flatMap fun c => List.range' c.1 (c.2 + 1 - c.1)

theorem mem_pathWrites {calls : List (ℕ × ℕ)} {i : ℕ} :
    i ∈ pathWrites calls ↔ ∃ c ∈ calls, c.1 ≤ i ∧ i ≤ c.2 := by
  rw [pathWrites, List.mem_flatMap]
  constructor
  · rintro ⟨c, hc, hi⟩
    rw [List.mem_range'_1] at hi
    exact ⟨c, hc, by omega⟩
  · rintro ⟨c, hc, hi⟩
    refine ⟨c, hc, ?_⟩
    rw [List.mem_range'_1]
    omega

theorem pathWrites_mono {calls calls' : List (ℕ × ℕ)} (h : calls ⊆ calls') :
    pathWrites calls ⊆ pathWrites calls' := by
  intro i hi
  obtain ⟨c, hc, hci⟩ := mem_pathWrites.mp hi
  exact mem_pathWrites.mpr ⟨c, h hc, hci⟩

theorem pathWrites_lt_iff {calls : List (ℕ × ℕ)} (h : CallsGrow calls) :
    (∀ i ∈ pathWrites calls, i < pathMax) ↔ ∀ c ∈ calls, c.2 ≠ pathMax := by
  constructor
  · intro hlt c hc
    have hgrow := h c hc
    have hmem : c.2 ∈ pathWrites calls := mem_pathWrites.mpr ⟨c, hc, by omega, le_refl _⟩
    exact Nat.ne_of_lt (hlt c.2 hmem)
  · intro hne i hi
    obtain ⟨c, hc, -, hle⟩ := mem_pathWrites.mp hi
    have hgrow := h c hc
    have hcne := hne c hc
    omega

section Fsck

variable {ω : Type*}

/-- The path is as before, and nothing but the places on record has been written. -/
structure FsckState.Restored (s t : FsckState ω) : Prop where
  pos : t.extractPos = s.extractPos
  path : ∀ m, s.extractPath = some m → ∃ m', t.extractPath = some m' ∧
    SameUpTo s.extractPos m m' ∧ ∀ i ∉ pathWrites t.calls, m' i = m i
  noPath : s.extractPath = none → t.extractPath = none
  calls : s.calls ⊆ t.calls

theorem FsckState.Restored.trans {s t u : FsckState ω} (h : s.Restored t) (h' : t.Restored u) :
    s.Restored u where
  pos := h'.pos.trans h.pos
  path := by
    intro m hm
    obtain ⟨m1, hm1, hsame, hframe⟩ := h.path m hm
    obtain ⟨m2, hm2, hsame', hframe'⟩ := h'.path m1 hm1
    refine ⟨m2, hm2, hsame.trans (h.pos ▸ hsame'), ?_⟩
    intro i hi
    have hi1 : i ∉ pathWrites t.calls := fun hmem => hi (pathWrites_mono h'.calls hmem)
    exact (hframe' i hi).trans (hframe i hi1)
  noPath := fun hn => h'.noPath (h.noPath hn)
  calls := fun _ hc => h'.calls (h.calls hc)

theorem FsckState.Restored.comeBack {s t : FsckState ω} {name : FileName}
    (h : (s.follow name).Restored t) : s.Restored (s.comeBack t) where
  pos := rfl
  path := by
    intro m hm
    have hfollow : (s.follow name).extractPath =
        some (store m s.extractPos (47 :: strncpy name ++ [0])) := by
      rw [FsckState.follow, hm]
      rfl
    have hpos : (s.follow name).extractPos = s.extractPos + name.length + 1 := by
      rw [FsckState.follow, hm]
      rfl
    have hcall : (s.extractPos, s.extractPos + name.length + 1) ∈ t.calls := by
      apply h.calls
      rw [← hpos]
      exact List.mem_append_right _ (List.mem_singleton_self _)
    obtain ⟨m', hm', hsame, hframe⟩ := h.path _ hfollow
    rw [hpos] at hsame
    refine ⟨store m' s.extractPos [0], ?_, hsame.push_pop (by omega), ?_⟩
    · rw [FsckState.comeBack, hm']
      rfl
    · intro i hi
      have hout : i < s.extractPos ∨ s.extractPos + name.length + 1 < i := by
        by_contra hn
        push Not at hn
        exact hi (mem_pathWrites.mpr ⟨_, hcall, hn⟩)
      have hi' : store m' s.extractPos [0] i = m' i := by
        cases hout with
        | inl hlt => exact store_of_lt _ hlt
        | inr hgt => exact store_of_ge _ (by rw [List.length_singleton]; omega)
      rw [hi', hframe i hi]
      cases hout with
      | inl hlt => exact store_of_lt _ hlt
      | inr hgt =>
          apply store_of_ge
          rw [List.length_append, List.length_cons, length_strncpy, List.length_singleton]
          omega
  noPath := by
    intro hn
    have hfollow : (s.follow name).extractPath = none := by
      rw [FsckState.follow, hn]
      rfl
    rw [FsckState.comeBack, h.noPath hfollow]
    rfl
  calls := fun _ hc => h.calls (List.mem_append_left _ hc)

theorem walkRule_restored : WalkRule (ω := ω) FsckState.Restored where
  frame := by
    intro s t hpath hpos hcalls
    refine ⟨hpos, ?_, fun hn => hpath.trans hn, fun c hc => hcalls ▸ hc⟩
    intro m hm
    exact ⟨m, hpath.trans hm, SameUpTo.refl _ m, fun _ _ => rfl⟩
  trans := FsckState.Restored.trans
  pos := FsckState.Restored.pos
  follow := fun _ _ h => h.comeBack

end Fsck

section Extract

/-- The same for the other walk, which keeps the record of its writes itself: these go beyond the
buffer where an entry is followed to `PATH_MAX`, and nowhere else. -/
structure ExtractState.Restored (s t : ExtractState) : Prop where
  pos : t.iterPos = s.iterPos
  place : t.place = s.place
  path : SameUpTo s.iterPos s.iterPath.mem t.iterPath.mem
  written : s.iterPath.written ⊆ t.iterPath.written
  frame : ∀ i ∉ t.iterPath.written, t.iterPath.mem i = s.iterPath.mem i
  bounds : ((∀ i ∈ s.iterPath.written, i < pathMax) ↔ ∀ c ∈ s.calls, c.2 ≠ pathMax) →
    ((∀ i ∈ t.iterPath.written, i < pathMax) ↔ ∀ c ∈ t.calls, c.2 ≠ pathMax)

namespace ExtractState.Restored

theorem refl (s : ExtractState) : s.Restored s :=
  ⟨rfl, rfl, SameUpTo.refl _ _, fun _ h => h, fun _ _ => rfl, id⟩

theorem trans {s t u : ExtractState} (h : s.Restored t) (h' : t.Restored u) : s.Restored u where
  pos := h'.pos.trans h.pos
  place := h'.place.trans h.place
  path := h.path.trans (h.pos ▸ h'.path)
  written := fun _ hi => h'.written (h.written hi)
  frame := by
    intro i hi
    have hi1 : i ∉ t.iterPath.written := fun hmem => hi (h'.written hmem)
    exact (h'.frame i hi).trans (h.frame i hi1)
  bounds := fun hs => h'.bounds (h.bounds hs)

theorem create (inode : FsckInode) (s : ExtractState) : s.Restored (createErofsNode inode s) := by
  unfold createErofsNode
  split
  · exact refl s
  · exact ⟨rfl, rfl, SameUpTo.refl _ _, fun _ h => h, fun _ _ => rfl, id⟩

end ExtractState.Restored

theorem put_mem_of_notMem {b : PathBuf} {pos i : ℕ} {bytes : List UInt8}
    (h : i ∉ List.range' pos bytes.length) : (b.put pos bytes).mem i = b.mem i := by
  rw [List.mem_range'_1, not_and_or, Nat.not_le, Nat.not_lt] at h
  cases h with
  | inl hlt => exact store_of_lt _ hlt
  | inr hge => exact store_of_ge _ hge

/-- The places written to follow an entry, and those on record then, are within the buffer unless
the entry is followed to `PATH_MAX`. -/
theorem follow_bounds {s : ExtractState} {name : FileName}
    (hlong : s.iterPos + name.length < pathMax)
    (hs : (∀ i ∈ s.iterPath.written, i < pathMax) ↔ ∀ c ∈ s.calls, c.2 ≠ pathMax) :
    (∀ i ∈ (s.follow name).iterPath.written, i < pathMax) ↔
      ∀ c ∈ (s.follow name).calls, c.2 ≠ pathMax := by
  have hlen : (47 :: strncpy name ++ [0]).length = name.length + 2 := by
    rw [List.length_append, List.length_cons, length_strncpy, List.length_singleton]
  simp only [ExtractState.follow, PathBuf.put]
  rw [List.forall_mem_append, List.forall_mem_append, hs, hlen]
  apply and_congr_right
  intro _
  constructor
  · intro hlt c hc
    rw [List.mem_singleton.mp hc]
    have hnul := hlt (s.iterPos + 1 + name.length) (List.mem_range'_1.mpr (by omega))
    dsimp only
    omega
  · intro hne i hi
    have hcall := hne _ (List.mem_singleton_self _)
    have hi' := List.mem_range'_1.mp hi
    dsimp only at hcall
    omega

theorem ExtractState.Restored.comeBack {s t : ExtractState} {name : FileName}
    (hlong : s.iterPos + name.length < pathMax) (h : (s.follow name).Restored t) :
    s.Restored (s.comeBack t) where
  pos := rfl
  place := rfl
  path := by
    have hpos : s.iterPos < (s.follow name).iterPos := by
      simp only [ExtractState.follow]
      omega
    exact h.path.push_pop hpos
  written := by
    intro i hi
    exact List.mem_append_left _ (h.written (List.mem_append_left _ hi))
  frame := by
    intro i hi
    rw [ExtractState.comeBack, PathBuf.put, List.mem_append, not_or] at hi
    have hi' : i ∉ (s.follow name).iterPath.written := fun hmem => hi.1 (h.written hmem)
    simp only [ExtractState.follow, PathBuf.put, List.mem_append, not_or] at hi'
    change (t.iterPath.put s.iterPos [0]).mem i = _
    rw [put_mem_of_notMem hi.2, h.frame i hi.1]
    exact put_mem_of_notMem hi'.2
  bounds := by
    intro hs
    rw [ExtractState.comeBack, PathBuf.put, List.forall_mem_append,
      h.bounds (follow_bounds hlong hs)]
    -- the NUL that comes last is put where the slash was
    have hnul : ∀ i ∈ List.range' s.iterPos [(0 : UInt8)].length, i < pathMax := by
      intro i hi
      have hi' := List.mem_range'_1.mp hi
      rw [List.length_singleton] at hi'
      omega
    exact and_iff_left hnul

theorem extractRule_restored (env : ExtractEnv) :
    ExtractRule env (fun _ => True) (fun _ => True) ExtractState.Restored where
  refl := ExtractState.Restored.refl
  trans := ExtractState.Restored.trans
  pos := ExtractState.Restored.pos
  keeps := fun _ _ => trivial
  create := fun _ _ => ExtractState.Restored.create _ _
  enter := fun _ => trivial
  follow := fun _ _ _ => trivial
  comeBack := fun _ _ hlong h => h.comeBack hlong

end Extract

section Whole

variable {ω : Type*}

def FsckState.fresh (s : FsckState ω) : FsckState ω := { s with calls := [] }

def ExtractState.fresh (s : ExtractState) : ExtractState :=
  { s with iterPath := ⟨s.iterPath.mem, []⟩, calls := [] }

/-- What a call of either walk leaves behind: the path is as before, and it has written outside
the buffer exactly when an entry is followed to `PATH_MAX` itself. -/
structure FsckState.LeftSafe (s t : FsckState ω) : Prop where
  restored : s.Restored t
  inside_iff : s.extractPath.isSome →
    ((∀ i ∈ pathWrites t.calls, i < pathMax) ↔ ∀ c ∈ t.calls, c.2 ≠ pathMax)

structure ExtractState.LeftSafe (s t : ExtractState) : Prop where
  restored : s.Restored t
  inside_iff : (∀ i ∈ t.iterPath.written, i < pathMax) ↔ ∀ c ∈ t.calls, c.2 ≠ pathMax

theorem FsckState.leftSafe_of_rule {s t : FsckState ω}
    (h : Kept s.fresh t ∧ s.fresh.Restored t) : s.fresh.LeftSafe t where
  restored := h.2
  inside_iff := by
    intro _
    apply pathWrites_lt_iff
    apply h.1.2
    intro c hc
    cases hc

theorem ExtractState.leftSafe_of_restored {s t : ExtractState} (h : s.fresh.Restored t) :
    s.fresh.LeftSafe t where
  restored := h
  inside_iff := by
    apply h.bounds
    constructor
    · intro _ c hc
      cases hc
    · intro _ i hi
      cases hi

/-- Both callbacks and the walks that they are part of return with the position and the string up
to it as before, and they write outside the buffer exactly when an entry is followed to `PATH_MAX`
itself: the slash is not part of the length that is tested. -/
theorem pathBuffer_safe_iff (fsck : FsckEnv ω) (env : ExtractEnv) :
    (∀ (dirNid : ℕ) (v : DirVisit) (s : FsckState ω), v.dname ≠ [] → ∃ ret t,
      erofsfsckDirentIter (erofsfsckCheckInode fsck (pathMax + 1)) dirNid v s.fresh =
        some (ret, t) ∧ s.fresh.LeftSafe t) ∧
    (∀ (pnid nid : ℕ) (s : FsckState ω), ∃ ret t,
      erofsfsckCheckInode fsck (pathMax + 1) pnid nid s.fresh = some (ret, t) ∧
        s.fresh.LeftSafe t) ∧
    (∀ (v : DirVisit) (s : ExtractState), v.dname ≠ [] → ∃ ret t,
      direntIter (doInitNodeRecursive env (pathMax + 1)) v s.fresh = some (ret, t) ∧
        s.fresh.LeftSafe t) ∧
    ∀ (nid : ℕ) (s : ExtractState), ∃ ret t,
      doInitNodeRecursive env (pathMax + 1) nid s.fresh = some (ret, t) ∧
        s.fresh.LeftSafe t := by
  have hrule := (walkRule_kept (ω := ω)).and walkRule_restored
  refine ⟨?_, ?_, ?_, ?_⟩
  · intro dirNid v s hname
    obtain ⟨ret, t, hrun, ht⟩ := hrule.erofsfsckDirentIter (s := s.fresh) hname
      (fun pnid nid u hgt _ => hrule.erofsfsckCheckInode pnid nid u
        (Nat.succ_pos pathMax) (by omega)) dirNid
    exact ⟨ret, t, hrun, FsckState.leftSafe_of_rule ht⟩
  · intro pnid nid s
    obtain ⟨ret, t, hrun, ht⟩ := hrule.erofsfsckCheckInode pnid nid s.fresh
      (Nat.succ_pos pathMax) (by omega)
    exact ⟨ret, t, hrun, FsckState.leftSafe_of_rule ht⟩
  · intro v s hname
    obtain ⟨ret, t, hrun, ht⟩ := (extractRule_restored env).direntIter (s := s.fresh) trivial hname
      (fun nid u _ hgt _ => (extractRule_restored env).doInitNodeRecursive nid trivial
        (Nat.succ_pos pathMax) (by omega))
    exact ⟨ret, t, hrun, ExtractState.leftSafe_of_restored ht⟩
  · intro nid s
    obtain ⟨ret, t, hrun, ht⟩ := (extractRule_restored env).doInitNodeRecursive
      (s := s.fresh) nid trivial (Nat.succ_pos pathMax) (by omega)
    exact ⟨ret, t, hrun, ExtractState.leftSafe_of_restored ht⟩

end Whole

/-- A check that extracts to a path of 4094 bytes, of an image with one file `a` in its root. -/
def longPathEnv : FsckEnv Unit where
  sbi := rootSb
  checkDecomp := true
  dumpXattrs := false
  stack := fun _ _ => 0
  readInode := fun nid w =>
    if nid = 36 then (.ok ⟨oneBlockDir, .dir, 2, false, FsckInode.isDir_dir⟩, w)
    else if nid = 40 then
      (.ok ⟨{ oneBlockDir with nid := 40, isDir := false }, .regFile, 1, false,
        FsckInode.isDir_regFile⟩, w)
    else (.error eIo, w)
  verifyXattr := fun _ w => (0, w)
  verifyInodeData := fun _ w => (0, w)
  hardlinkFind := fun _ _ => none
  link := fun _ _ w => (0, w)
  extractDir := fun _ _ w => (0, w)
  extractFile := fun _ _ w => (0, w)
  extractSymlink := fun _ _ w => (0, w)
  extractSpecial := fun _ _ w => (0, w)
  hardlinkInsert := fun _ _ w => (0, w)
  doDumpXattrs := fun _ _ w => (0, w)
  setAttributes := fun _ _ w => w

def longPathState : FsckState Unit where
  extractPath := some fun i => if i = 0 then 47 else if i < 4094 then 97 else 0
  extractPos := 4094
  corrupted := false
  world := ()
  calls := []

def unreadableEnv : ExtractEnv where
  sbi := rootSb
  readInode := fun _ => .error eIo
  stack := fun _ _ => 0
  nameiStack := fun _ _ => 0
  snprintf := id
  readInode_neg := by
    intro nid e h
    cases h
    decide
  readInode_nid := fun h => by cases h
  snprintf_plain := fun _ => rfl

theorem pathBuffer_safe_longPath : ∃ ret t,
    erofsfsckDirentIter (erofsfsckCheckInode longPathEnv (pathMax + 1)) 36
        ⟨40, 1, 39, [97], false⟩ longPathState.fresh = some (ret, t) ∧
      longPathState.fresh.LeftSafe t :=
  (pathBuffer_safe_iff longPathEnv unreadableEnv).1 36 ⟨40, 1, 39, [97], false⟩ longPathState
    (by decide)

theorem longPath_overrun :
    ¬ ∀ (fsck : FsckEnv Unit) (pnid nid : ℕ) (s t : FsckState Unit) (ret : ℤ),
      s.extractPath.isSome → s.extractPos < pathMax →
      erofsfsckCheckInode fsck (pathMax + 1) pnid nid s.fresh = some (ret, t) →
        ∀ i ∈ pathWrites t.calls, i < pathMax := by
  intro h
  have hcalls : (erofsfsckCheckInode longPathEnv (pathMax + 1) 36 36 longPathState.fresh).map
      (fun r => r.2.calls) = some [(4094, 4096)] := by
    decide +kernel
  obtain ⟨⟨ret, t⟩, hrun, ht⟩ := Option.map_eq_some_iff.mp hcalls
  have hlt := h longPathEnv 36 36 longPathState t ret rfl (by decide) hrun 4096
  rw [ht] at hlt
  exact absurd (hlt (by decide)) (by decide)

end ErofsUtils
