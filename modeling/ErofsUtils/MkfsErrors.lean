import ErofsUtils.MkfsThreads

/-!
# Which errors of a build are reported

An error of an inode or of a job is reported when `erofs_mkfs_build_tree` returns something else
than 0. In the walk, the error of an entry ends the loop over its directory, but the job that
writes the directory overwrites it. In the threaded build the jobs run elsewhere, and the value
that the worker leaves with is not collected.
-/

namespace ErofsUtils

section Source

variable {go : MkfsJob → ℤ} {env : MkfsEnv} {t : SourceTree}

/-- Every act of a walk is about an inode of the tree, and its error is what handling that inode
or running that job returns. -/
def FromTree (go : MkfsJob → ℤ) (env : MkfsEnv) (t : SourceTree) : MkfsAct → Prop
  | .handled x err =>
    (x ∈ t.files ∧ err = handleRet go env x false) ∨
      ∃ d ∈ t.dirs, d.ino = x ∧ err = handleRet go env x true
  | .go job err =>
    err = go job ∧
      ((∃ x ∈ t.files, env.handleInode x false = .ok job) ∨
        (∃ d ∈ t.dirs, env.handleInode d.ino true = .ok job) ∨ ∃ d ∈ t.dirs, job = .dirBh d)
  | _ => True

theorem fromTree_handleOne {ino : ℕ} {isdir : Bool} {loads : List MkfsAct} {s : DumpState}
    (hs : ∀ a ∈ s.log, FromTree go env t a) (hloads : ∀ a ∈ loads, FromTree go env t a)
    (hino : (isdir = false ∧ ino ∈ t.files) ∨ (isdir = true ∧ ∃ d ∈ t.dirs, d.ino = ino)) :
    ∀ a ∈ (handleOne go env ino isdir loads s).1.log, FromTree go env t a := by
  have hhandled : FromTree go env t (.handled ino (handleRet go env ino isdir)) := by
    rcases hino with ⟨rfl, hx⟩ | ⟨rfl, d, hd, hx⟩
    · exact .inl ⟨hx, rfl⟩
    · exact .inr ⟨d, hd, hx, rfl⟩
  rw [handleRet] at hhandled
  rw [handleOne]
  cases hjob : env.handleInode ino isdir with
  | error err =>
    intro a ha
    rw [hjob] at hhandled
    rcases List.mem_cons.mp ha with rfl | ha
    · exact hhandled
    · exact hs a ha
  | ok job =>
    intro a ha
    rw [hjob] at hhandled
    have hgo : FromTree go env t (.go job (go job)) := by
      refine ⟨rfl, ?_⟩
      rcases hino with ⟨rfl, hx⟩ | ⟨rfl, d, hd, rfl⟩
      · exact .inl ⟨ino, hx, hjob⟩
      · exact .inr (.inl ⟨d, hd, hjob⟩)
    rcases List.mem_cons.mp ha with rfl | ha
    · exact hhandled
    rcases List.mem_cons.mp ha with rfl | ha
    · exact hgo
    rcases List.mem_append.mp ha with ha | ha
    · exact hloads a ha
    · exact hs a ha

theorem fromTree_loadDir (d : Dir) : ∀ a ∈ loadDir env d, FromTree go env t a := by
  intro a ha
  rw [loadDir] at ha
  split_ifs at ha
  · cases ha
  · rw [List.mem_singleton.mp ha]
    trivial

theorem fromTree_push {s : DumpState} {a : MkfsAct} (hs : ∀ a ∈ s.log, FromTree go env t a)
    (ha : FromTree go env t a) : ∀ b ∈ (s.push a).log, FromTree go env t b := by
  intro b hb
  rcases List.mem_cons.mp hb with rfl | hb
  · exact ha
  · exact hs b hb

theorem fromTree_dumpSubdirs {dir : ℕ} {ds : List Dentry} {s : DumpState}
    (hs : ∀ a ∈ s.log, FromTree go env t a) (hfiles : ∀ x ∈ subFiles ds, x ∈ t.files)
    (hdirs : ∀ d ∈ subDirs dir ds, d ∈ t.dirs) :
    (∀ a ∈ (dumpSubdirs go env dir ds s).1.log, FromTree go env t a) ∧
      ∀ d ∈ (dumpSubdirs go env dir ds s).2, d ∈ subDirs dir ds := by
  induction ds generalizing s with
  | nil => exact ⟨hs, by simp [dumpSubdirs]⟩
  | cons d ds ih =>
    cases d with
    | dot | dotdot | valid nid => exact ih hs hfiles hdirs
    | file ino =>
      have hfiles' : ∀ x ∈ subFiles ds, x ∈ t.files :=
        fun x hx => hfiles x (List.mem_cons_of_mem ino hx)
      by_cases hseen : ino ∈ s.visited
      · rw [dumpSubdirs_file_seen hseen]
        exact ih (fromTree_push hs trivial) hfiles' hdirs
      · have hone := @fromTree_handleOne go env t ino false [] (s.mark ino) hs (by simp)
          (.inl ⟨rfl, hfiles ino List.mem_cons_self⟩)
        rw [dumpSubdirs_file_new hseen]
        split_ifs
        · exact ⟨hone, by simp⟩
        · exact ih hone hfiles' hdirs
    | dir ino kids =>
      have hdirs' : ∀ d ∈ subDirs dir ds, d ∈ t.dirs :=
        fun d hd => hdirs d (List.mem_cons_of_mem _ hd)
      by_cases hseen : ino ∈ s.visited
      · rw [dumpSubdirs_dir_seen hseen]
        obtain ⟨hlog, hsub⟩ := ih (fromTree_push (a := .link ino) hs trivial) hfiles hdirs'
        exact ⟨hlog, fun d hd => List.mem_cons_of_mem _ (hsub d hd)⟩
      · have hone := @fromTree_handleOne go env t ino true (loadDir env ⟨ino, dir, kids⟩)
          (s.mark ino) hs (fromTree_loadDir _)
          (.inr ⟨rfl, ⟨ino, dir, kids⟩, hdirs _ List.mem_cons_self, rfl⟩)
        rw [dumpSubdirs_dir_new hseen]
        simp only
        split_ifs
        · exact ⟨hone, by simp⟩
        · obtain ⟨hlog, hsub⟩ := ih (fromTree_push (a := .grab ino) hone trivial) hfiles hdirs'
          refine ⟨hlog, fun d hd => ?_⟩
          rcases List.mem_cons.mp hd with rfl | hd
          · exact List.mem_cons_self
          · exact List.mem_cons_of_mem _ (hsub d hd)

theorem SourceTree.mem_subDirs {d e : Dir} (hd : ∀ c ∈ d.dirs, c ∈ t.dirs)
    (he : e ∈ subDirs d.ino d.subdirs) : ∀ c ∈ e.dirs, c ∈ t.dirs := by
  intro c hc
  refine hd c ?_
  rw [Dir.dirs_eq]
  exact List.mem_cons_of_mem d (List.mem_flatMap.mpr ⟨e, he, hc⟩)

theorem fromTree_dumpLoop {work : List Dir} {s : DumpState}
    (hs : ∀ a ∈ s.log, FromTree go env t a) (hwork : ∀ w ∈ work, ∀ c ∈ w.dirs, c ∈ t.dirs) :
    ∀ a ∈ (dumpLoop go env work s).1.log, FromTree go env t a := by
  fun_induction dumpLoop go env work s with
  | case1 s => exact hs
  | case2 s dir rest r err s' herr =>
    have hdir := hwork dir List.mem_cons_self
    have hdt : dir ∈ t.dirs := hdir dir List.mem_cons_self
    refine fromTree_push (fromTree_dumpSubdirs hs ?_ ?_).1 ⟨rfl, .inr (.inr ⟨dir, hdt, rfl⟩)⟩
    · exact fun x hx => t.mem_files hdt ((mem_filesBelow dir.ino).mpr (.inl hx))
    · exact fun d hd => SourceTree.mem_subDirs hdir hd d List.mem_cons_self
  | case3 s dir rest r err s' herr ih =>
    have hdir := hwork dir List.mem_cons_self
    have hdt : dir ∈ t.dirs := hdir dir List.mem_cons_self
    obtain ⟨hlog, hsub⟩ := @fromTree_dumpSubdirs go env t dir.ino dir.subdirs s hs
      (fun x hx => t.mem_files hdt ((mem_filesBelow dir.ino).mpr (.inl hx)))
      (fun d hd => SourceTree.mem_subDirs hdir hd d List.mem_cons_self)
    refine ih (fromTree_push hlog ⟨rfl, .inr (.inr ⟨dir, hdt, rfl⟩)⟩) ?_
    intro w hw
    rcases List.mem_append.mp hw with hw | hw
    · exact SourceTree.mem_subDirs hdir (hsub w hw)
    · exact hwork w (List.mem_cons_of_mem dir hw)

theorem fromTree_dumpInit : ∀ a ∈ (dumpInit env t.root).log, FromTree go env t a := by
  intro a ha
  rcases List.mem_cons.mp ha with rfl | ha
  · trivial
  · split_ifs at ha
    · obtain ⟨d, -, rfl⟩ := List.mem_map.mp ha
      trivial
    · cases ha

theorem fromTree_dumpTree : ∀ a ∈ (dumpTree go env t.root).1.log, FromTree go env t a := by
  have hroot := @fromTree_handleOne go env t t.root.ino true (loadDir env t.root)
    (dumpInit env t.root) fromTree_dumpInit (fromTree_loadDir _)
    (.inr ⟨rfl, t.root, List.mem_cons_self, rfl⟩)
  rw [dumpTree_eq]
  split_ifs
  · exact hroot
  · refine fromTree_dumpLoop ?_ ?_
    · rw [afterRoot]
      split_ifs
      · exact hroot
      · exact fromTree_push hroot trivial
    · intro w hw c hc
      rw [List.mem_singleton.mp hw] at hc
      exact hc

end Source

structure AllSucceed (env : MkfsEnv) (t : SourceTree) : Prop where
  files : ∀ x ∈ t.files, handleRet env.jobfn env x false = 0
  dirs : ∀ d ∈ t.dirs, handleRet env.jobfn env d.ino true = 0
  writes : ∀ d ∈ t.dirs, env.ret .writeDirFile d.ino = 0

theorem mem_bhDirs {log : List MkfsAct} {d : Dir} :
    d ∈ bhDirs log ↔ ∃ err, .go (.dirBh d) err ∈ log := by
  rw [bhDirs, List.mem_filterMap]
  constructor
  · rintro ⟨a, ha, hd⟩
    split at hd
    · cases hd
      exact ⟨_, ha⟩
    · cases hd
  · rintro ⟨err, h⟩
    exact ⟨_, h, rfl⟩

def handleJobs (env : MkfsEnv) : MkfsJob → ℤ
  | .dirBh _ => 0
  | job => env.jobfn job

/-- The directories that the walk reaches as long as no directory write fails. -/
def reachedDirs (env : MkfsEnv) (t : SourceTree) : List Dir :=
  bhDirs (dumpTree (handleJobs env) env t.root).1.log

section Masked

variable (env : MkfsEnv)

theorem handleJobs_eq {ino : ℕ} {isdir : Bool} {job : MkfsJob}
    (h : env.handleInode ino isdir = .ok job) : handleJobs env job = env.jobfn job := by
  rcases handleInode_job h with ⟨-, fd, ictx, rfl⟩ | ⟨-, rfl⟩ <;> rfl

theorem handleRet_handleJobs (ino : ℕ) (isdir : Bool) :
    handleRet (handleJobs env) env ino isdir = handleRet env.jobfn env ino isdir := by
  rw [handleRet, handleRet]
  cases h : env.handleInode ino isdir with
  | error err => rfl
  | ok job => exact handleJobs_eq env h

theorem handleOne_handleJobs (ino : ℕ) (isdir : Bool) (loads : List MkfsAct) (s : DumpState) :
    handleOne (handleJobs env) env ino isdir loads s =
      handleOne env.jobfn env ino isdir loads s := by
  rw [handleOne, handleOne]
  cases h : env.handleInode ino isdir with
  | error err => rfl
  | ok job => simp only [handleJobs_eq env h]

theorem dumpSubdirs_handleJobs (dir : ℕ) (ds : List Dentry) (s : DumpState) :
    dumpSubdirs (handleJobs env) env dir ds s = dumpSubdirs env.jobfn env dir ds s := by
  induction ds generalizing s with
  | nil => rfl
  | cons d ds ih =>
    cases d with
    | dot | dotdot | valid nid => exact ih s
    | file ino => simp only [dumpSubdirs, handleOne_handleJobs, ih]
    | dir ino kids => simp only [dumpSubdirs, handleOne_handleJobs, ih]

/-- A directory write that fails ends the walk with its error; otherwise it is the walk in which
no write fails. -/
theorem dumpLoop_masked (work : List Dir) (s : DumpState) :
    (dumpLoop env.jobfn env work s = dumpLoop (handleJobs env) env work s ∧
      (dumpLoop env.jobfn env work s).2 = 0 ∧
      ∀ d ∈ bhDirs (dumpLoop env.jobfn env work s).1.log,
        d ∈ bhDirs s.log ∨ env.ret .writeDirFile d.ino = 0) ∨
    ((dumpLoop env.jobfn env work s).2 ≠ 0 ∧
      ∃ d ∈ bhDirs (dumpLoop (handleJobs env) env work s).1.log,
        env.ret .writeDirFile d.ino ≠ 0) := by
  fun_induction dumpLoop env.jobfn env work s with
  | case1 s => exact .inl ⟨by rw [dumpLoop], rfl, fun d hd => .inl hd⟩
  | case2 s dir rest r err s' herr =>
    refine .inr ⟨herr, dir, ?_, herr⟩
    rw [dumpLoop]
    simp only [handleJobs, ne_eq, not_true_eq_false, if_false]
    have hsuf := @suffix_dumpLoop (handleJobs env) env
      ((dumpSubdirs (handleJobs env) env dir.ino dir.subdirs s).2 ++ rest)
      ((dumpSubdirs (handleJobs env) env dir.ino dir.subdirs s).1.push (.go (.dirBh dir) 0))
    exact mem_bhDirs.mpr ⟨0, hsuf.mem List.mem_cons_self⟩
  | case3 s dir rest r err s' herr ih =>
    have hzero : env.ret .writeDirFile dir.ino = 0 := not_not.mp herr
    have hrun : dumpLoop (handleJobs env) env (dir :: rest) s =
        dumpLoop (handleJobs env) env (r.2 ++ rest) s' := by
      rw [dumpLoop]
      simp only [handleJobs, ne_eq, not_true_eq_false, if_false, dumpSubdirs_handleJobs]
      have hs' : s' = r.1.push (.go (.dirBh dir) 0) := by
        have : err = 0 := hzero
        rw [← this]
      rw [hs']
    rw [hrun]
    rcases ih with ⟨heq, hret, hall⟩ | hfail
    · refine .inl ⟨heq, hret, fun d hd => ?_⟩
      rcases hall d hd with hd | hd
      · have hbh : bhDirs s'.log = dir :: bhDirs s.log :=
          congrArg (List.cons dir) (bhDirs_dumpSubdirs dir.ino dir.subdirs s)
        rw [hbh] at hd
        rcases List.mem_cons.mp hd with rfl | hd
        · exact .inr hzero
        · exact .inl hd
      · exact .inr hd
    · exact .inr hfail

end Masked

/-- A handled inode or a job that ran has returned an error. -/
def MkfsRun.Failed (s : MkfsRun) : Prop :=
  (∃ a ∈ s.done, a.err ≠ 0) ∨ ∃ x ∈ s.executed, x.2 ≠ 0

/-- Every run that came to its end with an error somewhere has returned an error. -/
def Reports (reach : MkfsRun → Prop) (step : MkfsRun → MkfsRun → Prop) : Prop :=
  ∀ s, reach s → (∀ s', ¬ step s s') → s.Failed → ∃ e, s.ret = some e ∧ e ≠ 0

/-- Runs come to an end when every step makes something smaller. -/
theorem exists_final {reach : MkfsRun → Prop} {step : MkfsRun → MkfsRun → Prop}
    (hclosed : ∀ s s', reach s → step s s' → reach s') (size : MkfsRun → ℕ)
    (hsize : ∀ s s', step s s' → size s' < size s) {s : MkfsRun} (hs : reach s) :
    ∃ s', reach s' ∧ ∀ s'', ¬ step s' s'' := by
  induction hn : size s using Nat.strong_induction_on generalizing s with
  | _ n ih =>
    by_cases h : ∃ s', step s s'
    · obtain ⟨s', hstep⟩ := h
      exact ih (size s') (hn ▸ hsize s s' hstep) (hclosed s s' hs hstep) rfl
    · exact ⟨s, hs, fun s' hs' => h ⟨s', hs'⟩⟩

section SingleThread

variable {env : MkfsEnv} {t : SourceTree} {p : InodePos} {inlined : InlineTail}
  {metaOff rootNid : ℕ} {s : MkfsRun}

/-- The build without threads does the acts of its walk. -/
theorem StReach.spec (hs : StReach env t p inlined metaOff rootNid s) :
    s.done.reverse ++ s.todo = (stDump env t).1.log.reverse ∧
      (∀ x ∈ s.executed, x.2 = env.jobfn x.1 ∧ ∃ e, .go x.1 e ∈ s.done) ∧
      (s.ret = none ∨ s.ret = some (stDump env t).2) := by
  induction hs with
  | init => exact ⟨rfl, by simp [stInit], .inl rfl⟩
  | step hs hstep ih =>
    obtain ⟨hacts, hexec, hret⟩ := ih
    cases hstep with
    | act htodo hact =>
      refine ⟨?_, fun x hx => ?_, hret⟩
      · rw [← hacts, htodo]
        simp
      · obtain ⟨h1, e, he⟩ := hexec x hx
        exact ⟨h1, e, List.mem_cons_of_mem _ he⟩
    | go htodo =>
      refine ⟨?_, fun x hx => ?_, hret⟩
      · rw [← hacts, htodo]
        simp
      · rcases List.mem_cons.mp hx with rfl | hx
        · exact ⟨rfl, _, List.mem_cons_self⟩
        · obtain ⟨h1, e, he⟩ := hexec x hx
          exact ⟨h1, e, List.mem_cons_of_mem _ he⟩
    | ret htodo hnone => exact ⟨hacts, hexec, .inr rfl⟩

/-- Its end: all acts are done, and the error of the walk is returned. -/
theorem StReach.final (hs : StReach env t p inlined metaOff rootNid s)
    (hfinal : ∀ s', ¬ StStep env p t.root.ino inlined (stDump env t).2 s s') :
    s.ret = some (stDump env t).2 ∧ (s.Failed ↔ ¬ Clean (stDump env t).1.log) := by
  obtain ⟨hacts, hexec, hret⟩ := hs.spec
  have htodo : s.todo = [] := by
    cases htodo : s.todo with
    | nil => rfl
    | cons a rest =>
      exfalso
      cases a with
      | go job e => exact hfinal _ (.go htodo)
      | flush => exact hfinal _ (.act htodo (.inr rfl))
      | load d => exact hfinal _ (.act htodo (.inl trivial))
      | grab x => exact hfinal _ (.act htodo (.inl trivial))
      | link x => exact hfinal _ (.act htodo (.inl trivial))
      | handled x e => exact hfinal _ (.act htodo (.inl trivial))
  have hsome : s.ret = some (stDump env t).2 :=
    hret.resolve_left fun hnone => hfinal _ (.ret htodo hnone)
  have hdone : s.done = (stDump env t).1.log := by
    rw [htodo, List.append_nil] at hacts
    exact List.reverse_injective hacts
  refine ⟨hsome, ?_, fun hdirty => ?_⟩
  · rintro (⟨a, ha, herr⟩ | ⟨x, hx, herr⟩) hclean
    · exact herr (hclean a (hdone ▸ ha))
    · obtain ⟨hret, e, he⟩ := hexec x hx
      have hsrc := fromTree_dumpTree _ (hdone ▸ he)
      refine herr ?_
      rw [hret, ← hsrc.1]
      exact hclean _ (hdone ▸ he)
  · rw [Clean] at hdirty
    push Not at hdirty
    obtain ⟨a, ha, herr⟩ := hdirty
    exact .inl ⟨a, hdone ▸ ha, herr⟩

theorem stReports_iff_clean :
    Reports (StReach env t p inlined metaOff rootNid)
        (StStep env p t.root.ino inlined (stDump env t).2) ↔
      (¬ Clean (stDump env t).1.log → (stDump env t).2 ≠ 0) := by
  constructor
  · intro h hdirty
    obtain ⟨s, hs, hfinal⟩ := @exists_final (StReach env t p inlined metaOff rootNid)
      (StStep env p t.root.ino inlined (stDump env t).2) (fun s s' hs hstep => hs.step hstep)
      (fun s => s.todo.length + if s.ret = none then 1 else 0)
      (by
        intro s s' hstep
        cases hstep with
        | act htodo _ => simp [htodo]
        | go htodo => simp [htodo]
        | ret htodo hret => simp [htodo, hret])
      _ .init
    obtain ⟨hret, hfailed⟩ := hs.final hfinal
    obtain ⟨e, he, hne⟩ := h s hs hfinal (hfailed.mpr hdirty)
    rw [hret, Option.some.injEq] at he
    rwa [he]
  · intro h s hs hfinal hfailed
    obtain ⟨hret, hiff⟩ := hs.final hfinal
    exact ⟨_, hret, h (hiff.mp hfailed)⟩

/-- An error is lost without threads exactly when an inode below the root fails and no directory
that the walk reaches fails to be written. -/
theorem stDump_reports_iff :
    (¬ Clean (stDump env t).1.log → (stDump env t).2 ≠ 0) ↔
      handleRet env.jobfn env t.root.ino true ≠ 0 ∨
      (∃ d ∈ reachedDirs env t, env.ret .writeDirFile d.ino ≠ 0) ∨
      ((∀ x ∈ t.files, handleRet env.jobfn env x false = 0) ∧
        ∀ d ∈ t.dirs, handleRet env.jobfn env d.ino true = 0) := by
  by_cases hroot : handleRet env.jobfn env t.root.ino true = 0
  · have hreach : reachedDirs env t =
        bhDirs (dumpLoop (handleJobs env) env [t.root] (afterRoot env.jobfn env t)).1.log := by
      rw [reachedDirs, dumpTree_eq, if_neg (not_not.mpr ?_), afterRoot, afterRoot,
        handleOne_handleJobs]
      rw [handleRet_handleJobs]
      exact hroot
    have hdump : stDump env t = dumpLoop env.jobfn env [t.root] (afterRoot env.jobfn env t) := by
      rw [stDump, dumpTree_eq, if_neg (not_not.mpr hroot)]
    have hbh0 : bhDirs (afterRoot env.jobfn env t).log = [] := by
      have hperm := (walk_afterRoot hroot).dirs.length_eq
      have hlen : (t.root.dirs).length = t.dirs.length := rfl
      rw [List.length_append, List.flatMap_singleton, hlen] at hperm
      exact List.length_eq_zero_iff.mp (by omega)
    rcases dumpLoop_masked env [t.root] (afterRoot env.jobfn env t) with
      ⟨heq, hret, hall⟩ | ⟨hret, hex⟩
    · rw [← hdump] at heq hret hall
      have hno : ¬ ∃ d ∈ reachedDirs env t, env.ret .writeDirFile d.ino ≠ 0 := by
        rintro ⟨d, hd, hne⟩
        rw [hreach, ← heq] at hd
        rcases hall d hd with hd | hd
        · rw [hbh0] at hd
          cases hd
        · exact hne hd
      constructor
      · intro h
        refine .inr (.inr ?_)
        have hclean : Clean (stDump env t).1.log := by
          by_contra hdirty
          exact h hdirty hret
        obtain ⟨hwalk, -⟩ := dumpTree_covers hclean
        refine ⟨fun x hx => ?_, fun d hd => ?_⟩
        · rcases hwalk.files x hx with hv | ⟨w, hw, -⟩
          · exact (hwalk.handledFiles x hx hv).1
          · cases hw
        · refine (hwalk.handledDirs d hd (hwalk.seen d ?_)).1
          rw [List.append_nil]
          have hin := hwalk.dirs.mem_iff.mpr hd
          simpa using hin
      · rintro (hne | hex | ⟨hfiles, hdirs⟩) hdirty
        · exact absurd hroot hne
        · exact absurd hex hno
        · refine absurd (fun a ha => ?_) hdirty
          have hsrc := fromTree_dumpTree a ha
          cases a with
          | handled x e =>
            rcases hsrc with ⟨hx, he⟩ | ⟨d, hd, rfl, he⟩
            · exact he.trans (hfiles x hx)
            · exact he.trans (hdirs d hd)
          | go job e =>
            obtain ⟨he, hsrc⟩ := hsrc
            refine he.trans ?_
            rcases hsrc with ⟨x, hx, hjob⟩ | ⟨d, hd, hjob⟩ | ⟨d, hd, rfl⟩
            · have := hfiles x hx
              rwa [handleRet, hjob] at this
            · have := hdirs d hd
              rwa [handleRet, hjob] at this
            · rcases hall d (mem_bhDirs.mpr ⟨e, ha⟩) with hin | hin
              · rw [hbh0] at hin
                cases hin
              · exact hin
          | load d => rfl
          | grab x => rfl
          | link x => rfl
          | flush => rfl
    · rw [← hdump] at hret
      rw [← hreach] at hex
      exact ⟨fun _ => .inr (.inl hex), fun _ _ => hret⟩
  · refine ⟨fun _ => .inl hroot, fun _ _ => ?_⟩
    rw [stDump, dumpTree_eq, if_pos hroot]
    rw [(handleOne_spec env.jobfn env t.root.ino true (loadDir env t.root)
      (dumpInit env t.root)).1]
    exact hroot

end SingleThread

def issued (acts : List MkfsAct) : List MkfsJob := acts.filterMap fun a =>
  match a with
  | .go job _ => some job
  | _ => none

theorem issued_append (l l' : List MkfsAct) : issued (l ++ l') = issued l ++ issued l' :=
  List.filterMap_append

theorem mem_issued {acts : List MkfsAct} {job : MkfsJob} :
    job ∈ issued acts ↔ ∃ err, .go job err ∈ acts := by
  rw [issued, List.mem_filterMap]
  constructor
  · rintro ⟨a, ha, hd⟩
    split at hd
    · cases hd
      exact ⟨_, ha⟩
    · cases hd
  · rintro ⟨err, h⟩
    exact ⟨_, h, rfl⟩

section Threads

variable {env : MkfsEnv} {t : SourceTree} {p : InodePos} {inlined : InlineTail}
  {metaOff rootNid : ℕ} {s : MkfsRun}

/-- What holds between the two threads: the acts of the walk are done in order, what was issued
ran or is in the queue, and the worker has left when a job failed or the queue ended. -/
structure MtSpec (env : MkfsEnv) (t : SourceTree) (s : MkfsRun) : Prop where
  acts : s.done.reverse ++ s.todo = (mtDump env t).1.log.reverse ++ [.go .stop 0]
  jobs : issued s.done.reverse = (s.executed.map Prod.fst).reverse ++ s.queue
  rets : ∀ x ∈ s.executed, x.2 = env.jobfn x.1
  running : s.worker = none → ∀ x ∈ s.executed, x.1 ≠ .stop ∧ x.2 = 0
  left : ∀ r, s.worker = some r → ∃ x ∈ s.executed, x.1 = .stop ∨ x.2 ≠ 0
  ret : s.ret = none ∨ s.ret = some (mtDump env t).2

theorem workerAfter_none {job : MkfsJob} (h : workerAfter env job = none) :
    job ≠ .stop ∧ env.jobfn job = 0 := by
  cases job with
  | stop => cases h
  | ndir x fd ictx | dir x | dirBh d =>
    refine ⟨by simp, ?_⟩
    rw [workerAfter] at h
    · split_ifs at h with h0
      exact h0
    · simp

theorem workerAfter_some {job : MkfsJob} {r : ℤ} (h : workerAfter env job = some r) :
    job = .stop ∨ env.jobfn job ≠ 0 := by
  cases job with
  | stop => exact .inl rfl
  | ndir x fd ictx | dir x | dirBh d =>
    refine .inr fun h0 => ?_
    rw [workerAfter, if_pos h0] at h
    · cases h
    · simp

theorem MtReach.spec (hs : MtReach env t p inlined metaOff rootNid s) : MtSpec env t s := by
  induction hs with
  | init => exact ⟨rfl, rfl, by simp [mtInit], by simp [mtInit], by simp [mtInit], .inl rfl⟩
  | step hs hstep ih =>
    cases hstep with
    | act htodo hplain =>
      refine ⟨?_, ?_, ih.rets, ih.running, ih.left, ih.ret⟩
      · rw [← ih.acts, htodo]
        simp
      · have hnil : ∀ a : MkfsAct, a.Plain → issued [a] = [] := by
          intro a ha
          cases a <;> first | rfl | exact ha.elim
        rw [List.reverse_cons, issued_append, hnil _ hplain, List.append_nil]
        exact ih.jobs
    | go htodo hroom =>
      refine ⟨?_, ?_, ih.rets, ih.running, ih.left, ih.ret⟩
      · rw [← ih.acts, htodo]
        simp
      · rw [List.reverse_cons, issued_append, ih.jobs, List.append_assoc]
        rfl
    | flush htodo hqueue hworker =>
      refine ⟨?_, ?_, ih.rets, ih.running, ih.left, ih.ret⟩
      · rw [← ih.acts, htodo]
        simp
      · rw [List.reverse_cons, issued_append]
        exact (List.append_nil _).trans ih.jobs
    | pop hworker hqueue =>
      refine ⟨ih.acts, ?_, ?_, ?_, ?_, ih.ret⟩
      · rw [ih.jobs, hqueue]
        simp
      · intro x hx
        rcases List.mem_cons.mp hx with rfl | hx
        · rfl
        · exact ih.rets x hx
      · intro hafter x hx
        rcases List.mem_cons.mp hx with rfl | hx
        · exact workerAfter_none hafter
        · exact ih.running hworker x hx
      · intro r hafter
        exact ⟨_, List.mem_cons_self, workerAfter_some hafter⟩
    | join htodo hworker hret => exact ⟨ih.acts, ih.jobs, ih.rets, ih.running, ih.left, .inr rfl⟩

theorem MtReach.final_worker (hs : MtReach env t p inlined metaOff rootNid s)
    (hfinal : ∀ s', ¬ MtStep env p t.root.ino inlined (mtDump env t).2 s s') :
    s.worker ≠ none := by
  intro hworker
  have hspec := hs.spec
  have hqueue : s.queue = [] := by
    cases hq : s.queue with
    | nil => rfl
    | cons job q => exact (hfinal _ (.pop hworker hq)).elim
  have htodo : s.todo = [] := by
    cases htodo : s.todo with
    | nil => rfl
    | cons a rest =>
      exfalso
      cases a with
      | go job e =>
        refine hfinal _ (.go htodo ?_)
        rw [hqueue]
        decide
      | flush => exact hfinal _ (.flush htodo hqueue hworker)
      | load d => exact hfinal _ (.act htodo trivial)
      | grab x => exact hfinal _ (.act htodo trivial)
      | link x => exact hfinal _ (.act htodo trivial)
      | handled x e => exact hfinal _ (.act htodo trivial)
  -- all jobs ran, the last one among them
  have hacts := hspec.acts
  rw [htodo, List.append_nil] at hacts
  have hjobs := hspec.jobs
  rw [hqueue, List.append_nil, hacts, issued_append] at hjobs
  have hstop : MkfsJob.stop ∈ (s.executed.map Prod.fst).reverse := by
    rw [← hjobs]
    exact List.mem_append_right _ List.mem_cons_self
  obtain ⟨x, hx, hxs⟩ := List.mem_map.mp (List.mem_reverse.mp hstop)
  exact (hspec.running hworker x hx).1 hxs

variable (env p inlined metaOff rootNid) in
theorem exists_mt_final : ∃ s, MtReach env t p inlined metaOff rootNid s ∧
    ∀ s', ¬ MtStep env p t.root.ino inlined (mtDump env t).2 s s' := by
  refine @exists_final (MtReach env t p inlined metaOff rootNid)
    (MtStep env p t.root.ino inlined (mtDump env t).2) (fun s s' hs hstep => hs.step hstep)
    (fun s => 2 * s.todo.length + s.queue.length + if s.ret = none then 1 else 0) ?_ _ .init
  intro s s' hstep
  cases hstep with
  | act htodo _ =>
    simp only [htodo, List.length_cons]
    omega
  | go htodo _ =>
    simp only [htodo, List.length_cons, List.length_append, List.length_nil]
    omega
  | flush htodo _ _ =>
    simp only [htodo, List.length_cons]
    omega
  | pop _ hqueue =>
    simp only [hqueue, List.length_cons]
    omega
  | join htodo _ hret => simp [hret]

/-- The walk of the threaded build sees only what fails before a job is issued. -/
theorem mtDump_ret (hroot : handleRet (fun _ => 0) env t.root.ino true = 0) :
    (mtDump env t).2 = 0 := by
  have hloop : ∀ work s, (dumpLoop (fun _ => 0) env work s).2 = 0 := by
    intro work s
    fun_induction dumpLoop (fun _ => 0) env work s with
    | case1 s => rfl
    | case2 s dir rest r err s' herr => exact absurd rfl herr
    | case3 s dir rest r err s' herr ih => exact ih
  rw [mtDump, dumpTree_eq, if_neg (not_not.mpr hroot)]
  exact hloop _ _

/-- Nothing in the tree fails: neither the main thread nor the worker meets an error. -/
theorem AllSucceed.not_failed (h : AllSucceed env t)
    (hs : MtReach env t p inlined metaOff rootNid s) : ¬ s.Failed := by
  have hspec := hs.spec
  have hmain : ∀ x isdir, handleRet env.jobfn env x isdir = 0 →
      handleRet (fun _ => 0) env x isdir = 0 := by
    intro x isdir hx
    rw [handleRet] at hx ⊢
    cases hjob : env.handleInode x isdir with
    | error err => rwa [hjob] at hx
    | ok job => rfl
  have hsub : ∀ a ∈ s.done, a ∈ (mtDump env t).1.log ∨ a = .go .stop 0 := by
    intro a ha
    have : a ∈ (mtDump env t).1.log.reverse ++ [.go .stop 0] := by
      rw [← hspec.acts]
      exact List.mem_append_left _ (List.mem_reverse.mpr ha)
    rcases List.mem_append.mp this with h | h
    · exact .inl (List.mem_reverse.mp h)
    · exact .inr (List.mem_singleton.mp h)
  rintro (⟨a, ha, herr⟩ | ⟨x, hx, herr⟩)
  · rcases hsub a ha with ha | rfl
    · have hsrc := fromTree_dumpTree a ha
      refine herr ?_
      cases a with
      | handled x e =>
        rcases hsrc with ⟨hx, he⟩ | ⟨d, hd, rfl, he⟩
        · exact he.trans (hmain x false (h.files x hx))
        · exact he.trans (hmain d.ino true (h.dirs d hd))
      | go job e => exact hsrc.1
      | load d => rfl
      | grab x => rfl
      | link x => rfl
      | flush => rfl
    · exact herr rfl
  · -- a job that ran was issued
    have hin : x.1 ∈ issued s.done.reverse := by
      rw [hspec.jobs]
      exact List.mem_append_left _ (List.mem_reverse.mpr (List.mem_map_of_mem hx))
    obtain ⟨e, he⟩ := mem_issued.mp hin
    refine herr ?_
    rw [hspec.rets x hx]
    rcases hsub _ (List.mem_reverse.mp he) with ha | ha
    · obtain ⟨-, hsrc⟩ := fromTree_dumpTree _ ha
      rcases hsrc with ⟨y, hy, hjob⟩ | ⟨d, hd, hjob⟩ | ⟨d, hd, hjob⟩
      · have := h.files y hy
        rwa [handleRet, hjob] at this
      · have := h.dirs d hd
        rwa [handleRet, hjob] at this
      · rw [hjob]
        exact h.writes d hd
    · rw [MkfsAct.go.injEq] at ha
      rw [ha.1]
      rfl

theorem stop_notMem_dump : MkfsJob.stop ∉ issued (mtDump env t).1.log.reverse := by
  intro h
  obtain ⟨e, he⟩ := mem_issued.mp h
  obtain ⟨-, hsrc⟩ := fromTree_dumpTree _ (List.mem_reverse.mp he)
  rcases hsrc with ⟨y, -, hjob⟩ | ⟨d, -, hjob⟩ | ⟨d, -, hjob⟩
  · rcases handleInode_job hjob with ⟨-, _, _, hjob⟩ | ⟨-, hjob⟩ <;> cases hjob
  · rcases handleInode_job hjob with ⟨-, _, _, hjob⟩ | ⟨-, hjob⟩ <;> cases hjob
  · cases hjob

/-- A run that ended without any error has handled the whole tree without one. -/
theorem MtReach.allSucceed (hs : MtReach env t p inlined metaOff rootNid s)
    (hfinal : ∀ s', ¬ MtStep env p t.root.ino inlined (mtDump env t).2 s s')
    (hok : ¬ s.Failed) : AllSucceed env t := by
  have hspec := hs.spec
  -- the worker has left at the end of the queue
  have hstop : MkfsJob.stop ∈ issued s.done.reverse := by
    cases hw : s.worker with
    | none => exact absurd hw (hs.final_worker hfinal)
    | some r =>
      obtain ⟨x, hx, hxs | hxe⟩ := hspec.left r hw
      · rw [hspec.jobs]
        refine List.mem_append_left _ (List.mem_reverse.mpr ?_)
        exact hxs ▸ List.mem_map_of_mem hx
      · exact absurd (.inr ⟨x, hx, hxe⟩) hok
  have htodo : s.todo = [] := by
    rcases List.eq_nil_or_concat s.todo with hnil | ⟨init, last, hlast⟩
    · exact hnil
    · exfalso
      have hacts := hspec.acts
      rw [hlast, List.concat_eq_append, ← List.append_assoc] at hacts
      obtain ⟨hinit, -⟩ := List.append_inj' hacts rfl
      refine @stop_notMem_dump env t ?_
      rw [← hinit, issued_append]
      exact List.mem_append_left _ hstop
  have hdone : s.done.reverse = (mtDump env t).1.log.reverse ++ [.go .stop 0] := by
    rw [← hspec.acts, htodo, List.append_nil]
  have hclean : Clean (mtDump env t).1.log := by
    intro a ha
    by_contra herr
    refine hok (.inl ⟨a, List.mem_reverse.mp ?_, herr⟩)
    rw [hdone]
    exact List.mem_append_left _ (List.mem_reverse.mpr ha)
  -- the item that stops the worker ran, so everything in front of it ran
  have hran : ∀ job e, .go job e ∈ (mtDump env t).1.log → env.jobfn job = 0 := by
    intro job e he
    have hjobs := hspec.jobs
    rw [hdone, issued_append] at hjobs
    have hqueue : s.queue = [] := by
      rcases List.eq_nil_or_concat s.queue with hnil | ⟨init, last, hlast⟩
      · exact hnil
      · exfalso
        rw [hlast, List.concat_eq_append, ← List.append_assoc] at hjobs
        obtain ⟨hfront, -⟩ := List.append_inj' hjobs rfl
        refine @stop_notMem_dump env t ?_
        rw [hfront]
        refine List.mem_append_left _ ?_
        cases hw : s.worker with
        | none => exact absurd hw (hs.final_worker hfinal)
        | some r =>
          obtain ⟨x, hx, hxs | hxe⟩ := hspec.left r hw
          · exact List.mem_reverse.mpr (hxs ▸ List.mem_map_of_mem hx)
          · exact absurd (.inr ⟨x, hx, hxe⟩) hok
    rw [hqueue, List.append_nil] at hjobs
    have hin : job ∈ (s.executed.map Prod.fst).reverse := by
      rw [← hjobs]
      exact List.mem_append_left _ (mem_issued.mpr ⟨e, List.mem_reverse.mpr he⟩)
    obtain ⟨x, hx, rfl⟩ := List.mem_map.mp (List.mem_reverse.mp hin)
    by_contra herr
    exact hok (.inr ⟨x, hx, by rwa [hspec.rets x hx]⟩)
  obtain ⟨hwalk, -⟩ := dumpTree_covers hclean
  have hret : ∀ x isdir, Handled (fun _ => 0) env (mtDump env t).1.log x isdir →
      handleRet env.jobfn env x isdir = 0 := by
    intro x isdir h
    obtain ⟨hzero, hjob⟩ := h
    rw [handleRet] at hzero ⊢
    cases hx : env.handleInode x isdir with
    | error err => rwa [hx] at hzero
    | ok job => exact hran job 0 (hjob job hx)
  have hbh : ∀ d ∈ t.dirs, d ∈ bhDirs (mtDump env t).1.log := by
    intro d hd
    have hin := hwalk.dirs.mem_iff.mpr hd
    rwa [List.flatMap_nil, List.append_nil] at hin
  refine ⟨fun x hx => ?_, fun d hd => ?_, fun d hd => ?_⟩
  · rcases hwalk.files x hx with hv | ⟨w, hw, -⟩
    · exact hret x false (hwalk.handledFiles x hx hv)
    · cases hw
  · refine hret d.ino true (hwalk.handledDirs d hd (hwalk.seen d ?_))
    rw [List.append_nil]
    exact hbh d hd
  · obtain ⟨e, he⟩ := mem_bhDirs.mp (hbh d hd)
    exact hran _ e he

variable (env t p inlined metaOff rootNid) in
/-- The threaded build reports what fails before the job of the root is issued, and nothing else. -/
theorem mtReports_iff :
    Reports (MtReach env t p inlined metaOff rootNid)
        (MtStep env p t.root.ino inlined (mtDump env t).2) ↔
      handleRet (fun _ => 0) env t.root.ino true ≠ 0 ∨ AllSucceed env t := by
  constructor
  · intro h
    by_cases hroot : handleRet (fun _ => 0) env t.root.ino true = 0
    · obtain ⟨s, hs, hfinal⟩ := exists_mt_final (t := t) env p inlined metaOff rootNid
      refine .inr (hs.allSucceed hfinal fun hfailed => ?_)
      obtain ⟨e, he, hne⟩ := h s hs hfinal hfailed
      rcases hs.spec.ret with hret | hret
      · rw [hret] at he
        cases he
      · rw [hret, Option.some.injEq, mtDump_ret hroot] at he
        exact hne he.symm
    · exact .inl hroot
  · rintro (hroot | hall) s hs hfinal hfailed
    · have hdump : mtDump env t =
          handleOne (fun _ => 0) env t.root.ino true (loadDir env t.root) (dumpInit env t.root) := by
        rw [mtDump, dumpTree_eq, if_pos hroot]
      have hret : (mtDump env t).2 ≠ 0 := by
        rw [hdump, (handleOne_spec _ env t.root.ino true (loadDir env t.root)
          (dumpInit env t.root)).1]
        exact hroot
      -- no job was issued in front of the item that stops the worker
      have hissued : issued (mtDump env t).1.log.reverse = [] := by
        refine List.eq_nil_iff_forall_not_mem.mpr fun job hjob => ?_
        obtain ⟨e, he⟩ := mem_issued.mp hjob
        have he := List.mem_reverse.mp he
        rw [hdump, handleOne] at he
        cases hhandle : env.handleInode t.root.ino true with
        | error err =>
          rw [hhandle] at he
          rcases List.mem_cons.mp he with heq | he
          · cases heq
          · rw [dumpInit] at he
            rcases List.mem_cons.mp he with heq | he
            · cases heq
            · split_ifs at he
              · obtain ⟨d, -, heq⟩ := List.mem_map.mp he
                cases heq
              · cases he
        | ok job =>
          rw [handleRet, hhandle] at hroot
          exact hroot rfl
      have hspec := hs.spec
      have htodo : s.todo = [] := by
        cases htodo : s.todo with
        | nil => rfl
        | cons a rest =>
          exfalso
          cases a with
          | go job e =>
            refine hfinal _ (.go htodo ?_)
            have hacts := congrArg issued hspec.acts
            rw [issued_append, issued_append, hissued, htodo, hspec.jobs] at hacts
            have hlen := congrArg List.length hacts
            simp only [issued, List.filterMap_cons, List.length_append, List.length_cons,
              List.filterMap_nil, List.length_nil] at hlen
            rw [mtQueueRoom]
            omega
          | flush =>
            have hin : MkfsAct.flush ∈ (mtDump env t).1.log.reverse ++ [.go .stop 0] := by
              rw [← hspec.acts, htodo]
              exact List.mem_append_right _ List.mem_cons_self
            rcases List.mem_append.mp hin with hin | hin
            · have hin := List.mem_reverse.mp hin
              rw [hdump, handleOne] at hin
              cases hhandle : env.handleInode t.root.ino true with
              | error err =>
                rw [hhandle] at hin
                simp [DumpState.push, dumpInit] at hin
              | ok job =>
                rw [handleRet, hhandle] at hroot
                exact hroot rfl
            · cases List.mem_singleton.mp hin
          | load d => exact hfinal _ (.act htodo trivial)
          | grab x => exact hfinal _ (.act htodo trivial)
          | link x => exact hfinal _ (.act htodo trivial)
          | handled x e => exact hfinal _ (.act htodo trivial)
      rcases hspec.ret with hnone | hsome
      · cases hw : s.worker with
        | none => exact absurd hw (hs.final_worker hfinal)
        | some r => exact absurd (.join htodo hw hnone) (hfinal _)
      · exact ⟨_, hsome, hret⟩
    · exact absurd hfailed (hall.not_failed hs)

end Threads

section Build

variable (env : MkfsEnv) (t : SourceTree) (p : InodePos) (inlined : InlineTail)
  (metaOff rootNid : ℕ)

/-- A build loses no error: whenever something fails, both builds return an error. -/
def NoLostErrors : Prop :=
  Reports (MtReach env t p inlined metaOff rootNid)
      (MtStep env p t.root.ino inlined (mtDump env t).2) ∧
    Reports (StReach env t p inlined metaOff rootNid)
      (StStep env p t.root.ino inlined (stDump env t).2)

theorem noLostErrors_iff :
    NoLostErrors env t p inlined metaOff rootNid ↔
      handleRet (fun _ => 0) env t.root.ino true ≠ 0 ∨ AllSucceed env t := by
  rw [NoLostErrors, mtReports_iff, stReports_iff_clean, stDump_reports_iff]
  constructor
  · exact fun h => h.1
  · refine fun h => ⟨h, ?_⟩
    rcases h with hroot | hall
    · refine .inl fun hzero => hroot ?_
      rw [handleRet] at hzero ⊢
      cases hjob : env.handleInode t.root.ino true with
      | error err => rwa [hjob] at hzero
      | ok job => rfl
    · exact .inr (.inr ⟨hall.files, hall.dirs⟩)

def oneFileTree : SourceTree where
  root := ⟨0, 0, [.dot, .dotdot, .file 1]⟩
  parent := rfl
  nodup := by decide
  disjoint := by decide

def cannotOpen : MkfsEnv where
  rebuild := false
  incremental := false
  forceCompact := false
  inode _ := ⟨false, true, false, 1, false, .localpath, false, false⟩
  ret op _ := if op = .openFile then -13 else 0

def posZero : InodePos where
  sb := ⟨12, BlockSize.bits4k_low, BlockSize.bits4k_high⟩
  pos _ := 0
  aligned _ := dvd_zero _
  lt _ := by decide

theorem noLostErrors_cannotOpen :
    ¬ NoLostErrors cannotOpen oneFileTree posZero (fun _ => false) 0 0 := by
  rw [NoLostErrors, mtReports_iff]
  rintro ⟨hroot | hall, -⟩
  · exact hroot (by decide)
  · exact absurd (hall.files 1 (by decide)) (by decide)

end Build

end ErofsUtils
