import ErofsUtils.DfopsSound
import ErofsUtils.MkfsThreads

/-!
# The barrier in front of the root

`erofs_mkfs_dump_tree` calls `erofs_mkfs_flushjobs` before `erofs_fixup_meta_blkaddr` reads the
buffer of the root, which the worker allocates. The call returns with everything done as long as
its single wait is not left without a signal while something is still to be done.
-/

namespace ErofsUtils

namespace DfProducer

variable {J : Type*}

/-- The main thread has left the wait of `erofs_mkfs_flushjobs`, or has returned from it. -/
def Passed : DfProducer J → Prop
  | flushWoken | flushRelocked | flushed => True
  | _ => False

theorem passed_signalFull (pc : DfProducer J) : pc.signalFull.Passed ↔ pc.Passed := by
  cases pc <;> exact Iff.rfl

theorem passed_signalDrain {pc : DfProducer J} (h : pc.signalDrain.Passed) :
    pc.Passed ∨ pc = flushAsleep := by
  cases pc with
  | flushAsleep => exact Or.inr rfl
  | flushWoken | flushRelocked | flushed => exact Or.inl trivial
  | idle | goLock | goLocked | goAsleep | goWoken | flushLock | flushLocked | joining | joined =>
    exact absurd h id

end DfProducer

namespace DfState

variable {J : Type*} {s s' : DfState J} {stop : J → Prop} {bits : ℕ}

/-- Behind the wait of a flush nothing is left to be done. -/
def Flushed (s : DfState J) : Prop := s.producer.Passed → s.AllRan

/-- A worker that has found the ring empty is done with everything. -/
theorem Inv.allRan (h : s.Inv stop bits) (htaken : s.taken = s.queued.length)
    (hw : s.worker = .asleep ∨ s.worker = .woken ∨ s.worker = .locked) : s.AllRan := by
  have hoff : ∀ slot, s.worker ≠ .run slot := by
    intro slot hrun
    rcases hw with hw | hw | hw <;> rw [hw] at hrun <;> cases hrun
  have hexited : s.worker ≠ .exited := by
    intro hexit
    rcases hw with hw | hw | hw <;> rw [hw] at hexit <;> cases hexit
  have hran := h.ring.taken
  rw [hand_of_off hoff, Nat.add_zero] at hran
  exact ⟨hran.symm.trans htaken, fun r hr => (h.ends.running hexited r hr).2⟩

variable [DecidablePred stop]

theorem Flushed.step (h : s.Flushed) (hinv : s.Inv stop bits) (hstep : DfStep stop s s') :
    s'.Flushed := by
  cases hstep with
  | lock | relock => exact h
  | wait hpc hempty =>
    intro hpassed
    rcases DfProducer.passed_signalDrain hpassed with hpassed | -
    · exact h hpassed
    · have htaken := (Dfops.isEmpty_iff hinv.ring.head hinv.ring.tail hinv.ring.le
        hinv.ring.lt).mp hempty
      exact hinv.allRan htaken (Or.inr (Or.inr hpc))
  | pop =>
    intro hpassed
    exact h ((DfProducer.passed_signalFull s.producer).mp hpassed)
  | ran hpc =>
    intro hpassed
    obtain ⟨hlt, -⟩ := List.getElem?_eq_some_iff.mp (hinv.ring.item hpc)
    have hlen := (h hpassed).1
    omega
  | @insert item =>
    intro hpassed
    change (if stop item then DfProducer.joining else .idle).Passed at hpassed
    split at hpassed <;> exact absurd hpassed id
  | flushIdle _ hidle =>
    intro _
    obtain ⟨htaken, hw⟩ := hinv.sleeps.idle hidle
    exact hinv.allRan htaken hw
  | flushRelock hpc | flushUnlock hpc =>
    intro _
    apply h
    rw [hpc]
    trivial
  | go | goLock | goWait | goRelock | flush | flushLock | flushWait | resume | join =>
    exact fun hpassed => absurd hpassed id

theorem Flushed.spurious (h : s.Flushed) (hwake : DfSpurious AllRan s s') : s'.Flushed := by
  cases hwake with
  | worker => exact h
  | go => exact fun hpassed => absurd hpassed id
  | flush _ hallow => exact fun _ => hallow

theorem reach_flushed (hs : DfReach stop AllRan bits s) : s.Flushed := by
  induction hs with
  | init => exact fun hpassed => absurd hpassed id
  | step hs hstep ih => exact ih.step (reach_inv hs) hstep
  | spurious _ hwake ih => exact ih.spurious hwake

end DfState

section Root

variable {env : MkfsEnv} {p : InodePos} {root x : ℕ} {inlined : InlineTail} {t : InodeTable}

/-- The item of type `~0`. -/
def MkfsJob.IsStop : MkfsJob → Prop
  | .stop => True
  | .ndir _ _ _ | .dir _ | .dirBh _ => False

instance : DecidablePred MkfsJob.IsStop
  | .stop => .isTrue trivial
  | .ndir _ _ _ | .dir _ | .dirBh _ => .isFalse id

def ranJob (env : MkfsEnv) (p : InodePos) (root : ℕ) (inlined : InlineTail) (t : InodeTable)
    (r : MkfsJob × ℤ) : InodeTable :=
  if r.2 = 0 then runJob env p root inlined t r.1 else t

theorem assignNid_bh : (t.assignNid p x).bh = t.bh := by
  unfold InodeTable.assignNid
  split
  · rfl
  · split <;> rfl

theorem writeTailEnd_bh : (writeTailEnd inlined t x).bh = t.bh := by
  unfold writeTailEnd
  split <;> rfl

theorem foldl_dInvalidate_bh (refs : List ℕ) (t : InodeTable) :
    (refs.foldl (fun t x => t.dInvalidate p root x) t).bh = t.bh := by
  induction refs generalizing t with
  | nil => rfl
  | cons y refs ih =>
    rw [List.foldl_cons, ih]
    exact assignNid_bh

theorem prepareInodeBuffer_bh (hx : t.bh x ≠ none) (y : ℕ) :
    (t.prepareInodeBuffer y).bh x ≠ none := by
  change Function.update t.bh y (some t.nextBh) x ≠ none
  by_cases hxy : x = y
  · subst hxy
    rw [Function.update_self]
    exact Option.some_ne_none _
  · rw [Function.update_of_ne hxy]
    exact hx

theorem ranJob_bh (hx : t.bh x ≠ none) (r : MkfsJob × ℤ) :
    (ranJob env p root inlined t r).bh x ≠ none := by
  unfold ranJob
  split
  · cases r.1 with
    | ndir y fd ictx =>
      change (if env.ret .prepareInodeBuffer y = 0
        then writeTailEnd inlined (t.prepareInodeBuffer y) y else t).bh x ≠ none
      split
      · rw [writeTailEnd_bh]
        exact prepareInodeBuffer_bh hx y
      · exact hx
    | dir y => exact prepareInodeBuffer_bh hx y
    | dirBh d =>
      change (writeTailEnd inlined (d.refs.foldl _ t) d.ino).bh x ≠ none
      rw [writeTailEnd_bh, foldl_dInvalidate_bh]
      exact hx
    | stop => exact hx
  · exact hx

theorem foldl_ranJob_bh (hx : t.bh x ≠ none) (l : List (MkfsJob × ℤ)) :
    (l.foldl (ranJob env p root inlined) t).bh x ≠ none := by
  induction l generalizing t with
  | nil => exact hx
  | cons r l ih => exact ih (ranJob_bh hx r)

theorem foldl_ranJob_dir {l : List (MkfsJob × ℤ)} (hx : (.dir x, 0) ∈ l) :
    (l.foldl (ranJob env p root inlined) t).bh x ≠ none := by
  induction l generalizing t with
  | nil => cases hx
  | cons r l ih =>
    rcases List.mem_cons.mp hx with rfl | hx
    · refine foldl_ranJob_bh ?_ l
      change Function.update t.bh x (some t.nextBh) x ≠ none
      rw [Function.update_self]
      exact Option.some_ne_none _
    · exact ih hx

end Root

section Barrier

variable {s : DfState MkfsJob} {bits : ℕ}

/-- Under every schedule in which no spurious wake-up ends the wait of a flush while a job is left:
when `erofs_mkfs_flushjobs` returns, every job has been executed without an error, and a directory
whose job was among them has its buffer. -/
theorem flushjobs_barrier (hs : DfReach MkfsJob.IsStop DfState.AllRan bits s)
    (hret : s.producer = .flushed) :
    s.ran.map Prod.fst = s.queued ∧ (∀ r ∈ s.ran, r.2 = 0) ∧
      ∀ env p inlined t root, .dir root ∈ s.queued →
        (s.ran.foldl (ranJob env p root inlined) t).bh root ≠ none := by
  obtain ⟨hlen, hzero⟩ := DfState.reach_flushed hs (by rw [hret]; trivial)
  have horder := (DfState.reach_inv hs).ring.order
  rw [hlen, List.take_length] at horder
  refine ⟨horder, hzero, fun env p inlined t root hroot => ?_⟩
  rw [← horder] at hroot
  obtain ⟨⟨job, ret⟩, hr, rfl⟩ := List.mem_map.mp hroot
  obtain rfl : ret = 0 := hzero _ hr
  exact foldl_ranJob_dir hr

/-- The jobs of the root and of a file are queued while the worker sleeps and while it runs, and the
last one is executed while the main thread waits. -/
theorem flushjobs_barrier_rootAndFile : ∃ s : DfState MkfsJob, s.producer = .flushed ∧
    s.queued = [.dir 1, .ndir 2 3 true] ∧ s.ran.map Prod.fst = s.queued ∧ (∀ r ∈ s.ran, r.2 = 0) ∧
      ∀ env p inlined t root, .dir root ∈ s.queued →
        (s.ran.foldl (ranJob env p root inlined) t).bh root ≠ none := by
  have h0 : DfReach MkfsJob.IsStop DfState.AllRan 6 _ := .init fun _ => .stop
  have h1 := h0.step (.lock rfl rfl)
  have h2 := h1.step (.wait rfl (by decide))
  have h3 := h2.step (.go (.dir 1) rfl)
  have h4 := h3.step (.goLock rfl rfl)
  have h5 := h4.step (.insert rfl (by decide))
  have h6 := h5.step (.relock rfl rfl)
  have h7 := h6.step (.pop rfl (by decide))
  have h8 := h7.step (.go (.ndir 2 3 true) rfl)
  have h9 := h8.step (.goLock rfl rfl)
  have h10 := h9.step (.insert rfl (by decide))
  have h11 := h10.step (@DfStep.ran _ _ _ _ 0 0 rfl fun _ => rfl)
  have h12 := h11.step (.flush rfl)
  have h13 := h12.step (.flushLock rfl rfl)
  have h14 := h13.step (.flushWait rfl rfl)
  have h15 := h14.step (.lock rfl rfl)
  have h16 := h15.step (.pop rfl (by decide))
  have h17 := h16.step (@DfStep.ran _ _ _ _ 1 0 rfl fun _ => rfl)
  have h18 := h17.step (.lock rfl rfl)
  have h19 := h18.step (.wait rfl (by decide))
  have h20 := h19.step (.flushRelock rfl rfl)
  have h21 := h20.step (.flushUnlock rfl)
  exact ⟨_, rfl, rfl, flushjobs_barrier h21 rfl⟩

/-- The wait ends without a signal, and the call returns before the job of the root has run. -/
theorem flushjobs_early : ¬ ∀ s : DfState MkfsJob,
    DfReach MkfsJob.IsStop (fun _ => True) 6 s → s.producer = .flushed →
      s.ran.map Prod.fst = s.queued := by
  intro h
  have h0 : DfReach MkfsJob.IsStop (fun _ => True) 6 _ := .init fun _ => .stop
  have h1 := h0.step (.go (.dir 1) rfl)
  have h2 := h1.step (.goLock rfl rfl)
  have h3 := h2.step (.insert rfl (by decide))
  have h4 := h3.step (.flush rfl)
  have h5 := h4.step (.flushLock rfl rfl)
  have h6 := h5.step (.flushWait rfl rfl)
  have h7 := h6.spurious (.flush rfl trivial)
  have h8 := h7.step (.flushRelock rfl rfl)
  have h9 := h8.step (.flushUnlock rfl)
  have hall := h _ h9 rfl
  cases hall

end Barrier

end ErofsUtils
