import ErofsUtils.MkfsDfops
import ErofsUtils.RingLog

/-!
# Every schedule of the dump worker

The invariants of the queue: the slots hold what was queued from the item on that the worker is at,
so that the slot in its hands is not used again; no wake-up is lost; and `q->idle` is set only
while everything that was queued has been handled.
-/

namespace ErofsUtils

namespace Dfops

variable {J : Type*} {q : Dfops J} {bits lo hi : ℕ}

theorem succ_and (hentries : q.entries = 2 ^ bits) (k : ℕ) :
    (k % 2 ^ bits + 1) &&& (q.entries - 1) = (k + 1) % 2 ^ bits := by
  rw [hentries, Nat.and_two_pow_sub_one_eq_mod, Nat.mod_add_mod]

theorem isEmpty_iff (hhead : q.head = lo % 2 ^ bits) (htail : q.tail = hi % 2 ^ bits)
    (hle : lo ≤ hi) (hlt : hi < lo + 2 ^ bits) : q.IsEmpty ↔ lo = hi := by
  rw [IsEmpty, hhead, htail]
  exact RingLog.mod_eq_iff hle hlt

theorem isFull_iff (hentries : q.entries = 2 ^ bits) (hhead : q.head = lo % 2 ^ bits)
    (htail : q.tail = hi % 2 ^ bits) (hle : lo ≤ hi) (hlt : hi < lo + 2 ^ bits) :
    q.IsFull ↔ hi + 1 = lo + 2 ^ bits := by
  rw [IsFull, htail, succ_and hentries, hhead]
  exact RingLog.succ_mod_eq_iff hle hlt

end Dfops

namespace DfState

variable {J : Type*} (s : DfState J)

def hand : ℕ :=
  match s.worker with
  | .run _ => 1
  | _ => 0

structure Ring (bits : ℕ) : Prop where
  entries : s.q.entries = 2 ^ bits
  taken : s.taken = s.ran.length + s.hand
  head : s.q.head = s.taken % 2 ^ bits
  tail : s.q.tail = s.queued.length % 2 ^ bits
  le : s.taken ≤ s.queued.length
  lt : s.queued.length < s.taken + 2 ^ bits
  log : RingLog s.q.queue (2 ^ bits) s.queued s.ran.length
  slot : ∀ slot, s.worker = .run slot → slot = s.ran.length % 2 ^ bits
  order : s.ran.map Prod.fst = s.queued.take s.ran.length

structure Locks : Prop where
  worker : s.owner = some .worker ↔ s.worker = .locked
  producer : s.owner = some .producer ↔ s.producer.Holds

/-- What a sleeping thread waits for has not happened yet. -/
structure Sleeps (bits : ℕ) : Prop where
  asleep : s.worker = .asleep → s.q.idle = true
  idle : s.q.idle = true → s.taken = s.queued.length ∧
    (s.worker = .asleep ∨ s.worker = .woken ∨ s.worker = .locked)
  goAsleep : ∀ item, s.producer = .goAsleep item → s.queued.length + 1 = s.taken + 2 ^ bits
  flushAsleep : s.producer = .flushAsleep → s.q.idle = false

structure Ends (stop : J → Prop) : Prop where
  running : s.worker ≠ .exited → ∀ r ∈ s.ran, ¬ stop r.1 ∧ r.2 = 0
  exited : s.worker = .exited → ∃ l r, s.ran = l ++ [r] ∧ (stop r.1 ∨ r.2 ≠ 0) ∧
    ∀ r ∈ l, ¬ stop r.1 ∧ r.2 = 0
  goes : s.producer ≠ .joining → s.producer ≠ .joined → ∀ item ∈ s.queued, ¬ stop item
  closed : s.producer = .joining ∨ s.producer = .joined →
    ∃ l item, s.queued = l ++ [item] ∧ stop item ∧ ∀ i ∈ l, ¬ stop i
  joined : s.producer = .joined → s.worker = .exited

section Step

variable {s} {s' : DfState J} {stop : J → Prop} [DecidablePred stop] {allow : DfState J → Prop}
  {bits : ℕ}

theorem Ring.frame (h : s.Ring bits) (hqueue : s'.q.queue = s.q.queue)
    (hentries : s'.q.entries = s.q.entries) (hhead : s'.q.head = s.q.head)
    (htail : s'.q.tail = s.q.tail) (hqueued : s'.queued = s.queued) (htaken : s'.taken = s.taken)
    (hran : s'.ran = s.ran) (hhand : s'.hand = s.hand)
    (hslot : ∀ slot, s'.worker = .run slot → s.worker = .run slot) : s'.Ring bits := by
  constructor
  · rw [hentries, h.entries]
  · rw [htaken, hran, hhand, h.taken]
  · rw [hhead, htaken, h.head]
  · rw [htail, hqueued, h.tail]
  · rw [htaken, hqueued]
    exact h.le
  · rw [htaken, hqueued]
    exact h.lt
  · rw [hqueue, hqueued, hran]
    exact h.log
  · intro slot hw
    rw [hran]
    exact h.slot slot (hslot slot hw)
  · rw [hran, hqueued]
    exact h.order

theorem hand_of_off (hw : ∀ slot, s.worker ≠ .run slot) : s.hand = 0 := by
  cases hpc : s.worker with
  | run slot => exact absurd hpc (hw slot)
  | lock | locked | asleep | woken | exited => rw [hand, hpc]

theorem Ring.off (h : s.Ring bits) {pc : DfWorker} {owner : Option DfThread}
    {producer : DfProducer J} {idle : Bool} (hw : ∀ slot, s.worker ≠ .run slot)
    (hw' : ∀ slot, pc ≠ .run slot) :
    Ring { s with
      q := { s.q with idle := idle }, worker := pc, owner := owner, producer := producer } bits :=
  h.frame rfl rfl rfl rfl rfl rfl rfl ((hand_of_off hw').trans (hand_of_off hw).symm)
    fun slot hrun => absurd hrun (hw' slot)

theorem Ring.item (h : s.Ring bits) {slot : ℕ} (hw : s.worker = .run slot) :
    s.queued[s.ran.length]? = some (s.q.queue slot) := by
  have hhand : s.hand = 1 := by rw [hand, hw]
  have htaken := h.taken
  have hle := h.le
  have hlt : s.ran.length < s.queued.length := by omega
  have hget := List.getElem?_eq_getElem hlt
  rw [hget, h.slot slot hw, h.log.get hget]

theorem Ring.pop (h : s.Ring bits) (hw : s.worker = .locked) (hitem : ¬ s.q.IsEmpty) :
    Ring { s with
      q := s.q.popJobitem, producer := s.producer.signalFull, worker := .run s.q.head,
      owner := none, taken := s.taken + 1 } bits := by
  have hhand : s.hand = 0 := by rw [hand, hw]
  have htaken := h.taken
  have hne : s.taken ≠ s.queued.length := fun heq =>
    hitem ((Dfops.isEmpty_iff h.head h.tail h.le h.lt).mpr heq)
  have hle := h.le
  have hlt := h.lt
  refine ⟨h.entries, ?_, ?_, h.tail, ?_, ?_, h.log, ?_, h.order⟩
  · change s.taken + 1 = s.ran.length + 1
    omega
  · change (s.q.head + 1) &&& (s.q.entries - 1) = (s.taken + 1) % 2 ^ bits
    rw [h.head, Dfops.succ_and h.entries]
  · change s.taken + 1 ≤ s.queued.length
    omega
  · change s.queued.length < s.taken + 1 + 2 ^ bits
    omega
  · intro slot hrun
    cases hrun
    change s.q.head = s.ran.length % 2 ^ bits
    rw [h.head, htaken, hhand, Nat.add_zero]

theorem Ring.ran (h : s.Ring bits) {slot : ℕ} {ret : ℤ} (hw : s.worker = .run slot)
    {pc : DfWorker} (hpc : pc = .exited ∨ pc = .lock) :
    Ring { s with worker := pc, ran := s.ran ++ [(s.q.queue slot, ret)] } bits := by
  have hhand : s.hand = 1 := by rw [hand, hw]
  have htaken := h.taken
  have hle := h.le
  have hitem := h.item hw
  have hnohand : hand { s with worker := pc, ran := s.ran ++ [(s.q.queue slot, ret)] } = 0 := by
    rcases hpc with rfl | rfl <;> rfl
  have hlen : (s.ran ++ [(s.q.queue slot, ret)]).length = s.ran.length + 1 := by
    rw [List.length_append, List.length_singleton]
  refine ⟨h.entries, ?_, h.head, h.tail, h.le, h.lt, ?_, ?_, ?_⟩
  · rw [hnohand]
    change s.taken = (s.ran ++ [(s.q.queue slot, ret)]).length + 0
    omega
  · change RingLog s.q.queue _ s.queued (s.ran ++ [(s.q.queue slot, ret)]).length
    rw [hlen]
    exact h.log.pop (by omega)
  · intro slot' hrun
    change pc = .run slot' at hrun
    rcases hpc with rfl | rfl <;> cases hrun
  · change (s.ran ++ [(s.q.queue slot, ret)]).map Prod.fst =
      s.queued.take (s.ran ++ [(s.q.queue slot, ret)]).length
    rw [hlen, List.map_append, h.order, List.take_add_one, hitem]
    rfl

theorem Ring.insert (h : s.Ring bits) (hroom : ¬ s.q.IsFull) (item : J) {pc : DfProducer J} :
    Ring { s with
      q := s.q.go item, producer := pc, worker := s.worker.signalEmpty, owner := none,
      queued := s.queued ++ [item] } bits := by
  have hne : s.queued.length + 1 ≠ s.taken + 2 ^ bits := fun heq =>
    hroom ((Dfops.isFull_iff h.entries h.head h.tail h.le h.lt).mpr heq)
  have htaken := h.taken
  have hle := h.le
  have hlt := h.lt
  have hhand : hand { s with
      q := s.q.go item, producer := pc, worker := s.worker.signalEmpty, owner := none,
      queued := s.queued ++ [item] } = s.hand := by
    unfold hand DfWorker.signalEmpty
    cases s.worker <;> rfl
  have hone : s.hand ≤ 1 := by
    unfold hand
    split <;> omega
  have hlen : (s.queued ++ [item]).length = s.queued.length + 1 := by
    rw [List.length_append, List.length_singleton]
  refine ⟨h.entries, ?_, h.head, ?_, ?_, ?_, ?_, ?_, ?_⟩
  · rw [hhand]
    exact htaken
  · change (s.q.tail + 1) &&& (s.q.entries - 1) = (s.queued ++ [item]).length % 2 ^ bits
    rw [h.tail, Dfops.succ_and h.entries, hlen]
  · change s.taken ≤ (s.queued ++ [item]).length
    omega
  · change (s.queued ++ [item]).length < s.taken + 2 ^ bits
    omega
  · change RingLog (Function.update s.q.queue s.q.tail item) _ _ _
    rw [h.tail]
    exact h.log.push (by omega) item
  · intro slot hrun
    refine h.slot slot ?_
    revert hrun
    change s.worker.signalEmpty = .run slot → _
    cases s.worker <;> intro hrun <;> first | exact hrun | cases hrun
  · change s.ran.map Prod.fst = (s.queued ++ [item]).take s.ran.length
    rw [h.order, List.take_append_of_le_length (by omega)]

theorem Ring.step (h : s.Ring bits) (hstep : DfStep stop s s') : s'.Ring bits := by
  cases hstep with
  | lock hpc _ => exact h.off (by simp [hpc]) (by simp)
  | wait hpc _ => exact h.off (by simp [hpc]) (by simp)
  | relock hpc _ => exact h.off (by simp [hpc]) (by simp)
  | pop hpc hitem => exact h.pop hpc hitem
  | ran hpc _ => exact h.ran hpc (by split <;> simp)
  | insert _ hroom => exact h.insert hroom _
  | go | goLock | goWait | goRelock | flush | flushLock | flushIdle | flushWait | flushRelock
  | flushUnlock | resume | join => exact h.frame rfl rfl rfl rfl rfl rfl rfl rfl fun _ hw => hw

theorem Ring.spurious (h : s.Ring bits) (hwake : DfSpurious allow s s') : s'.Ring bits := by
  cases hwake with
  | worker hpc => exact h.off (by simp [hpc]) (by simp)
  | go | flush => exact h.frame rfl rfl rfl rfl rfl rfl rfl rfl fun _ hw => hw

theorem holds_signalFull (pc : DfProducer J) : pc.signalFull.Holds ↔ pc.Holds := by
  cases pc <;> exact Iff.rfl

theorem holds_signalDrain (pc : DfProducer J) : pc.signalDrain.Holds ↔ pc.Holds := by
  cases pc <;> exact Iff.rfl

theorem signalEmpty_eq_locked (pc : DfWorker) : pc.signalEmpty = .locked ↔ pc = .locked := by
  cases pc <;> simp [DfWorker.signalEmpty]

theorem Locks.take (h : s.Locks) (hfree : s.owner = none) :
    s.worker ≠ .locked ∧ ¬ s.producer.Holds := by
  have hworker := h.worker
  have hproducer := h.producer
  rw [hfree] at hworker hproducer
  constructor
  · intro hw
    cases hworker.mpr hw
  · intro hp
    cases hproducer.mpr hp

theorem Locks.step (h : s.Locks) (hstep : DfStep stop s s') : s'.Locks := by
  have hworker := h.worker
  have hproducer := h.producer
  cases hstep with
  | lock hpc hfree | relock hpc hfree =>
    exact ⟨by simp, by simp [(h.take hfree).2]⟩
  | wait hpc | pop hpc =>
    rw [hworker.mpr hpc] at hproducer
    exact ⟨by simp, by simp [holds_signalDrain, holds_signalFull, ← hproducer]⟩
  | @ran slot ret hpc =>
    rw [hpc] at hworker
    refine ⟨?_, hproducer⟩
    split <;> simpa using hworker
  | goLock hpc hfree | goRelock hpc hfree | flushLock hpc hfree | flushRelock hpc hfree =>
    exact ⟨by simp [(h.take hfree).1], by simp [DfProducer.Holds]⟩
  | goWait hpc | flushIdle hpc | flushWait hpc | flushUnlock hpc =>
    rw [hpc] at hproducer
    rw [hproducer.mpr trivial] at hworker
    exact ⟨by simpa using hworker, by simp [DfProducer.Holds]⟩
  | @insert item hpc =>
    rw [hpc] at hproducer
    rw [hproducer.mpr trivial] at hworker
    constructor
    · simpa [signalEmpty_eq_locked] using hworker
    · split <;> simp [DfProducer.Holds]
  | go _ hpc | flush hpc | resume hpc | join hpc =>
    rw [hpc] at hproducer
    exact ⟨hworker, hproducer⟩

theorem Locks.spurious (h : s.Locks) (hwake : DfSpurious allow s s') : s'.Locks := by
  have hworker := h.worker
  have hproducer := h.producer
  cases hwake with
  | worker hpc =>
    rw [hpc] at hworker
    exact ⟨by simpa using hworker, hproducer⟩
  | go hpc | flush hpc =>
    rw [hpc] at hproducer
    exact ⟨hworker, hproducer⟩

/-- A step after which the worker, the ring and the flag are as before. -/
theorem Sleeps.frame (h : s.Sleeps bits) {pc : DfProducer J} {owner : Option DfThread}
    (hgo : ∀ item, pc ≠ .goAsleep item) (hflush : pc ≠ .flushAsleep) :
    Sleeps { s with producer := pc, owner := owner } bits :=
  ⟨h.asleep, h.idle, fun item hpc => absurd hpc (hgo item), fun hpc => absurd hpc hflush⟩

theorem Sleeps.step (h : s.Sleeps bits) (hring : s.Ring bits) (hstep : DfStep stop s s') :
    s'.Sleeps bits := by
  cases hstep with
  | lock hpc | relock hpc =>
    refine ⟨by simp, fun hidle => ⟨(h.idle hidle).1, by simp⟩, h.goAsleep, h.flushAsleep⟩
  | wait hpc hempty =>
    have htaken := (Dfops.isEmpty_iff hring.head hring.tail hring.le hring.lt).mp hempty
    refine ⟨fun _ => rfl, fun _ => ⟨htaken, Or.inl rfl⟩, ?_, ?_⟩
    · intro item hgo
      apply h.goAsleep item
      cases hp : s.producer <;> rw [hp] at hgo <;> cases hgo
      rfl
    · intro hflush
      cases hp : s.producer <;> rw [hp] at hflush <;> cases hflush
  | pop hpc hitem =>
    have hne : s.taken ≠ s.queued.length := fun heq =>
      hitem ((Dfops.isEmpty_iff hring.head hring.tail hring.le hring.lt).mpr heq)
    refine ⟨by simp, fun hidle => absurd (h.idle hidle).1 hne, ?_, ?_⟩
    · intro item hgo
      cases hp : s.producer <;> rw [hp] at hgo <;> cases hgo
    · intro hflush
      apply h.flushAsleep
      cases hp : s.producer <;> rw [hp] at hflush <;> cases hflush
  | @ran slot ret hpc =>
    refine ⟨?_, ?_, h.goAsleep, h.flushAsleep⟩
    · intro hw
      split at hw <;> cases hw
    · intro hidle
      rcases (h.idle hidle).2 with hw | hw | hw <;> rw [hpc] at hw <;> cases hw
  | goWait hpc hfull =>
    have hlen := (Dfops.isFull_iff hring.entries hring.head hring.tail hring.le hring.lt).mp hfull
    exact ⟨h.asleep, h.idle, fun _ _ => hlen, by simp⟩
  | @insert item hpc =>
    refine ⟨?_, by simp [Dfops.go], ?_, ?_⟩
    · intro hw
      cases hp : s.worker <;> rw [hp] at hw <;> cases hw
    · intro item' hgo
      split at hgo <;> cases hgo
    · intro hflush
      split at hflush <;> cases hflush
  | flushWait hpc hidle => exact ⟨h.asleep, h.idle, by simp, fun _ => hidle⟩
  | go | goLock | goRelock | flush | flushLock | flushIdle | flushRelock | flushUnlock | resume
  | join => exact h.frame (by simp) (by simp)

theorem Sleeps.spurious (h : s.Sleeps bits) (hwake : DfSpurious allow s s') : s'.Sleeps bits := by
  cases hwake with
  | worker hpc =>
    exact ⟨by simp, fun hidle => ⟨(h.idle hidle).1, by simp⟩, h.goAsleep, h.flushAsleep⟩
  | go | flush => exact h.frame (by simp) (by simp)

omit [DecidablePred stop] in
/-- A step that leaves the lists alone, with a worker that does not end and a main thread that
does not start to wait for that. -/
theorem Ends.frame (h : s.Ends stop) {q : Dfops J} {owner : Option DfThread}
    {pc : DfProducer J} {w : DfWorker} {taken : ℕ} (hw : w = .exited ↔ s.worker = .exited)
    (hjoining : pc = .joining ↔ s.producer = .joining)
    (hjoined : pc = .joined ↔ s.producer = .joined) :
    Ends ⟨q, owner, pc, w, s.queued, taken, s.ran⟩ stop := by
  constructor
  · intro hne
    exact h.running fun heq => hne (hw.mpr heq)
  · intro heq
    exact h.exited (hw.mp heq)
  · intro hne hne'
    exact h.goes (fun heq => hne (hjoining.mpr heq)) fun heq => hne' (hjoined.mpr heq)
  · intro hpc
    exact h.closed (hpc.imp hjoining.mp hjoined.mp)
  · intro heq
    exact hw.mpr (h.joined (hjoined.mp heq))

theorem Ends.ran (h : s.Ends stop) {slot : ℕ} {ret : ℤ} (hpc : s.worker = .run slot) :
    Ends { s with
      worker := if stop (s.q.queue slot) ∨ ret ≠ 0 then .exited else .lock
      ran := s.ran ++ [(s.q.queue slot, ret)] } stop := by
  have hrunning := h.running (by simp [hpc])
  constructor
  · intro hne r hr
    have hlast : ¬ (stop (s.q.queue slot) ∨ ret ≠ 0) := fun hlast => hne (if_pos hlast)
    rcases List.mem_append.mp hr with hr | hr
    · exact hrunning r hr
    · rw [List.mem_singleton.mp hr]
      simpa using hlast
  · intro heq
    refine ⟨s.ran, (s.q.queue slot, ret), rfl, ?_, hrunning⟩
    by_contra hlast
    change (if stop (s.q.queue slot) ∨ ret ≠ 0 then DfWorker.exited else .lock) = _ at heq
    rw [if_neg hlast] at heq
    cases heq
  · exact h.goes
  · exact h.closed
  · intro hjoined
    have hexited := h.joined hjoined
    rw [hpc] at hexited
    cases hexited

theorem Ends.insert (h : s.Ends stop) {item : J} {q : Dfops J} {owner : Option DfThread}
    {w : DfWorker} (hpc : s.producer = .goLocked item) (hw : w = .exited ↔ s.worker = .exited) :
    Ends ⟨q, owner, if stop item then .joining else .idle, w, s.queued ++ [item], s.taken, s.ran⟩
      stop := by
  have hgoes := h.goes (by simp [hpc]) (by simp [hpc])
  constructor
  · intro hne
    exact h.running fun heq => hne (hw.mpr heq)
  · intro heq
    exact h.exited (hw.mp heq)
  · intro hne _ i hi
    have hitem : ¬ stop item := fun hstop => hne (if_pos hstop)
    rcases List.mem_append.mp hi with hi | hi
    · exact hgoes i hi
    · rw [List.mem_singleton.mp hi]
      exact hitem
  · intro hend
    by_cases hstop : stop item
    · exact ⟨s.queued, item, rfl, hstop, hgoes⟩
    · rw [if_neg hstop] at hend
      rcases hend with hend | hend <;> cases hend
  · intro hjoined
    by_cases hstop : stop item
    · rw [if_pos hstop] at hjoined
      cases hjoined
    · rw [if_neg hstop] at hjoined
      cases hjoined

theorem Ends.step (h : s.Ends stop) (hstep : DfStep stop s s') : s'.Ends stop := by
  cases hstep with
  | lock hpc | wait hpc | relock hpc | pop hpc =>
    refine h.frame (by simp [hpc]) ?_ ?_ <;> cases s.producer <;>
      simp [DfProducer.signalDrain, DfProducer.signalFull]
  | ran hpc => exact h.ran hpc
  | insert hpc =>
    refine h.insert hpc ?_
    cases s.worker <;> simp [DfWorker.signalEmpty]
  | go _ hpc | goLock hpc | goWait hpc | goRelock hpc | flush hpc | flushLock hpc | flushIdle hpc
  | flushWait hpc | flushRelock hpc | flushUnlock hpc | resume hpc =>
    exact h.frame Iff.rfl (by simp [hpc]) (by simp [hpc])
  | join hpc hexit =>
    exact ⟨h.running, h.exited, fun _ hne => absurd rfl hne, fun _ => h.closed (Or.inl hpc),
      fun _ => hexit⟩

omit [DecidablePred stop] in
theorem Ends.spurious (h : s.Ends stop) (hwake : DfSpurious allow s s') : s'.Ends stop := by
  cases hwake with
  | worker hpc => exact h.frame (by simp [hpc]) Iff.rfl Iff.rfl
  | go hpc | flush hpc => exact h.frame Iff.rfl (by simp [hpc]) (by simp [hpc])

end Step

structure Inv (stop : J → Prop) (bits : ℕ) : Prop where
  ring : s.Ring (bits + 1)
  locks : s.Locks
  sleeps : s.Sleeps (bits + 1)
  ends : s.Ends stop

section Reach

variable {s} {stop : J → Prop} [DecidablePred stop] {allow : DfState J → Prop} {bits : ℕ}

omit [DecidablePred stop] in
theorem inv_init (memory : ℕ → J) : (DfState.init bits memory).Inv stop bits := by
  have hpos : 0 < 2 ^ (bits + 1) := Nat.two_pow_pos _
  refine ⟨?_, ?_, ?_, ?_⟩
  · exact ⟨rfl, rfl, (Nat.zero_mod _).symm, (Nat.zero_mod _).symm, le_rfl,
      hpos.trans_eq (Nat.zero_add _).symm, RingLog.empty _ _, by simp [DfState.init], rfl⟩
  · exact ⟨by simp [DfState.init], by simp [DfState.init, DfProducer.Holds]⟩
  · exact ⟨by simp [DfState.init], by simp [DfState.init], by simp [DfState.init],
      by simp [DfState.init]⟩
  · exact ⟨by simp [DfState.init], by simp [DfState.init], by simp [DfState.init],
      by simp [DfState.init], by simp [DfState.init]⟩

theorem reach_inv (hs : DfReach stop allow bits s) : s.Inv stop bits := by
  induction hs with
  | init memory => exact inv_init memory
  | step _ hstep ih =>
    exact ⟨ih.ring.step hstep, ih.locks.step hstep, ih.sleeps.step ih.ring hstep,
      ih.ends.step hstep⟩
  | spurious _ hwake ih =>
    exact ⟨ih.ring.spurious hwake, ih.locks.spurious hwake, ih.sleeps.spurious hwake,
      ih.ends.spurious hwake⟩

theorem Locks.progress (h : s.Locks) {t : DfThread} (hown : s.owner = some t) :
    ∃ s', DfStep stop s s' := by
  cases t with
  | worker =>
    have hpc := h.worker.mp hown
    by_cases hempty : s.q.IsEmpty
    · exact ⟨_, .wait hpc hempty⟩
    · exact ⟨_, .pop hpc hempty⟩
  | producer =>
    have hholds := h.producer.mp hown
    cases hpc : s.producer with
    | goLocked item =>
      by_cases hfull : s.q.IsFull
      · exact ⟨_, .goWait hpc hfull⟩
      · exact ⟨_, .insert hpc hfull⟩
    | flushLocked =>
      cases hidle : s.q.idle with
      | true => exact ⟨_, .flushIdle hpc hidle⟩
      | false => exact ⟨_, .flushWait hpc hidle⟩
    | flushRelocked => exact ⟨_, .flushUnlock hpc⟩
    | idle | goLock | goAsleep | goWoken | flushLock | flushAsleep | flushWoken | flushed | joining
    | joined =>
      rw [hpc] at hholds
      cases hholds

/-- While the mutex is free the worker can go on, unless it sleeps or has ended. -/
theorem Locks.worker_progress (h : s.Locks) (hfree : s.owner = none)
    (hasleep : s.worker ≠ .asleep) (hexited : s.worker ≠ .exited) : ∃ s', DfStep stop s s' := by
  cases hpc : s.worker with
  | lock => exact ⟨_, .lock hpc hfree⟩
  | locked => exact absurd hpc (h.take hfree).1
  | asleep => exact absurd hpc hasleep
  | woken => exact ⟨_, .relock hpc hfree⟩
  | run slot => exact ⟨_, @DfStep.ran _ _ _ _ _ 0 hpc fun _ => rfl⟩
  | exited => exact absurd hpc hexited

omit [DecidablePred stop] in
/-- Without errors a worker that has ended is done with everything. -/
theorem Inv.exited (h : s.Inv stop bits) (hexited : s.worker = .exited)
    (hret : ∀ r ∈ s.ran, r.2 = 0) :
    (s.producer = .joining ∨ s.producer = .joined) ∧ s.ran.map Prod.fst = s.queued := by
  obtain ⟨l, r, hran, hlast, -⟩ := h.ends.exited hexited
  have hmem : r ∈ s.ran := by simp [hran]
  have hstop : stop r.1 := hlast.resolve_right (not_not.mpr (hret r hmem))
  have horder := h.ring.order
  have hr : r.1 ∈ s.queued.take s.ran.length := by
    rw [← horder]
    exact List.mem_map_of_mem hmem
  have hend : s.producer = .joining ∨ s.producer = .joined := by
    by_contra hnot
    rw [not_or] at hnot
    exact h.ends.goes hnot.1 hnot.2 r.1 (List.mem_of_mem_take hr) hstop
  refine ⟨hend, ?_⟩
  -- the item that stops the worker is the last one that was queued
  obtain ⟨l', item, hqueued, -, hothers⟩ := h.ends.closed hend
  have hlen : s.queued.length ≤ s.ran.length := by
    by_contra hlt
    rw [hqueued, List.length_append, List.length_singleton, not_le, Nat.lt_succ_iff] at hlt
    rw [hqueued, List.take_append_of_le_length hlt] at hr
    exact hothers r.1 (List.mem_of_mem_take hr) hstop
  rw [horder, List.take_of_length_le hlen]

/-- Without errors the threads come to an end only behind `pthread_join`. -/
theorem Inv.progress (h : s.Inv stop bits) (hret : ∀ r ∈ s.ran, r.2 = 0)
    (hend : ∀ s', ¬ DfStep stop s s') : s.producer = .joined := by
  cases hown : s.owner with
  | some t =>
    obtain ⟨s', hstep⟩ := @Locks.progress _ _ stop _ h.locks _ hown
    exact absurd hstep (hend s')
  | none =>
    have hworker : s.worker = .asleep ∨ s.worker = .exited := by
      by_contra hnot
      rw [not_or] at hnot
      obtain ⟨s', hstep⟩ := @Locks.worker_progress _ _ stop _ h.locks hown hnot.1 hnot.2
      exact hend s' hstep
    have hjoin : s.worker = .exited → s.producer = .joining ∨ s.producer = .joined := fun hexit =>
      (h.exited hexit hret).1
    cases hpc : s.producer with
    | idle => exact absurd (.flush hpc) (hend _)
    | goLock item => exact absurd (.goLock hpc hown) (hend _)
    | goLocked item => exact absurd (by rw [hpc]; trivial) (h.locks.take hown).2
    | goAsleep item =>
      -- the ring is full, and a worker that sleeps has found it empty
      have hfull := h.sleeps.goAsleep item hpc
      rcases hworker with hasleep | hexit
      · have htaken := (h.sleeps.idle (h.sleeps.asleep hasleep)).1
        have hpow : 2 ^ (bits + 1) = 2 ^ bits * 2 := Nat.pow_succ _ _
        omega
      · rcases hjoin hexit with hj | hj <;> rw [hpc] at hj <;> cases hj
    | goWoken item => exact absurd (.goRelock hpc hown) (hend _)
    | flushLock => exact absurd (.flushLock hpc hown) (hend _)
    | flushLocked => exact absurd (by rw [hpc]; trivial) (h.locks.take hown).2
    | flushAsleep =>
      have hidle := h.sleeps.flushAsleep hpc
      rcases hworker with hasleep | hexit
      · rw [h.sleeps.asleep hasleep] at hidle
        cases hidle
      · rcases hjoin hexit with hj | hj <;> rw [hpc] at hj <;> cases hj
    | flushWoken => exact absurd (.flushRelock hpc hown) (hend _)
    | flushRelocked => exact absurd (by rw [hpc]; trivial) (h.locks.take hown).2
    | flushed => exact absurd (.resume hpc) (hend _)
    | joining =>
      rcases hworker with hasleep | hexit
      · -- the item that stops the worker has been taken
        obtain ⟨l, item, hqueued, hstop, -⟩ := h.ends.closed (Or.inl hpc)
        have htaken := (h.sleeps.idle (h.sleeps.asleep hasleep)).1
        have hran := h.ring.taken
        rw [hand_of_off (by simp [hasleep]), Nat.add_zero] at hran
        have horder := h.ring.order
        rw [List.take_of_length_le (by omega), hqueued] at horder
        have hitem : item ∈ s.ran.map Prod.fst := by simp [horder]
        obtain ⟨r, hr, rfl⟩ := List.mem_map.mp hitem
        exact absurd hstop (h.ends.running (by simp [hasleep]) r hr).1
      · exact absurd (.join hpc hexit) (hend _)
    | joined => rfl

/-- The queue does what it is for: items are handled in the order in which they were queued, the
slot of the worker keeps its item, the first error ends the worker, and without errors the threads
cannot come to an end before everything is handled. -/
structure Correct (stop : J → Prop) [DecidablePred stop] (s : DfState J) : Prop where
  order : s.ran.map Prod.fst <+: s.queued
  slot : ∀ slot, s.worker = .run slot → s.queued[s.ran.length]? = some (s.q.queue slot)
  failed : ∀ r ∈ s.ran.dropLast, r.2 = 0
  ends : (∀ s', ¬ DfStep stop s s') → (∀ r ∈ s.ran, r.2 = 0) → s.producer = .joined
  joined : s.producer = .joined → (∀ r ∈ s.ran, r.2 = 0) → s.ran.map Prod.fst = s.queued

/-- Under every schedule of the two threads. -/
theorem jobRing_correct (hs : DfReach stop allow bits s) : s.Correct stop := by
  have hinv := reach_inv hs
  refine ⟨?_, fun slot => hinv.ring.item, ?_, fun hend hret => hinv.progress hret hend,
    fun hjoined hret => (hinv.exited (hinv.ends.joined hjoined) hret).2⟩
  · rw [hinv.ring.order]
    exact List.take_prefix _ _
  · intro r hr
    by_cases hexited : s.worker = .exited
    · obtain ⟨l, last, hran, -, hgood⟩ := hinv.ends.exited hexited
      rw [hran, List.dropLast_concat] at hr
      exact (hgood r hr).2
    · exact (hinv.ends.running hexited r ((List.dropLast_prefix s.ran).subset hr)).2

end Reach

section Instances

def isStop (item : ℕ) : Prop := item = 0

instance : DecidablePred isStop := fun item => inferInstanceAs (Decidable (item = 0))

theorem reach_failed : ∃ s : DfState ℕ, DfReach isStop (fun _ => True) 6 s ∧
    s.producer = .joined ∧ s.queued = [7, 9, 0] ∧ s.ran = [(7, -5)] := by
  have h0 : DfReach isStop (fun _ => True) 6 _ := .init fun _ => 0
  have h1 := h0.step (.go 7 rfl)
  have h2 := h1.step (.goLock rfl rfl)
  have h3 := h2.step (.insert rfl (by decide))
  have h4 := h3.step (.lock rfl rfl)
  have h5 := h4.step (.pop rfl (by decide))
  have h6 := h5.step (@DfStep.ran _ _ _ _ 0 (-5) rfl (by decide))
  have h7 := h6.step (.go 9 rfl)
  have h8 := h7.step (.goLock rfl rfl)
  have h9 := h8.step (.insert rfl (by decide))
  have h10 := h9.step (.go 0 rfl)
  have h11 := h10.step (.goLock rfl rfl)
  have h12 := h11.step (.insert rfl (by decide))
  have h13 := h12.step (.join rfl rfl)
  exact ⟨_, h13, rfl, rfl, rfl⟩

/-- The jobs behind one that fails are never executed. -/
theorem jobRing_failed : ¬ ∀ s : DfState ℕ, DfReach isStop (fun _ => True) 6 s →
    s.producer = .joined → s.ran.map Prod.fst = s.queued := by
  intro h
  obtain ⟨s, hs, hjoined, hqueued, hran⟩ := reach_failed
  have hall := h s hs hjoined
  rw [hqueued, hran] at hall
  cases hall

/-- The worker is at the first of two jobs. -/
theorem jobRing_correct_two : ∃ s : DfState ℕ, s.worker = .run 0 ∧ s.queued = [7, 9] ∧
    s.Correct isStop := by
  have h0 : DfReach isStop (fun _ => True) 6 _ := .init fun _ => 0
  have h1 := h0.step (.go 7 rfl)
  have h2 := h1.step (.goLock rfl rfl)
  have h3 := h2.step (.insert rfl (by decide))
  have h4 := h3.step (.lock rfl rfl)
  have h5 := h4.step (.pop rfl (by decide))
  have h6 := h5.step (.go 9 rfl)
  have h7 := h6.step (.goLock rfl rfl)
  have h8 := h7.step (.insert rfl (by decide))
  exact ⟨_, rfl, rfl, jobRing_correct h8⟩

end Instances

end DfState

end ErofsUtils
