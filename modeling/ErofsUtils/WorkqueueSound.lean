import Mathlib.Data.List.TakeDrop
import ErofsUtils.Workqueue

/-!
# Every schedule of the work queue

The invariants of the work queue: the list in memory is the list of the pending jobs, a worker that
holds a job holds the one it took last, nobody sleeps behind the shutdown, and sleeping workers
leave no job behind that nobody else looks for.
-/

namespace ErofsUtils

inductive Linked (next : ℕ → Option ℕ) : Option ℕ → List ℕ → Prop
  | nil : Linked next none []
  | cons {work : ℕ} {l : List ℕ} (h : Linked next (next work) l) :
    Linked next (some work) (work :: l)

section Linked

variable {next : ℕ → Option ℕ} {head : Option ℕ} {l : List ℕ} {work : ℕ}

/-- The store `wq->tail->next = work`. -/
theorem Linked.append (h : Linked next head l) (hnodup : l.Nodup) (hwork : work ∉ l)
    {last : ℕ} (hlast : l.getLast? = some last) :
    Linked (Function.update (Function.update next work none) last (some work)) head
      (l ++ [work]) := by
  induction h with
  | nil => cases hlast
  | @cons w l h ih =>
    obtain ⟨hw, hnodup⟩ := List.nodup_cons.mp hnodup
    have hwork' : work ∉ l := fun hin => hwork (List.mem_cons_of_mem w hin)
    have hne : w ≠ work := fun heq => hwork (heq ▸ List.mem_cons_self)
    refine .cons ?_
    cases l with
    | nil =>
      obtain rfl : w = last := by simpa using hlast
      rw [Function.update_self]
      refine .cons ?_
      rw [Function.update_of_ne hne.symm, Function.update_self]
      exact .nil
    | cons w' l =>
      rw [List.getLast?_cons_cons] at hlast
      have hlw : w ≠ last := fun heq => hw (heq ▸ List.mem_of_getLast? hlast)
      rw [Function.update_of_ne hlw, Function.update_of_ne hne]
      exact ih hnodup hwork' hlast

end Linked

namespace WqState

variable {n : ℕ} (s : WqState n)

/-- The list in memory: the pending jobs from head to tail, which `job_count` counts. -/
structure Queue (maxJobs : ℕ) : Prop where
  linked : Linked s.wq.next s.wq.head s.pending
  tail : s.pending ≠ [] → s.wq.tail = s.pending.getLast?
  count : s.wq.jobCount = s.pending.length
  bounded : s.wq.jobCount ≤ maxJobs
  order : s.queued = s.taken.map Prod.snd ++ s.pending
  nodup : s.pending.Nodup
  max : s.wq.maxJobs = maxJobs

def running (i : Fin n) : List (Fin n × ℕ) :=
  match s.worker i with
  | .run work => [(i, work)]
  | _ => []

/-- Every worker runs the jobs it takes, one after another. -/
def Once : Prop := ∀ i, s.taken.filter (·.1 = i) = s.ran.filter (·.1 = i) ++ s.running i

/-- The producer is in `erofs_queue_work` with this work. -/
def Queueing (work : ℕ) : Prop :=
  s.producer = .queueLock work ∨ s.producer = .queueLocked work ∨
    s.producer = .queueAsleep work ∨ s.producer = .queueWoken work

/-- The thread is between `pthread_mutex_lock` and the next call that gives the mutex back. -/
def Inside : WqThread n → Prop
  | .worker i => s.worker i = .locked
  | .producer => (∃ work, s.producer = .queueLocked work) ∨ s.producer = .destroyLocked

def Locks : Prop := ∀ t, s.Inside t ↔ s.owner = some t

def Fresh : Prop := ∀ work, s.Queueing work → work ∉ s.pending

/-- The shutdown: workers leave when nothing is pending, and nobody sleeps any more. -/
structure Down : Prop where
  flag : s.wq.shutdown = true ↔ (∃ k, s.producer = .joining k) ∨ s.producer = .returned
  exited : ∀ i, s.worker i = .exited → s.wq.shutdown = true ∧ s.wq.jobCount = 0
  awake : s.wq.shutdown = true → ∀ i, s.worker i ≠ .asleep
  joining : ∀ k, s.producer = .joining k → k ≤ n ∧ ∀ i : Fin n, i < k → s.worker i = .exited
  returned : s.producer = .returned → ∀ i, s.worker i = .exited

/-- The workers on their way to the loop condition. -/
def ready : Finset (Fin n) :=
  Finset.univ.filter fun i => s.worker i = .lock ∨ s.worker i = .locked ∨ s.worker i = .woken

structure Signals : Prop where
  full : ∀ work, s.producer = .queueAsleep work → s.wq.jobCount = s.wq.maxJobs
  empty : s.sleepers.Nonempty → s.wq.jobCount ≤ s.ready.card

section Queue

variable {s} {s' : WqState n} {maxJobs work : ℕ} {wq : Workqueue}

theorem Queue.frame (h : s.Queue maxJobs) (hwq : s'.wq = s.wq) (hqueued : s'.queued = s.queued)
    (htaken : s'.taken = s.taken) : s'.Queue maxJobs := by
  have hpending : s'.pending = s.pending := by rw [pending, hqueued, htaken, pending]
  constructor
  · rw [hwq, hpending]
    exact h.linked
  · rw [hwq, hpending]
    exact h.tail
  · rw [hwq, hpending]
    exact h.count
  · rw [hwq]
    exact h.bounded
  · rw [hqueued, htaken, hpending]
    exact h.order
  · rw [hpending]
    exact h.nodup
  · rw [hwq]
    exact h.max

theorem Queue.pop_spec (h : s.Queue maxJobs) (hpop : s.wq.pop = some (work, wq)) :
    ∃ l, s.pending = work :: l ∧ Linked wq.next wq.head l ∧ (l ≠ [] → wq.tail = l.getLast?) ∧
      wq.jobCount + 1 = s.wq.jobCount ∧ wq.maxJobs = s.wq.maxJobs ∧
      wq.shutdown = s.wq.shutdown := by
  obtain ⟨w, hw, heq⟩ := Option.map_eq_some_iff.mp hpop
  obtain ⟨rfl, rfl⟩ := Prod.mk.inj heq
  have hlinked := h.linked
  have htail := h.tail
  have hcount := h.count
  rw [hw] at hlinked
  cases hl : s.pending with
  | nil =>
    rw [hl] at hlinked
    cases hlinked
  | cons w' l =>
    rw [hl] at hlinked htail hcount
    cases hlinked with
    | cons hnext =>
      refine ⟨l, rfl, hnext, fun hne => ?_, ?_, rfl, rfl⟩
      · have hsome : s.wq.next w ≠ none := by
          intro hnone
          rw [hnone] at hnext
          cases hnext
          exact hne rfl
        obtain ⟨x, l', rfl⟩ := List.exists_cons_of_ne_nil hne
        simp only [if_neg hsome]
        rw [htail (List.cons_ne_nil _ _), List.getLast?_cons_cons]
      · simp only [List.length_cons] at hcount
        simp only
        omega

theorem Queue.pop_ne_none (h : s.Queue maxJobs) (hjob : s.wq.jobCount ≠ 0) : s.wq.pop ≠ none := by
  intro hpop
  have hlinked := h.linked
  have hcount := h.count
  rw [Option.map_eq_none_iff.mp hpop] at hlinked
  cases hl : s.pending with
  | nil =>
    rw [hl] at hcount
    exact hjob hcount
  | cons w l =>
    rw [hl] at hlinked
    cases hlinked

theorem Queue.push_spec (h : s.Queue maxJobs) (hwork : work ∉ s.pending)
    (hpush : s.wq.push work = some wq) :
    Linked wq.next wq.head (s.pending ++ [work]) ∧ wq.tail = some work ∧
      wq.jobCount = s.wq.jobCount + 1 ∧ wq.maxJobs = s.wq.maxJobs ∧
      wq.shutdown = s.wq.shutdown := by
  have hlinked := h.linked
  rw [Workqueue.push] at hpush
  cases hhead : s.wq.head with
  | none =>
    rw [hhead] at hpush hlinked
    cases hpush
    cases hl : s.pending with
    | nil =>
      refine ⟨.cons ?_, rfl, rfl, rfl, rfl⟩
      simp only [Function.update_self]
      exact .nil
    | cons w l =>
      rw [hl] at hlinked
      cases hlinked
  | some w =>
    rw [hhead] at hpush
    obtain ⟨last, hlast, rfl⟩ := Option.map_eq_some_iff.mp hpush
    have hne : s.pending ≠ [] := by
      intro hnil
      rw [hhead, hnil] at hlinked
      cases hlinked
    have htail := h.tail hne
    rw [hlast] at htail
    refine ⟨?_, rfl, rfl, rfl, rfl⟩
    have happ := hlinked.append h.nodup hwork htail.symm
    rwa [hhead] at happ

theorem Queue.push_ne_none (h : s.Queue maxJobs) (work : ℕ) : s.wq.push work ≠ none := by
  have hlinked := h.linked
  rw [Workqueue.push]
  cases hhead : s.wq.head with
  | none => simp
  | some w =>
    have hne : s.pending ≠ [] := by
      intro hnil
      rw [hhead, hnil] at hlinked
      cases hlinked
    rw [h.tail hne, List.getLast?_eq_getLast_of_ne_nil hne]
    simp

theorem Queue.take (h : s.Queue maxJobs) {i : Fin n} (hpop : s.wq.pop = some (work, wq)) :
    s.pending = work :: (s.take i work wq).pending ∧ (s.take i work wq).Queue maxJobs := by
  obtain ⟨l, hl, hlinked, htail, hcount, hmax, -⟩ := h.pop_spec hpop
  have hpending : (s.take i work wq).pending = l := by
    change s.queued.drop (s.taken ++ [(i, work)]).length = l
    rw [List.length_append, ← List.drop_drop, ← pending, hl]
    rfl
  have hpcount := h.count
  have hnodup := h.nodup
  have horder := h.order
  have hbounded := h.bounded
  rw [hl] at hpcount hnodup horder
  rw [List.length_cons] at hpcount
  refine ⟨by rw [hpending, hl], ?_, ?_, ?_, ?_, ?_, ?_, ?_⟩
  · rw [hpending]
    exact hlinked
  · rw [hpending]
    exact htail
  · rw [hpending]
    change wq.jobCount = l.length
    omega
  · change wq.jobCount ≤ maxJobs
    omega
  · change s.queued = (s.taken ++ [(i, work)]).map Prod.snd ++ _
    rw [hpending, horder]
    simp
  · rw [hpending]
    exact (List.nodup_cons.mp hnodup).2
  · exact hmax.trans h.max

theorem Queue.insert (h : s.Queue maxJobs) (hwork : work ∉ s.pending)
    (hroom : s.wq.jobCount ≠ s.wq.maxJobs) (hpush : s.wq.push work = some wq)
    (hwq : s'.wq = wq) (hqueued : s'.queued = s.queued ++ [work]) (htaken : s'.taken = s.taken) :
    s'.pending = s.pending ++ [work] ∧ s'.Queue maxJobs := by
  obtain ⟨hlinked, htail, hcount, hmax, -⟩ := h.push_spec hwork hpush
  have hlen : s.taken.length ≤ s.queued.length := by
    rw [h.order, List.length_append, List.length_map]
    exact Nat.le_add_right _ _
  have hpending : s'.pending = s.pending ++ [work] := by
    rw [pending, hqueued, htaken, List.drop_append_of_le_length hlen, pending]
  have hbounded := h.bounded
  have hpcount := h.count
  have hpmax := h.max
  refine ⟨hpending, ?_, ?_, ?_, ?_, ?_, ?_, ?_⟩
  · rw [hwq, hpending]
    exact hlinked
  · intro _
    rw [hwq, hpending, htail, List.getLast?_concat]
  · rw [hwq, hpending, List.length_append, List.length_singleton]
    omega
  · rw [hwq]
    omega
  · rw [hqueued, htaken, hpending, h.order, List.append_assoc]
  · rw [hpending]
    exact h.nodup.append (List.nodup_singleton work) (by simpa using hwork)
  · rw [hwq, hmax, hpmax]

end Queue

section Threads

variable {s} {s' : WqState n} {i : Fin n} {pc : WorkerPc} {woken : Finset (Fin n)}

theorem update_iff {P : WorkerPc → Prop} (h : P pc ↔ P (s.worker i)) (j : Fin n) :
    P (Function.update s.worker i pc j) ↔ P (s.worker j) := by
  by_cases hj : j = i
  · rw [hj, Function.update_self]
    exact h
  · rw [Function.update_of_ne hj]

theorem wake_iff {P : WorkerPc → Prop} (h : P .woken ↔ P .asleep) (hwoken : woken ⊆ s.sleepers)
    (j : Fin n) : P ((s.wake woken).worker j) ↔ P (s.worker j) := by
  change P (if j ∈ woken then .woken else s.worker j) ↔ _
  split_ifs with hj
  · rw [(Finset.mem_filter.mp (hwoken hj)).2]
    exact h
  · rfl

theorem Once.frame (h : s.Once) (htaken : s'.taken = s.taken) (hran : s'.ran = s.ran)
    (hrun : ∀ j work, s'.worker j = .run work ↔ s.worker j = .run work) : s'.Once := by
  intro j
  have hrunning : s'.running j = s.running j := by
    rw [running, running]
    cases hpc : s.worker j with
    | run work => rw [(hrun j work).mpr hpc]
    | _ =>
      cases hpc' : s'.worker j with
      | run work =>
        rw [(hrun j work).mp hpc'] at hpc
        cases hpc
      | _ => rfl
  rw [htaken, hran, hrunning]
  exact h j

theorem Once.step (h : s.Once) (hstep : WqStep s s') : s'.Once := by
  cases hstep with
  | lock hpc _ =>
    exact h.frame rfl rfl fun j work => update_iff (P := (· = .run work)) (by simp [hpc]) j
  | relock hpc _ =>
    exact h.frame rfl rfl fun j work => update_iff (P := (· = .run work)) (by simp [hpc]) j
  | wait hpc _ _ =>
    exact h.frame rfl rfl fun j work => update_iff (P := (· = .run work)) (by simp [hpc]) j
  | leave hpc _ _ =>
    exact h.frame rfl rfl fun j work => update_iff (P := (· = .run work)) (by simp [hpc]) j
  | @take i work wq hpc _ _ =>
    intro j
    have hj := h j
    change (s.taken ++ [(i, work)]).filter _ = s.ran.filter _ ++ _
    rw [List.filter_append, hj, running, running]
    change _ = s.ran.filter _ ++ match Function.update s.worker i (.run work) j with
      | .run work => [(j, work)]
      | _ => []
    by_cases hji : j = i
    · rw [hji, Function.update_self, hpc]
      simp
    · rw [Function.update_of_ne hji]
      simp [Ne.symm hji]
  | @run i work hpc =>
    intro j
    have hj := h j
    change s.taken.filter _ = (s.ran ++ [(i, work)]).filter _ ++ _
    rw [List.filter_append, hj, running, running]
    change s.ran.filter _ ++ _ = s.ran.filter _ ++ _ ++
      match Function.update s.worker i .lock j with
      | .run work => [(j, work)]
      | _ => []
    by_cases hji : j = i
    · rw [hji, Function.update_self, hpc]
      simp
    · rw [Function.update_of_ne hji]
      simp [Ne.symm hji]
  | insert _ _ _ hwoken _ =>
    exact h.frame rfl rfl fun j work => wake_iff (P := (· = .run work)) (by simp) hwoken j
  | shutdown _ =>
    exact h.frame rfl rfl fun j work =>
      wake_iff (P := (· = .run work)) (by simp) (Finset.Subset.refl _) j
  | queue _ _ | queueLock _ _ | queueWait _ _ | queueRelock _ _ | destroy _ | destroyLock _ _
  | join _ _ | done _ => exact h.frame rfl rfl fun _ _ => Iff.rfl

theorem Locks.acquire (h : s.Locks) {t : WqThread n} (hfree : s.owner = none)
    (hown : s'.owner = some t) (hin : ∀ u, s'.Inside u ↔ u = t ∨ s.Inside u) : s'.Locks := by
  intro u
  rw [hin, h u, hfree, hown]
  simp [eq_comm]

theorem Locks.release (h : s.Locks) {t : WqThread n} (hold : s.Inside t) (hown : s'.owner = none)
    (hin : ∀ u, s'.Inside u ↔ u ≠ t ∧ s.Inside u) : s'.Locks := by
  intro u
  rw [hin, h u, hown, (h t).mp hold]
  simp only [ne_eq, Option.some.injEq, reduceCtorEq, iff_false, not_and]
  exact fun hne heq => hne heq.symm

theorem Locks.keep (h : s.Locks) (hown : s'.owner = s.owner)
    (hin : ∀ u, s'.Inside u ↔ s.Inside u) : s'.Locks := by
  intro u
  rw [hin, h u, hown]

/-- A worker that moves on to a place in front of the mutex or behind it. -/
theorem inside_worker (hworker : s'.worker = Function.update s.worker i pc)
    (hproducer : s'.Inside .producer ↔ s.Inside .producer) (u : WqThread n) :
    s'.Inside u ↔ (u = .worker i ∧ pc = .locked) ∨ (u ≠ .worker i ∧ s.Inside u) := by
  cases u with
  | producer => simpa using hproducer
  | worker j =>
    change s'.worker j = .locked ↔ _
    rw [hworker]
    by_cases hj : j = i
    · simp [hj]
    · rw [Function.update_of_ne hj]
      simp [hj, Inside]

theorem Locks.step (h : s.Locks) (hstep : WqStep s s') : s'.Locks := by
  cases hstep with
  | @lock i hpc hfree | @relock i hpc hfree =>
    refine h.acquire (t := .worker i) hfree rfl fun u => ?_
    rw [@inside_worker n s (s.lockBy i) i .locked rfl Iff.rfl]
    have hnot : ¬ s.Inside (.worker i) := by simp [Inside, hpc]
    by_cases hu : u = .worker i
    · simp [hu]
    · simp [hu]
  | @wait i hpc _ _ | @leave i hpc _ _ =>
    refine h.release (t := .worker i) hpc rfl fun u => ?_
    rw [@inside_worker n s (s.unlockBy i _) i _ rfl Iff.rfl]
    simp
  | @take i work wq hpc _ _ =>
    refine h.release (t := .worker i) hpc rfl fun u => ?_
    have hproducer : (s.take i work wq).Inside .producer ↔ s.Inside .producer := by
      simp only [Inside, WqState.take]
      split_ifs
      · cases s.producer <;> simp [ProducerPc.broadcastFull]
      · rfl
    rw [@inside_worker n s (s.take i work wq) i _ rfl hproducer]
    simp
  | @run i work hpc =>
    refine h.keep rfl fun u => ?_
    rw [@inside_worker n s { s.setWorker i .lock with ran := _ } i .lock rfl Iff.rfl]
    by_cases hu : u = .worker i
    · simp [hu, Inside, hpc]
    · simp [hu]
  | queue hpc _ | destroy hpc | join hpc _ | done hpc =>
    refine h.keep rfl fun u => ?_
    cases u with
    | worker j => rfl
    | producer => simp [Inside, hpc]
  | queueLock hpc hfree | queueRelock hpc hfree | destroyLock hpc hfree =>
    refine h.acquire (t := .producer) hfree rfl fun u => ?_
    cases u with
    | worker j => simp [Inside]
    | producer => simp [Inside]
  | queueWait hpc _ =>
    refine h.release (t := .producer) (.inl ⟨_, hpc⟩) rfl fun u => ?_
    cases u with
    | worker j => simp [Inside]
    | producer => simp [Inside]
  | insert hpc _ _ hwoken _ =>
    refine h.release (t := .producer) (.inl ⟨_, hpc⟩) rfl fun u => ?_
    cases u with
    | worker j => simpa [Inside] using wake_iff (P := (· = .locked)) (by simp) hwoken j
    | producer => simp [Inside]
  | shutdown hpc =>
    refine h.release (t := .producer) (.inr hpc) rfl fun u => ?_
    cases u with
    | worker j =>
      simpa [Inside] using wake_iff (P := (· = .locked)) (by simp) (Finset.Subset.refl _) j
    | producer => simp [Inside]

/-- The producer stays in a call while workers run. -/
theorem queueing_take {i : Fin n} {work w : ℕ} {wq : Workqueue}
    (h : (s.take i work wq).Queueing w) : s.Queueing w := by
  simp only [Queueing, WqState.take] at h
  split_ifs at h
  · rw [Queueing]
    cases hp : s.producer <;> simp_all [ProducerPc.broadcastFull]
  · exact h

theorem Fresh.step {maxJobs : ℕ} (h : s.Fresh) (hqueue : s.Queue maxJobs) (hstep : WqStep s s') :
    s'.Fresh := by
  intro w hw
  cases hstep with
  | lock _ _ | relock _ _ | wait _ _ _ | leave _ _ _ | run _ => exact h w hw
  | take _ _ hpop =>
    have hin := h w (queueing_take hw)
    rw [(hqueue.take hpop).1] at hin
    exact fun hmem => hin (List.mem_cons_of_mem _ hmem)
  | queue _ hwork =>
    obtain rfl : _ = w := by simpa [Queueing] using hw
    exact hwork
  | queueLock hpc _ | queueWait hpc _ | queueRelock hpc _ =>
    obtain rfl : _ = w := by simpa [Queueing] using hw
    exact h _ (by simp [Queueing, hpc])
  | insert _ _ _ _ _ | destroy _ | destroyLock _ _ | shutdown _ | join _ _ | done _ =>
    simp [Queueing] at hw

theorem Down.keep (h : s.Down) (hwq : s'.wq.shutdown = s.wq.shutdown)
    (hcount : s.wq.shutdown = true → s.wq.jobCount = 0 → s'.wq.jobCount = 0)
    (hjoining : ∀ k, s'.producer = .joining k ↔ s.producer = .joining k)
    (hreturned : s'.producer = .returned ↔ s.producer = .returned)
    (hexited : ∀ i, s'.worker i = .exited ↔ s.worker i = .exited)
    (hasleep : ∀ i, s'.worker i = .asleep → s.worker i = .asleep ∨ s.wq.shutdown = false) :
    s'.Down := by
  constructor
  · rw [hwq, h.flag]
    simp only [hjoining, hreturned]
  · intro i hi
    obtain ⟨hdown, hzero⟩ := h.exited i ((hexited i).mp hi)
    exact ⟨hwq.trans hdown, hcount hdown hzero⟩
  · intro hdown i hi
    rw [hwq] at hdown
    rcases hasleep i hi with hi | hrun
    · exact h.awake hdown i hi
    · rw [hrun] at hdown
      cases hdown
  · intro k hk
    obtain ⟨hle, hall⟩ := h.joining k ((hjoining k).mp hk)
    exact ⟨hle, fun i hi => (hexited i).mpr (hall i hi)⟩
  · intro hret i
    exact (hexited i).mpr (h.returned (hreturned.mp hret) i)

theorem Down.step {maxJobs : ℕ} (h : s.Down) (hqueue : s.Queue maxJobs) (hfresh : s.Fresh)
    (hstep : WqStep s s') : s'.Down := by
  cases hstep with
  | lock hpc _ | relock hpc _ =>
    refine h.keep rfl (fun _ => id) (fun _ => Iff.rfl) Iff.rfl (fun j => ?_) fun j hj => .inl ?_
    · exact update_iff (P := (· = .exited)) (by simp [hpc]) j
    · exact (update_iff (P := (· = .asleep)) (by simp [hpc]) j).mp hj
  | wait hpc _ hrun =>
    refine h.keep rfl (fun _ => id) (fun _ => Iff.rfl) Iff.rfl (fun j => ?_) fun _ _ => .inr hrun
    exact update_iff (P := (· = .exited)) (by simp [hpc]) j
  | @leave i hpc hempty hdown =>
    constructor
    · exact h.flag
    · exact fun _ _ => ⟨hdown, hempty⟩
    · exact fun _ j hj => h.awake hdown j
        ((update_iff (P := (· = .asleep)) (by simp [hpc]) j).mp hj)
    · intro k hk
      obtain ⟨hle, hall⟩ := h.joining k hk
      refine ⟨hle, fun j hj => ?_⟩
      change Function.update s.worker i .exited j = .exited
      by_cases hji : j = i
      · rw [hji, Function.update_self]
      · rw [Function.update_of_ne hji]
        exact hall j hj
    · intro hret j
      change Function.update s.worker i .exited j = .exited
      by_cases hji : j = i
      · rw [hji, Function.update_self]
      · rw [Function.update_of_ne hji]
        exact h.returned hret j
  | @take i work wq hpc hjob hpop =>
    obtain ⟨-, -, -, -, -, -, hshutdown⟩ := hqueue.pop_spec hpop
    refine h.keep hshutdown (fun _ hzero => absurd hzero hjob) (fun k => ?_) ?_ (fun j => ?_)
      fun j hj => .inl ?_
    · simp only [WqState.take]
      split_ifs
      · cases s.producer <;> simp [ProducerPc.broadcastFull]
      · rfl
    · simp only [WqState.take]
      split_ifs
      · cases s.producer <;> simp [ProducerPc.broadcastFull]
      · rfl
    · exact update_iff (P := (· = .exited)) (by simp [hpc]) j
    · exact (update_iff (P := (· = .asleep)) (by simp [hpc]) j).mp hj
  | run hpc =>
    refine h.keep rfl (fun _ => id) (fun _ => Iff.rfl) Iff.rfl (fun j => ?_) fun j hj => .inl ?_
    · exact update_iff (P := (· = .exited)) (by simp [hpc]) j
    · exact (update_iff (P := (· = .asleep)) (by simp [hpc]) j).mp hj
  | queue hpc _ | queueLock hpc _ | queueWait hpc _ | queueRelock hpc _ | destroy hpc
  | destroyLock hpc _ =>
    exact h.keep rfl (fun _ => id) (by simp [hpc]) (by simp [hpc]) (fun _ => Iff.rfl)
      fun _ => .inl
  | insert hpc _ hpush hwoken _ =>
    have hwork := hfresh _ (.inr (.inl hpc))
    obtain ⟨-, -, -, -, hshutdown⟩ := hqueue.push_spec hwork hpush
    have hrun : s.wq.shutdown ≠ true := by
      rw [ne_eq, h.flag]
      simp [hpc]
    refine h.keep hshutdown (fun hdown => absurd hdown hrun) (by simp [hpc]) (by simp [hpc])
      (fun j => ?_) fun j _ => .inr (by simpa using hrun)
    exact wake_iff (P := (· = .exited)) (by simp) hwoken j
  | shutdown hpc =>
    have hrun : s.wq.shutdown ≠ true := by
      rw [ne_eq, h.flag]
      simp [hpc]
    constructor
    · simp
    · intro i hi
      have hi := (wake_iff (P := (· = .exited)) (by simp) (Finset.Subset.refl _) i).mp hi
      exact absurd (h.exited i hi).1 hrun
    · intro _ i hi
      change (if i ∈ s.sleepers then .woken else s.worker i) = .asleep at hi
      split_ifs at hi with hmem
      exact hmem (Finset.mem_filter.mpr ⟨Finset.mem_univ i, hi⟩)
    · intro k hk
      cases hk
      exact ⟨Nat.zero_le n, fun i hi => absurd hi (Nat.not_lt_zero _)⟩
    · intro hret
      cases hret
  | @join i hpc hexit =>
    obtain ⟨-, hall⟩ := h.joining _ hpc
    constructor
    · exact ⟨fun _ => .inl ⟨_, rfl⟩, fun _ => h.flag.mpr (.inl ⟨_, hpc⟩)⟩
    · exact h.exited
    · exact h.awake
    · intro k hk
      cases hk
      refine ⟨i.isLt, fun j hj => ?_⟩
      rcases Nat.lt_succ_iff_lt_or_eq.mp hj with hj | hj
      · exact hall j hj
      · rw [Fin.ext hj]
        exact hexit
    · intro hret
      cases hret
  | done hpc =>
    obtain ⟨-, hall⟩ := h.joining _ hpc
    constructor
    · exact ⟨fun _ => .inr rfl, fun _ => h.flag.mpr (.inl ⟨_, hpc⟩)⟩
    · exact h.exited
    · exact h.awake
    · intro k hk
      cases hk
    · exact fun _ i => hall i i.isLt

theorem mem_ready {i : Fin n} :
    i ∈ s.ready ↔ s.worker i = .lock ∨ s.worker i = .locked ∨ s.worker i = .woken := by
  simp [ready]

theorem mem_sleepers {i : Fin n} : i ∈ s.sleepers ↔ s.worker i = .asleep := by
  simp [sleepers]

/-- A worker that gets on its way to the loop condition, or stays there. -/
theorem ready_update (hworker : s'.worker = Function.update s.worker i pc)
    (hpc : pc = .lock ∨ pc = .locked ∨ pc = .woken) :
    s.ready ⊆ s'.ready ∧ s'.sleepers ⊆ s.sleepers := by
  constructor
  · intro j hj
    rw [mem_ready] at hj ⊢
    rw [hworker]
    by_cases hji : j = i
    · rwa [hji, Function.update_self]
    · rwa [Function.update_of_ne hji]
  · intro j hj
    rw [mem_sleepers] at hj ⊢
    rw [hworker] at hj
    by_cases hji : j = i
    · rw [hji, Function.update_self] at hj
      rcases hpc with rfl | rfl | rfl <;> cases hj
    · rwa [Function.update_of_ne hji] at hj

theorem Signals.keep (h : s.Signals)
    (hfull : ∀ work, s'.producer = .queueAsleep work → s'.wq.jobCount = s'.wq.maxJobs)
    (hcount : s'.wq.jobCount ≤ s.wq.jobCount) (hready : s.ready ⊆ s'.ready)
    (hsleepers : s'.sleepers ⊆ s.sleepers) : s'.Signals :=
  ⟨hfull, fun hne => hcount.trans
    ((h.empty (hne.mono hsleepers)).trans (Finset.card_le_card hready))⟩

/-- Nothing about the producer or the queue changes. -/
theorem Signals.keepWorker (h : s.Signals) (hproducer : s'.producer = s.producer)
    (hwq : s'.wq = s.wq) (hready : s.ready ⊆ s'.ready) (hsleepers : s'.sleepers ⊆ s.sleepers) :
    s'.Signals := by
  refine h.keep (fun work hw => ?_) ?_ hready hsleepers
  · rw [hproducer] at hw
    rw [hwq]
    exact h.full work hw
  · rw [hwq]

theorem Signals.step {maxJobs : ℕ} (h : s.Signals) (hqueue : s.Queue maxJobs) (hfresh : s.Fresh)
    (hstep : WqStep s s') : s'.Signals := by
  cases hstep with
  | @lock i _ _ | @relock i _ _ =>
    obtain ⟨hready, hsleepers⟩ :=
      @ready_update n s (s.lockBy i) i .locked rfl (.inr (.inl rfl))
    exact h.keepWorker rfl rfl hready hsleepers
  | @run i work _ =>
    obtain ⟨hready, hsleepers⟩ := @ready_update n s (s.setWorker i .lock) i .lock rfl (.inl rfl)
    exact h.keepWorker rfl rfl hready hsleepers
  | wait _ hempty _ | leave _ hempty _ =>
    exact ⟨h.full, fun _ => hempty.le.trans (Nat.zero_le _)⟩
  | @take i work wq hpc hjob hpop =>
    obtain ⟨-, -, -, -, hcount, hmax, -⟩ := hqueue.pop_spec hpop
    constructor
    · intro w hw
      simp only [WqState.take] at hw
      split_ifs at hw with hfull
      · cases hp : s.producer <;> simp [ProducerPc.broadcastFull, hp] at hw
      · have := h.full w hw
        omega
    · intro hne
      -- the worker was on its way and is not any more, and one job is gone
      have hready : s.ready.erase i ⊆ (s.take i work wq).ready := by
        intro j hj
        obtain ⟨hji, hj⟩ := Finset.mem_erase.mp hj
        rw [mem_ready] at hj ⊢
        change Function.update s.worker i (.run work) j = _ ∨
          Function.update s.worker i (.run work) j = _ ∨
          Function.update s.worker i (.run work) j = _
        rwa [Function.update_of_ne hji]
      have hsleepers : (s.take i work wq).sleepers ⊆ s.sleepers := by
        intro j hj
        rw [mem_sleepers] at hj ⊢
        exact (update_iff (P := (· = .asleep)) (by simp [hpc]) j).mp hj
      have hmem : i ∈ s.ready := mem_ready.mpr (.inr (.inl hpc))
      have hcard := Finset.card_erase_of_mem hmem
      have hpos : 0 < s.ready.card := Finset.card_pos.mpr ⟨i, hmem⟩
      have hold := h.empty (hne.mono hsleepers)
      have hle := Finset.card_le_card hready
      change wq.jobCount ≤ _
      omega
  | queue _ _ | queueLock _ _ | queueRelock _ _ | destroy _ | destroyLock _ _ | join _ _
  | done _ => exact ⟨fun _ hw => (by cases hw), h.empty⟩
  | queueWait _ hfull => exact ⟨fun _ _ => hfull, h.empty⟩
  | @insert work wq woken hpc _ hpush hwoken hsignal =>
    obtain ⟨-, -, hcount, -, -⟩ := hqueue.push_spec (hfresh _ (.inr (.inl hpc))) hpush
    refine ⟨fun _ hw => (by cases hw), fun hne => ?_⟩
    have hsleepers : (s.wake woken).sleepers ⊆ s.sleepers := by
      intro j hj
      rw [mem_sleepers] at hj ⊢
      change (if j ∈ woken then .woken else s.worker j) = .asleep at hj
      split_ifs at hj
      exact hj
    have hold : s.sleepers.Nonempty := hne.mono hsleepers
    -- the workers that the signal has woken are on their way now
    have hready : s.ready ∪ woken ⊆ (s.wake woken).ready := by
      intro j hj
      rw [mem_ready]
      change (if j ∈ woken then .woken else s.worker j) = _ ∨
        (if j ∈ woken then .woken else s.worker j) = _ ∨
        (if j ∈ woken then .woken else s.worker j) = _
      split_ifs with hjw
      · exact .inr (.inr rfl)
      · rcases Finset.mem_union.mp hj with hj | hj
        · exact mem_ready.mp hj
        · exact absurd hj hjw
    have hdisj : Disjoint s.ready woken := by
      refine Finset.disjoint_left.mpr fun j hj hjw => ?_
      have hasleep := mem_sleepers.mp (hwoken hjw)
      rw [mem_ready, hasleep] at hj
      simp at hj
    have hcard := Finset.card_le_card hready
    rw [Finset.card_union_of_disjoint hdisj] at hcard
    have hpos : 0 < woken.card := Finset.card_pos.mpr (hsignal hold)
    have := h.empty hold
    change wq.jobCount ≤ (s.wake woken).ready.card
    omega
  | shutdown hpc =>
    refine ⟨fun _ hw => (by cases hw), fun hne => ?_⟩
    obtain ⟨j, hj⟩ := hne
    have hj := mem_sleepers.mp hj
    change (if j ∈ s.sleepers then .woken else s.worker j) = .asleep at hj
    split_ifs at hj with hmem
    exact absurd (mem_sleepers.mpr hj) hmem

end Threads

section Invariant

variable {s} {s' : WqState n} {maxJobs : ℕ}

structure Inv (s : WqState n) (maxJobs : ℕ) : Prop where
  queue : s.Queue maxJobs
  once : s.Once
  locks : s.Locks
  fresh : s.Fresh
  down : s.Down
  signals : s.Signals

theorem Queue.step (h : s.Queue maxJobs) (hfresh : s.Fresh) (hstep : WqStep s s') :
    s'.Queue maxJobs := by
  cases hstep with
  | take _ _ hpop => exact (h.take hpop).2
  | insert hpc hroom hpush _ _ =>
    exact And.right (h.insert (hfresh _ (.inr (.inl hpc))) hroom hpush rfl rfl rfl)
  | shutdown _ => exact ⟨h.linked, h.tail, h.count, h.bounded, h.order, h.nodup, h.max⟩
  | _ => exact h.frame rfl rfl rfl

theorem Inv.step (h : s.Inv maxJobs) (hstep : WqStep s s') : s'.Inv maxJobs where
  queue := h.queue.step h.fresh hstep
  once := h.once.step hstep
  locks := h.locks.step hstep
  fresh := h.fresh.step h.queue hstep
  down := h.down.step h.queue h.fresh hstep
  signals := h.signals.step h.queue h.fresh hstep

theorem Inv.spurious (h : s.Inv maxJobs) (hwake : WqSpurious s s') : s'.Inv maxJobs := by
  cases hwake with
  | @worker i hpc =>
    obtain ⟨hready, hsleepers⟩ :=
      @ready_update n s (s.setWorker i .woken) i .woken rfl (.inr (.inr rfl))
    constructor
    · exact h.queue.frame rfl rfl rfl
    · exact h.once.frame rfl rfl fun j work => update_iff (P := (· = .run work)) (by simp [hpc]) j
    · refine h.locks.keep rfl fun u => ?_
      rw [@inside_worker n s (s.setWorker i .woken) i .woken rfl Iff.rfl]
      by_cases hu : u = .worker i
      · simp [hu, Inside, hpc]
      · simp [hu]
    · exact h.fresh
    · refine h.down.keep rfl (fun _ => id) (fun _ => Iff.rfl) Iff.rfl (fun j => ?_) fun j hj => .inl ?_
      · exact update_iff (P := (· = .exited)) (by simp [hpc]) j
      · exact mem_sleepers.mp (hsleepers (mem_sleepers.mpr hj))
    · exact h.signals.keepWorker rfl rfl hready hsleepers
  | producer hpc =>
    constructor
    · exact h.queue.frame rfl rfl rfl
    · exact h.once
    · refine h.locks.keep rfl fun u => ?_
      cases u with
      | worker j => rfl
      | producer => simp [Inside, hpc]
    · intro w hw
      obtain rfl : _ = w := by simpa [Queueing] using hw
      exact h.fresh _ (by simp [Queueing, hpc])
    · exact h.down.keep rfl (fun _ => id) (by simp [hpc]) (by simp [hpc]) (fun _ => Iff.rfl)
        fun _ => .inl
    · exact ⟨fun _ hw => (by cases hw), h.signals.empty⟩

theorem inv_alloc {next : ℕ → Option ℕ} (hs : erofsAllocWorkqueue n maxJobs next = some s) :
    n ≠ 0 ∧ maxJobs ≠ 0 ∧ s.Inv maxJobs := by
  rw [erofsAllocWorkqueue] at hs
  split_ifs at hs with hbad
  rw [not_or] at hbad
  cases hs
  refine ⟨hbad.1, hbad.2, ⟨.nil, fun h => absurd rfl h, rfl, Nat.zero_le _, rfl, .nil, rfl⟩,
    fun _ => rfl, fun u => ?_, fun w hw => ?_, ⟨?_, ?_, ?_, ?_, ?_⟩, ⟨?_, ?_⟩⟩
  · cases u <;> simp [Inside]
  · simp [Queueing] at hw
  all_goals simp

end Invariant

end WqState

section Reach

variable {n maxJobs : ℕ} {s : WqState n}

theorem WqReach.inv (hs : WqReach maxJobs s) : s.Inv maxJobs := by
  induction hs with
  | init halloc => exact (WqState.inv_alloc halloc).2.2
  | step _ hstep ih => exact ih.step hstep
  | spurious _ hwake ih => exact ih.spurious hwake

theorem WqReach.pos (hs : WqReach maxJobs s) : n ≠ 0 ∧ maxJobs ≠ 0 := by
  induction hs with
  | init halloc => exact ⟨(WqState.inv_alloc halloc).1, (WqState.inv_alloc halloc).2.1⟩
  | step _ _ ih => exact ih
  | spurious _ _ ih => exact ih

structure WqCorrect (maxJobs : ℕ) (s : WqState n) : Prop where
  linked : Linked s.wq.next s.wq.head s.pending
  tail : s.pending ≠ [] → s.wq.tail = s.pending.getLast?
  count : s.wq.jobCount = s.pending.length
  bounded : s.wq.jobCount ≤ maxJobs
  order : s.queued = s.taken.map Prod.snd ++ s.pending
  once : ∀ i, s.taken.filter (·.1 = i) = s.ran.filter (·.1 = i) ++ s.running i
  nonnull : ∀ work, (s.wq.jobCount ≠ 0 → s.wq.pop ≠ none) ∧ s.wq.push work ≠ none
  returned : s.producer = .returned → s.taken.map Prod.snd = s.queued ∧ s.ran.Perm s.taken

/-- Under every schedule, with any number of workers. -/
theorem workqueue_correct (hs : WqReach maxJobs s) : WqCorrect maxJobs s := by
  have hinv := hs.inv
  refine ⟨hinv.queue.linked, hinv.queue.tail, hinv.queue.count, hinv.queue.bounded,
    hinv.queue.order, hinv.once, fun work => ⟨hinv.queue.pop_ne_none, hinv.queue.push_ne_none work⟩,
    fun hret => ?_⟩
  have hexited := hinv.down.returned hret
  have hzero := (hinv.down.exited ⟨0, Nat.pos_of_ne_zero hs.pos.1⟩ (hexited _)).2
  have hpending : s.pending = [] := List.length_eq_zero_iff.mp (hinv.queue.count ▸ hzero)
  constructor
  · have horder := hinv.queue.order
    rw [hpending, List.append_nil] at horder
    exact horder.symm
  · refine List.perm_iff_count.mpr fun x => ?_
    have honce := hinv.once x.1
    rw [WqState.running, hexited] at honce
    have hcount : ∀ l : List (Fin n × ℕ), (l.filter (·.1 = x.1)).count x = l.count x :=
      fun l => List.count_filter (by simp)
    rw [← hcount s.ran, ← hcount s.taken, honce, List.append_nil]

/-- Two workers and room for one job. The first worker sleeps until there is a job, and the producer
until the first job is taken. -/
theorem workqueue_correct_twoJobs :
    ∃ s : WqState 2, s.producer = .returned ∧ s.queued = [7, 8] ∧ s.taken = [(0, 7), (1, 8)] ∧
      s.ran = [(1, 8), (0, 7)] ∧ WqCorrect 1 s := by
  have h0 : WqReach 1 _ := .init (rfl : erofsAllocWorkqueue 2 1 (fun _ => none) = some _)
  have h1 := h0.step (@WqStep.lock 2 _ 0 rfl rfl)
  have h2 := h1.step (@WqStep.wait 2 _ 0 rfl rfl rfl)
  have h3 := h2.step (@WqStep.queue 2 _ 7 rfl List.not_mem_nil)
  have h4 := h3.step (.queueLock rfl rfl)
  have h5 := h4.step (@WqStep.insert 2 _ 7 _ {0} rfl (by decide) rfl (by decide)
    (fun _ => Finset.singleton_nonempty 0))
  have h6 := h5.step (@WqStep.queue 2 _ 8 rfl (by decide))
  have h7 := h6.step (.queueLock rfl rfl)
  have h8 := h7.step (.queueWait rfl rfl)
  have h9 := h8.step (@WqStep.relock 2 _ 0 rfl rfl)
  have h10 := h9.step (@WqStep.take 2 _ 0 7 _ rfl (by decide) rfl)
  have h11 := h10.step (.queueRelock rfl rfl)
  have h12 := h11.step (@WqStep.insert 2 _ 8 _ ∅ rfl (by decide) rfl (Finset.empty_subset _)
    (fun h => absurd h (by decide)))
  have h13 := h12.step (@WqStep.lock 2 _ 1 rfl rfl)
  have h14 := h13.step (@WqStep.take 2 _ 1 8 _ rfl (by decide) rfl)
  have h15 := h14.step (@WqStep.run 2 _ 1 8 rfl)
  have h16 := h15.step (@WqStep.run 2 _ 0 7 rfl)
  have h17 := h16.step (.destroy rfl)
  have h18 := h17.step (.destroyLock rfl rfl)
  have h19 := h18.step (.shutdown rfl)
  have h20 := h19.step (@WqStep.lock 2 _ 0 rfl rfl)
  have h21 := h20.step (@WqStep.leave 2 _ 0 rfl rfl rfl)
  have h22 := h21.step (@WqStep.lock 2 _ 1 rfl rfl)
  have h23 := h22.step (@WqStep.leave 2 _ 1 rfl rfl rfl)
  have h24 := h23.step (@WqStep.join 2 _ 0 rfl rfl)
  have h25 := h24.step (@WqStep.join 2 _ 1 rfl rfl)
  have h26 := h25.step (.done rfl)
  exact ⟨_, rfl, rfl, rfl, rfl, workqueue_correct h26⟩

/-- Some thread that is awake can go on until the queue is destroyed: no wake-up is lost. -/
theorem WqReach.progress (hs : WqReach maxJobs s) (hret : s.producer ≠ .returned) :
    ∃ s', WqStep s s' := by
  have hinv := hs.inv
  -- a worker that is awake moves when nobody holds the mutex
  have hmove : s.owner = none → ∀ i, s.worker i ≠ .asleep → s.worker i ≠ .exited →
      ∃ s', WqStep s s' := by
    intro hfree i hasleep hexited
    cases hi : s.worker i with
    | lock => exact ⟨_, .lock hi hfree⟩
    | locked =>
      have := (hinv.locks (.worker i)).mp hi
      rw [hfree] at this
      cases this
    | asleep => exact absurd hi hasleep
    | woken => exact ⟨_, .relock hi hfree⟩
    | run work => exact ⟨_, .run hi⟩
    | exited => exact absurd hi hexited
  cases hown : s.owner with
  | some t =>
    have hin := (hinv.locks t).mpr hown
    cases t with
    | worker i =>
      by_cases hempty : s.wq.jobCount = 0
      · cases hdown : s.wq.shutdown with
        | false => exact ⟨_, .wait hin hempty hdown⟩
        | true => exact ⟨_, .leave hin hempty hdown⟩
      · obtain ⟨⟨work, wq⟩, hpop⟩ := Option.ne_none_iff_exists'.mp (hinv.queue.pop_ne_none hempty)
        exact ⟨_, .take hin hempty hpop⟩
    | producer =>
      rcases hin with ⟨work, hpc⟩ | hpc
      · by_cases hfull : s.wq.jobCount = s.wq.maxJobs
        · exact ⟨_, .queueWait hpc hfull⟩
        · obtain ⟨wq, hpush⟩ := Option.ne_none_iff_exists'.mp (hinv.queue.push_ne_none work)
          exact ⟨_, .insert hpc hfull hpush (Finset.Subset.refl _) id⟩
      · exact ⟨_, .shutdown hpc⟩
  | none =>
    cases hpc : s.producer with
    | idle => exact ⟨_, .destroy hpc⟩
    | queueLock work => exact ⟨_, .queueLock hpc hown⟩
    | queueLocked work =>
      have := (hinv.locks .producer).mp (.inl ⟨work, hpc⟩)
      rw [hown] at this
      cases this
    | queueAsleep work =>
      -- the queue is full, so a worker is on its way or none sleeps
      have hfull := hinv.signals.full work hpc
      have hpos : s.wq.jobCount ≠ 0 := by
        rw [hfull, hinv.queue.max]
        exact hs.pos.2
      have hexited : ∀ i, s.worker i ≠ .exited := fun i hi => hpos (hinv.down.exited i hi).2
      by_cases hsleep : s.sleepers.Nonempty
      · have hready := hinv.signals.empty hsleep
        obtain ⟨i, hi⟩ := Finset.card_pos.mp (show 0 < s.ready.card by omega)
        refine hmove hown i (fun hasleep => ?_) (hexited i)
        rw [WqState.mem_ready, hasleep] at hi
        simp at hi
      · let i : Fin n := ⟨0, Nat.pos_of_ne_zero hs.pos.1⟩
        exact hmove hown i (fun hi => hsleep ⟨i, WqState.mem_sleepers.mpr hi⟩) (hexited i)
    | queueWoken work => exact ⟨_, .queueRelock hpc hown⟩
    | destroyLock => exact ⟨_, .destroyLock hpc hown⟩
    | destroyLocked =>
      have := (hinv.locks .producer).mp (.inr hpc)
      rw [hown] at this
      cases this
    | joining k =>
      obtain ⟨hle, -⟩ := hinv.down.joining k hpc
      have hdown := hinv.down.flag.mpr (.inl ⟨k, hpc⟩)
      rcases hle.lt_or_eq with hlt | rfl
      · by_cases hexit : s.worker ⟨k, hlt⟩ = .exited
        · exact ⟨_, .join (i := ⟨k, hlt⟩) hpc hexit⟩
        · exact hmove hown ⟨k, hlt⟩ (hinv.down.awake hdown _) hexit
      · exact ⟨_, .done hpc⟩
    | returned => exact absurd hpc hret

end Reach

end ErofsUtils
