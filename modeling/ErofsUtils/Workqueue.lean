import Mathlib.Data.Fintype.Card
import Mathlib.Data.Finset.Filter
import ErofsUtils.ByteMemory

/-!
# The work queue

`workqueue.c`: one producer that calls `erofs_queue_work` and at last `erofs_destroy_workqueue`,
and the threads that run `worker_thread`. The threads are interleaved at the calls of the pthread
library. What a thread does between two of them, while it holds the mutex, is one step; a sleeping
thread may wake up at any time.
-/

namespace ErofsUtils

/-- `struct erofs_workqueue`, with the `next` pointers of all works. -/
structure Workqueue where
  head : Option ℕ
  tail : Option ℕ
  next : ℕ → Option ℕ
  jobCount : ℕ
  maxJobs : ℕ
  shutdown : Bool

namespace Workqueue

variable (wq : Workqueue)

/-- What `worker_thread` does with a queue that is not empty; `none` stands for the use of a null
pointer. -/
def pop : Option (ℕ × Workqueue) :=
  wq.head.map fun work =>
    (work, { wq with
      head := wq.next work
      tail := if wq.next work = none then none else wq.tail
      jobCount := wq.jobCount - 1 })

/-- What `erofs_queue_work` does with a queue that is not full; `none` stands for the use of a null
pointer. -/
def push (work : ℕ) : Option Workqueue :=
  let next := Function.update wq.next work none
  match wq.head with
  | none => some { wq with
      head := some work, tail := some work, next := next, jobCount := wq.jobCount + 1 }
  | some _ => wq.tail.map fun tail => { wq with
      tail := some work
      next := Function.update next tail (some work)
      jobCount := wq.jobCount + 1 }

end Workqueue

/-- Where a worker is: in front of `pthread_mutex_lock`, behind it, in `pthread_cond_wait`, woken
there and waiting for the mutex, in `work->fn`, or at its end. -/
inductive WorkerPc
  | lock | locked | asleep | woken | run (work : ℕ) | exited
  deriving DecidableEq

inductive ProducerPc
  | idle
  | queueLock (work : ℕ)
  | queueLocked (work : ℕ)
  | queueAsleep (work : ℕ)
  | queueWoken (work : ℕ)
  | destroyLock
  | destroyLocked
  | joining (joined : ℕ)
  | returned
  deriving DecidableEq

/-- `pthread_cond_broadcast(&wq->cond_full)`. -/
def ProducerPc.broadcastFull : ProducerPc → ProducerPc
  | queueAsleep work => queueWoken work
  | pc => pc

inductive WqThread (n : ℕ)
  | producer
  | worker (i : Fin n)
  deriving DecidableEq

/-- The state of the queue and its threads. The jobs that were queued, handed out and run are
written down in their order, with the worker that took them. -/
structure WqState (n : ℕ) where
  wq : Workqueue
  owner : Option (WqThread n)
  producer : ProducerPc
  worker : Fin n → WorkerPc
  queued : List ℕ
  taken : List (Fin n × ℕ)
  ran : List (Fin n × ℕ)

namespace WqState

variable {n : ℕ} (s : WqState n)

def pending : List ℕ := s.queued.drop s.taken.length

def setWorker (i : Fin n) (pc : WorkerPc) : WqState n :=
  { s with worker := Function.update s.worker i pc }

def lockBy (i : Fin n) : WqState n := { s.setWorker i .locked with owner := some (.worker i) }

def unlockBy (i : Fin n) (pc : WorkerPc) : WqState n := { s.setWorker i pc with owner := none }

/-- The workers in `woken` leave `pthread_cond_wait(&wq->cond_empty)`. -/
def wake (woken : Finset (Fin n)) : WqState n :=
  { s with worker := fun i => if i ∈ woken then .woken else s.worker i }

def sleepers : Finset (Fin n) := Finset.univ.filter fun i => s.worker i = .asleep

/-- The worker `i` has taken `work`, which left the queue `wq`. -/
def take (i : Fin n) (work : ℕ) (wq : Workqueue) : WqState n :=
  { s.unlockBy i (.run work) with
    wq := wq
    taken := s.taken ++ [(i, work)]
    producer := if wq.jobCount + 1 = wq.maxJobs then s.producer.broadcastFull else s.producer }

end WqState

inductive WqStep {n : ℕ} : WqState n → WqState n → Prop
  /-- `pthread_mutex_lock` in a worker. -/
  | lock {s : WqState n} {i : Fin n} (hpc : s.worker i = .lock) (hfree : s.owner = none) :
    WqStep s (s.lockBy i)
  /-- `pthread_cond_wait(&wq->cond_empty, &wq->lock)`. -/
  | wait {s : WqState n} {i : Fin n} (hpc : s.worker i = .locked)
      (hempty : s.wq.jobCount = 0) (hrun : s.wq.shutdown = false) :
    WqStep s (s.unlockBy i .asleep)
  /-- `pthread_cond_wait` takes the mutex again. -/
  | relock {s : WqState n} {i : Fin n} (hpc : s.worker i = .woken) (hfree : s.owner = none) :
    WqStep s (s.lockBy i)
  /-- The worker leaves its loop. -/
  | leave {s : WqState n} {i : Fin n} (hpc : s.worker i = .locked)
      (hempty : s.wq.jobCount = 0) (hdown : s.wq.shutdown = true) :
    WqStep s (s.unlockBy i .exited)
  /-- The worker takes a job. -/
  | take {s : WqState n} {i : Fin n} {work : ℕ} {wq : Workqueue} (hpc : s.worker i = .locked)
      (hjob : s.wq.jobCount ≠ 0) (hpop : s.wq.pop = some (work, wq)) :
    WqStep s (s.take i work wq)
  /-- `work->fn` returns. -/
  | run {s : WqState n} {i : Fin n} {work : ℕ} (hpc : s.worker i = .run work) :
    WqStep s { s.setWorker i .lock with ran := s.ran ++ [(i, work)] }
  /-- The producer calls `erofs_queue_work` with a work that is not in the queue. -/
  | queue {s : WqState n} {work : ℕ} (hpc : s.producer = .idle) (hwork : work ∉ s.pending) :
    WqStep s { s with producer := .queueLock work }
  | queueLock {s : WqState n} {work : ℕ} (hpc : s.producer = .queueLock work)
      (hfree : s.owner = none) :
    WqStep s { s with producer := .queueLocked work, owner := some .producer }
  /-- `pthread_cond_wait(&wq->cond_full, &wq->lock)`. -/
  | queueWait {s : WqState n} {work : ℕ} (hpc : s.producer = .queueLocked work)
      (hfull : s.wq.jobCount = s.wq.maxJobs) :
    WqStep s { s with producer := .queueAsleep work, owner := none }
  | queueRelock {s : WqState n} {work : ℕ} (hpc : s.producer = .queueWoken work)
      (hfree : s.owner = none) :
    WqStep s { s with producer := .queueLocked work, owner := some .producer }
  /-- The job is put into the queue; `pthread_cond_signal(&wq->cond_empty)` wakes one worker or
  more if any sleeps. -/
  | insert {s : WqState n} {work : ℕ} {wq : Workqueue} {woken : Finset (Fin n)}
      (hpc : s.producer = .queueLocked work) (hroom : s.wq.jobCount ≠ s.wq.maxJobs)
      (hpush : s.wq.push work = some wq) (hwoken : woken ⊆ s.sleepers)
      (hsignal : s.sleepers.Nonempty → woken.Nonempty) :
    WqStep s { s.wake woken with
      producer := .idle, owner := none, wq := wq, queued := s.queued ++ [work] }
  /-- The producer calls `erofs_destroy_workqueue`. -/
  | destroy {s : WqState n} (hpc : s.producer = .idle) :
    WqStep s { s with producer := .destroyLock }
  | destroyLock {s : WqState n} (hpc : s.producer = .destroyLock) (hfree : s.owner = none) :
    WqStep s { s with producer := .destroyLocked, owner := some .producer }
  /-- The flag is set and all workers are woken. -/
  | shutdown {s : WqState n} (hpc : s.producer = .destroyLocked) :
    WqStep s { s.wake s.sleepers with
      producer := .joining 0, owner := none, wq := { s.wq with shutdown := true } }
  /-- `pthread_join` of the next worker. -/
  | join {s : WqState n} {i : Fin n} (hpc : s.producer = .joining i)
      (hexit : s.worker i = .exited) :
    WqStep s { s with producer := .joining (i + 1) }
  | done {s : WqState n} (hpc : s.producer = .joining n) :
    WqStep s { s with producer := .returned }

inductive WqSpurious {n : ℕ} : WqState n → WqState n → Prop
  | worker {s : WqState n} {i : Fin n} (hpc : s.worker i = .asleep) :
    WqSpurious s (s.setWorker i .woken)
  | producer {s : WqState n} {work : ℕ} (hpc : s.producer = .queueAsleep work) :
    WqSpurious s { s with producer := .queueWoken work }

/-- `erofs_alloc_workqueue` with `n` workers; `next` is what the works hold in memory. -/
def erofsAllocWorkqueue (n maxJobs : ℕ) (next : ℕ → Option ℕ) : Option (WqState n) :=
  if n = 0 ∨ maxJobs = 0 then none
  else some {
    wq := ⟨none, none, next, 0, maxJobs, false⟩
    owner := none
    producer := .idle
    worker := fun _ => .lock
    queued := []
    taken := []
    ran := [] }

inductive WqReach {n : ℕ} (maxJobs : ℕ) : WqState n → Prop
  | init {next : ℕ → Option ℕ} {s : WqState n} (hs : erofsAllocWorkqueue n maxJobs next = some s) :
    WqReach maxJobs s
  | step {s s' : WqState n} (hs : WqReach maxJobs s) (hstep : WqStep s s') : WqReach maxJobs s'
  | spurious {s s' : WqState n} (hs : WqReach maxJobs s) (hwake : WqSpurious s s') :
    WqReach maxJobs s'

end ErofsUtils
