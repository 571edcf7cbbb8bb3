import Mathlib.Logic.Function.Basic
import ErofsUtils.ByteMemory

/-!
# The queue of the dump worker

`struct erofs_mkfs_dfops` of `inode.c`: the main thread, which calls `erofs_mkfs_go` and
`erofs_mkfs_flushjobs`, and the thread that runs `z_erofs_mt_dfops_worker`. The threads are
interleaved at the calls of the pthread library. What a thread does between two of them, while it
holds the mutex, is one step; a sleeping thread may wake up at any time.
-/

namespace ErofsUtils

/-- `struct erofs_mkfs_dfops`; `J` stands for `struct erofs_mkfs_jobitem`. -/
structure Dfops (J : Type*) where
  queue : ℕ → J
  entries : ℕ
  head : ℕ
  tail : ℕ
  idle : Bool

namespace Dfops

variable {J : Type*} (q : Dfops J)

/-- The loop condition of `erofs_mkfs_pop_jobitem`. -/
def IsEmpty : Prop := q.head = q.tail

/-- The loop condition of `erofs_mkfs_go`. -/
def IsFull : Prop := (q.tail + 1) &&& (q.entries - 1) = q.head

instance : Decidable q.IsEmpty := inferInstanceAs (Decidable (q.head = q.tail))

instance : Decidable q.IsFull :=
  inferInstanceAs (Decidable ((q.tail + 1) &&& (q.entries - 1) = q.head))

/-- What `erofs_mkfs_pop_jobitem` does with a queue that is not empty; it returns the slot
`q->head` as it was. -/
def popJobitem : Dfops J := { q with head := (q.head + 1) &&& (q.entries - 1) }

/-- What `erofs_mkfs_go` does with a queue that is not full. -/
def go (item : J) : Dfops J :=
  { q with
    queue := Function.update q.queue q.tail item
    tail := (q.tail + 1) &&& (q.entries - 1)
    idle := false }

end Dfops

/-- Where the worker is: in front of `pthread_mutex_lock`, behind it, in `pthread_cond_wait`, woken
there and waiting for the mutex, at the item in a slot, or at its end. -/
inductive DfWorker
  | lock | locked | asleep | woken | run (slot : ℕ) | exited
  deriving DecidableEq

/-- Where the main thread is: outside these functions, in `erofs_mkfs_go`, in
`erofs_mkfs_flushjobs`, behind it, in `pthread_join` or behind that. -/
inductive DfProducer (J : Type*)
  | idle
  | goLock (item : J)
  | goLocked (item : J)
  | goAsleep (item : J)
  | goWoken (item : J)
  | flushLock
  | flushLocked
  | flushAsleep
  | flushWoken
  | flushRelocked
  | flushed
  | joining
  | joined

namespace DfProducer

variable {J : Type*}

/-- `pthread_cond_signal(&q->full)`. -/
def signalFull : DfProducer J → DfProducer J
  | goAsleep item => goWoken item
  | pc => pc

/-- `pthread_cond_signal(&q->drain)`. -/
def signalDrain : DfProducer J → DfProducer J
  | flushAsleep => flushWoken
  | pc => pc

/-- Between a call that takes the mutex and the next one that gives it back. -/
def Holds : DfProducer J → Prop
  | goLocked _ | flushLocked | flushRelocked => True
  | _ => False

end DfProducer

/-- `pthread_cond_signal(&q->empty)`. -/
def DfWorker.signalEmpty : DfWorker → DfWorker
  | asleep => woken
  | pc => pc

inductive DfThread
  | producer | worker
  deriving DecidableEq

/-- The queue with its two threads. The items that were queued and those that the worker is done
with are written down in their order, the latter with what `erofs_mkfs_jobfn` returned. -/
structure DfState (J : Type*) where
  q : Dfops J
  owner : Option DfThread
  producer : DfProducer J
  worker : DfWorker
  queued : List J
  taken : ℕ
  ran : List (J × ℤ)

/-- Every item that was queued has been handled without an error. -/
def DfState.AllRan {J : Type*} (s : DfState J) : Prop :=
  s.ran.length = s.queued.length ∧ ∀ r ∈ s.ran, r.2 = 0

section Steps

variable {J : Type*} (stop : J → Prop) [DecidablePred stop]

/-- A step of a thread that is not asleep; `stop` holds of the items whose type is at least
`EROFS_MKFS_JOB_MAX`. -/
inductive DfStep : DfState J → DfState J → Prop
  /-- `pthread_mutex_lock` in `erofs_mkfs_pop_jobitem`. -/
  | lock {s : DfState J} (hpc : s.worker = .lock) (hfree : s.owner = none) :
    DfStep s { s with worker := .locked, owner := some .worker }
  /-- The queue is empty: `q->idle` is set, `q->drain` signalled, and the worker sleeps. -/
  | wait {s : DfState J} (hpc : s.worker = .locked) (hempty : s.q.IsEmpty) :
    DfStep s { s with
      q := { s.q with idle := true }
      producer := s.producer.signalDrain
      worker := .asleep
      owner := none }
  /-- `pthread_cond_wait` takes the mutex again. -/
  | relock {s : DfState J} (hpc : s.worker = .woken) (hfree : s.owner = none) :
    DfStep s { s with worker := .locked, owner := some .worker }
  /-- The worker gets an item; its slot is free for the main thread from here on. -/
  | pop {s : DfState J} (hpc : s.worker = .locked) (hitem : ¬ s.q.IsEmpty) :
    DfStep s { s with
      q := s.q.popJobitem
      producer := s.producer.signalFull
      worker := .run s.q.head
      owner := none
      taken := s.taken + 1 }
  /-- The worker is done with the item that is in its slot then: `erofs_mkfs_jobfn` has returned,
  or there was nothing to call. -/
  | ran {s : DfState J} {slot : ℕ} {ret : ℤ} (hpc : s.worker = .run slot)
      (hstop : stop (s.q.queue slot) → ret = 0) :
    DfStep s { s with
      worker := if stop (s.q.queue slot) ∨ ret ≠ 0 then .exited else .lock
      ran := s.ran ++ [(s.q.queue slot, ret)] }
  /-- The main thread calls `erofs_mkfs_go`. -/
  | go {s : DfState J} (item : J) (hpc : s.producer = .idle) :
    DfStep s { s with producer := .goLock item }
  | goLock {s : DfState J} {item : J} (hpc : s.producer = .goLock item) (hfree : s.owner = none) :
    DfStep s { s with producer := .goLocked item, owner := some .producer }
  /-- `pthread_cond_wait(&q->full, &q->lock)`. -/
  | goWait {s : DfState J} {item : J} (hpc : s.producer = .goLocked item) (hfull : s.q.IsFull) :
    DfStep s { s with producer := .goAsleep item, owner := none }
  | goRelock {s : DfState J} {item : J} (hpc : s.producer = .goWoken item)
      (hfree : s.owner = none) :
    DfStep s { s with producer := .goLocked item, owner := some .producer }
  /-- The item is put into the ring. Behind the item that ends the worker comes `pthread_join`. -/
  | insert {s : DfState J} {item : J} (hpc : s.producer = .goLocked item)
      (hroom : ¬ s.q.IsFull) :
    DfStep s { s with
      q := s.q.go item
      producer := if stop item then .joining else .idle
      worker := s.worker.signalEmpty
      owner := none
      queued := s.queued ++ [item] }
  /-- The main thread calls `erofs_mkfs_flushjobs`. -/
  | flush {s : DfState J} (hpc : s.producer = .idle) :
    DfStep s { s with producer := .flushLock }
  | flushLock {s : DfState J} (hpc : s.producer = .flushLock) (hfree : s.owner = none) :
    DfStep s { s with producer := .flushLocked, owner := some .producer }
  | flushIdle {s : DfState J} (hpc : s.producer = .flushLocked) (hidle : s.q.idle = true) :
    DfStep s { s with producer := .flushed, owner := none }
  /-- `pthread_cond_wait(&q->drain, &q->lock)`. -/
  | flushWait {s : DfState J} (hpc : s.producer = .flushLocked) (hidle : s.q.idle = false) :
    DfStep s { s with producer := .flushAsleep, owner := none }
  | flushRelock {s : DfState J} (hpc : s.producer = .flushWoken) (hfree : s.owner = none) :
    DfStep s { s with producer := .flushRelocked, owner := some .producer }
  /-- There is no loop around the wait. -/
  | flushUnlock {s : DfState J} (hpc : s.producer = .flushRelocked) :
    DfStep s { s with producer := .flushed, owner := none }
  /-- The caller of `erofs_mkfs_flushjobs` goes on. -/
  | resume {s : DfState J} (hpc : s.producer = .flushed) :
    DfStep s { s with producer := .idle }
  /-- `pthread_join`. -/
  | join {s : DfState J} (hpc : s.producer = .joining) (hexit : s.worker = .exited) :
    DfStep s { s with producer := .joined }

/-- A spurious wake-up; `allow` are the states in which the wait of `erofs_mkfs_flushjobs` may end
so. -/
inductive DfSpurious (allow : DfState J → Prop) : DfState J → DfState J → Prop
  | worker {s : DfState J} (hpc : s.worker = .asleep) :
    DfSpurious allow s { s with worker := .woken }
  | go {s : DfState J} {item : J} (hpc : s.producer = .goAsleep item) :
    DfSpurious allow s { s with producer := .goWoken item }
  | flush {s : DfState J} (hpc : s.producer = .flushAsleep) (hallow : allow s) :
    DfSpurious allow s { s with producer := .flushWoken }

/-- The queue of `erofs_mkfs_build_tree` when both threads run; `memory` is what is in the slots.
`EROFS_MT_QUEUE_SIZE` is `2 ^ (6 + 1)`. -/
def DfState.init (bits : ℕ) (memory : ℕ → J) : DfState J where
  q := ⟨memory, 2 ^ (bits + 1), 0, 0, false⟩
  owner := none
  producer := .idle
  worker := .lock
  queued := []
  taken := 0
  ran := []

inductive DfReach (allow : DfState J → Prop) (bits : ℕ) : DfState J → Prop
  | init (memory : ℕ → J) : DfReach allow bits (.init bits memory)
  | step {s s' : DfState J} (hs : DfReach allow bits s) (hstep : DfStep stop s s') :
    DfReach allow bits s'
  | spurious {s s' : DfState J} (hs : DfReach allow bits s) (hwake : DfSpurious allow s s') :
    DfReach allow bits s'

end Steps

end ErofsUtils
