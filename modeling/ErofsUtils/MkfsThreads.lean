import ErofsUtils.BufMgr
import ErofsUtils.MkfsDump

/-!
# The main thread and its worker

A build as a machine: the acts of the walk, in order, and the jobs, which the worker takes from a
queue in the order in which they were issued. Without threads a job runs inside
`erofs_mkfs_go`. Next to the jobs that ran, the machine keeps the reference counts, the buffers
and the nids of the inodes, since both threads change them.
-/

namespace ErofsUtils

/-- `EROFS_MT_QUEUE_SIZE` minus the slot that stays free. -/
def mtQueueRoom : ℕ := 127

/-- Where the buffer heads of inodes are in the image once they are mapped, by the number of their
allocation. Inodes are aligned to `1 << EROFS_ISLOTBITS` bytes. -/
structure InodePos where
  sb : BlockSize
  pos : ℕ → ℕ
  aligned : ∀ k, 32 ∣ pos k
  lt : ∀ k, pos k < 2 ^ 32 * sb.size

/-- The fields of the inodes that the jobs change, with the superblock's `meta_blkaddr` as a byte
offset, the inodes that `erofs_iput` freed and the nids that went into directory blocks. -/
structure InodeTable where
  count : ℕ → ℤ
  bh : ℕ → Option ℕ
  nid : ℕ → ℕ
  nextBh : ℕ
  metaOff : ℕ
  rootNid : ℕ
  freed : List ℕ
  written : List (ℕ × ℕ)

/-- The number of the slot at `off`, over `erofs_off_t`. -/
def nidAt (metaOff off : ℕ) : ℕ := u64 (off + (2 ^ 64 - metaOff)) / 32

namespace InodeTable

variable (p : InodePos) (root : ℕ)

def igrab (t : InodeTable) (x : ℕ) : InodeTable :=
  { t with count := Function.update t.count x (t.count x + 1) }

def iput (t : InodeTable) (x : ℕ) : InodeTable :=
  { t with
    count := Function.update t.count x (t.count x - 1)
    freed := if t.count x - 1 < 1 then x :: t.freed else t.freed }

/-- The part of `erofs_prepare_inode_buffer` that gives the inode its buffer. -/
def prepareInodeBuffer (t : InodeTable) (x : ℕ) : InodeTable :=
  { t.igrab x with bh := Function.update t.bh x (some t.nextBh), nextBh := t.nextBh + 1 }

/-- `erofs_lookupnid`: the nid is computed once there is a buffer. -/
def assignNid (t : InodeTable) (x : ℕ) : InodeTable :=
  match t.bh x with
  | none => t
  | some k =>
    if t.nid x = 0 ∨ 2 ^ 63 ≤ t.nid x then
      { t with nid := Function.update t.nid x (nidAt t.metaOff (p.pos k)) }
    else t

/-- `erofs_lookupnid`: what it returns. -/
def lookupnid (t : InodeTable) (x : ℕ) : ℕ :=
  if x = root ∧ 0xffff < (t.assignNid p x).nid x then t.rootNid else (t.assignNid p x).nid x

def dInvalidate (t : InodeTable) (x : ℕ) : InodeTable :=
  { (t.assignNid p x).iput x with written := (x, t.lookupnid p root x) :: t.written }

/-- `erofs_fixup_meta_blkaddr` and the assignment of `sbi->root_nid`. -/
def fixupMetaBlkaddr (t : InodeTable) : InodeTable :=
  match t.bh root with
  | none => t
  | some k =>
    let off := p.pos k
    let maxoffset := 0xffff * 32
    let metaOffset :=
      if maxoffset < off then (off - maxoffset + (p.sb.size - 1)) / p.sb.size * p.sb.size else 0
    { t with
      metaOff := u32 (metaOffset / p.sb.size) * p.sb.size
      nid := Function.update t.nid root (nidAt metaOffset off)
      rootNid := nidAt metaOffset off }

end InodeTable

/-- Inodes whose tail is inlined: the buffer of the tail holds another reference. -/
abbrev InlineTail := ℕ → Bool

section Jobs

variable (env : MkfsEnv) (p : InodePos) (root : ℕ) (inlined : InlineTail)

/-- `erofs_write_tail_end` as far as references go. -/
def writeTailEnd (t : InodeTable) (x : ℕ) : InodeTable := if inlined x then t.igrab x else t

def runJob (t : InodeTable) : MkfsJob → InodeTable
  | .ndir x _ _ =>
    if env.ret .prepareInodeBuffer x = 0 then writeTailEnd inlined (t.prepareInodeBuffer x) x else t
  | .dir x => t.prepareInodeBuffer x
  | .dirBh d =>
    (writeTailEnd inlined (d.refs.foldl (fun t x => t.dInvalidate p root x) t) d.ino).iput d.ino
  | .stop => t

/-- The same for a job that may fail; a failed one leaves the inodes alone as far as it matters. -/
def execJob (t : InodeTable) (job : MkfsJob) : InodeTable :=
  if env.jobfn job = 0 then runJob env p root inlined t job else t

def execAct (t : InodeTable) : MkfsAct → InodeTable
  | .load d => d.refs.foldl InodeTable.igrab t
  | .grab x => t.igrab x
  | .flush => t.fixupMetaBlkaddr p root
  | _ => t

end Jobs

/-- The state of a build. `worker` is the value that the worker has left with. -/
structure MkfsRun where
  todo : List MkfsAct
  done : List MkfsAct
  queue : List MkfsJob
  executed : List (MkfsJob × ℤ)
  worker : Option ℤ
  ret : Option ℤ
  inodes : InodeTable

/-- `z_erofs_mt_dfops_worker` goes on after this job. -/
def workerAfter (env : MkfsEnv) : MkfsJob → Option ℤ
  | .stop => some 0
  | job => if env.jobfn job = 0 then none else some (env.jobfn job)

section Machine

variable (env : MkfsEnv) (p : InodePos) (root : ℕ) (inlined : InlineTail)

/-- The acts that are not calls of `erofs_mkfs_go` or `erofs_mkfs_flushjobs`. -/
def MkfsAct.Plain : MkfsAct → Prop
  | .go _ _ => False
  | .flush => False
  | _ => True

/-- One step of the threaded build; `err` is what the walk has returned. -/
inductive MtStep (err : ℤ) : MkfsRun → MkfsRun → Prop
  /-- The main thread goes on. -/
  | act {s : MkfsRun} {a : MkfsAct} {rest : List MkfsAct} (htodo : s.todo = a :: rest)
      (hplain : a.Plain) :
    MtStep err s { s with
      todo := rest, done := a :: s.done, inodes := execAct p root s.inodes a }
  /-- `erofs_mkfs_go` waits while the queue is full. -/
  | go {s : MkfsRun} {job : MkfsJob} {e : ℤ} {rest : List MkfsAct}
      (htodo : s.todo = .go job e :: rest) (hroom : s.queue.length < mtQueueRoom) :
    MtStep err s { s with todo := rest, done := .go job e :: s.done, queue := s.queue ++ [job] }
  /-- `erofs_mkfs_flushjobs` waits for a worker that sleeps on an empty queue. -/
  | flush {s : MkfsRun} {rest : List MkfsAct} (htodo : s.todo = .flush :: rest)
      (hqueue : s.queue = []) (hworker : s.worker = none) :
    MtStep err s { s with
      todo := rest, done := .flush :: s.done, inodes := execAct p root s.inodes .flush }
  /-- The worker runs the next job. -/
  | pop {s : MkfsRun} {job : MkfsJob} {q : List MkfsJob} (hworker : s.worker = none)
      (hqueue : s.queue = job :: q) :
    MtStep err s { s with
      queue := q, executed := (job, env.jobfn job) :: s.executed
      worker := workerAfter env job, inodes := execJob env p root inlined s.inodes job }
  /-- `pthread_join` with a null pointer for the value of the thread. -/
  | join {s : MkfsRun} {r : ℤ} (htodo : s.todo = []) (hworker : s.worker = some r)
      (hret : s.ret = none) :
    MtStep err s { s with ret := some err }

inductive StStep (err : ℤ) : MkfsRun → MkfsRun → Prop
  | act {s : MkfsRun} {a : MkfsAct} {rest : List MkfsAct} (htodo : s.todo = a :: rest)
      (hact : a.Plain ∨ a = .flush) :
    StStep err s { s with
      todo := rest, done := a :: s.done, inodes := execAct p root s.inodes a }
  /-- `erofs_mkfs_go` runs the job itself. -/
  | go {s : MkfsRun} {job : MkfsJob} {e : ℤ} {rest : List MkfsAct}
      (htodo : s.todo = .go job e :: rest) :
    StStep err s { s with
      todo := rest, done := .go job e :: s.done
      executed := (job, env.jobfn job) :: s.executed
      inodes := execJob env p root inlined s.inodes job }
  | ret {s : MkfsRun} (htodo : s.todo = []) (hret : s.ret = none) :
    StStep err s { s with ret := some err }

end Machine

section Build

variable (env : MkfsEnv) (t : SourceTree)

/-- The walk of the threaded build, where `erofs_mkfs_go` always returns 0. -/
def mtDump : DumpState × ℤ := dumpTree (fun _ => 0) env t.root

/-- The walk of the build without threads. -/
def stDump : DumpState × ℤ := dumpTree env.jobfn env t.root

/-- The inodes before the build: only the root exists in a build from a path, and a rebuild gets
its references from the dentries that are loaded first. -/
def initTable (metaOff rootNid : ℕ) : InodeTable where
  count x := if x = t.root.ino then 1 else 0
  bh _ := none
  nid _ := 0
  nextBh := 0
  metaOff := metaOff
  rootNid := rootNid
  freed := []
  written := []

/-- The threaded build ends its queue with the item that stops the worker. -/
def mtInit (metaOff rootNid : ℕ) : MkfsRun where
  todo := (mtDump env t).1.log.reverse ++ [.go .stop 0]
  done := []
  queue := []
  executed := []
  worker := none
  ret := none
  inodes := initTable t metaOff rootNid

def stInit (metaOff rootNid : ℕ) : MkfsRun where
  todo := (stDump env t).1.log.reverse
  done := []
  queue := []
  executed := []
  worker := none
  ret := none
  inodes := initTable t metaOff rootNid

/-- The states of the threaded build under all schedules. -/
inductive MtReach (p : InodePos) (inlined : InlineTail) (metaOff rootNid : ℕ) : MkfsRun → Prop
  | init : MtReach p inlined metaOff rootNid (mtInit env t metaOff rootNid)
  | step {s s' : MkfsRun} (hs : MtReach p inlined metaOff rootNid s)
      (hstep : MtStep env p t.root.ino inlined (mtDump env t).2 s s') :
    MtReach p inlined metaOff rootNid s'

/-- The states of the build without threads. -/
inductive StReach (p : InodePos) (inlined : InlineTail) (metaOff rootNid : ℕ) : MkfsRun → Prop
  | init : StReach p inlined metaOff rootNid (stInit env t metaOff rootNid)
  | step {s s' : MkfsRun} (hs : StReach p inlined metaOff rootNid s)
      (hstep : StStep env p t.root.ino inlined (stDump env t).2 s s') :
    StReach p inlined metaOff rootNid s'

end Build

end ErofsUtils
