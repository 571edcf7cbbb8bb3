import Mathlib.Data.List.Basic
import ErofsUtils.ByteMemory

/-!
# The shared compression context

`g_ictx` of `compress.c`: the scanning thread takes it in `erofs_begin_compressed_file` and the
job thread gives it back at the end of `erofs_write_compressed_file`. The threads are interleaved
at the calls of the pthread library and at the places where they touch the context; a sleeping
thread may wake up at any time. Files that get a context of their own are left out.
-/

namespace ErofsUtils

/-- What one call of `erofs_begin_compressed_file` is about: its number, the inode, the
descriptor, the offset and the compression that is configured for the inode. -/
structure BeginArgs where
  id : ℕ
  inode : ℕ
  fd : ℤ
  fpos : ℕ
  ccfg : ℕ

/-- `struct z_erofs_compress_ictx`. An extent is the number of the call whose file it is from. -/
structure CompressIctx where
  inode : ℕ
  ccfg : ℕ
  fd : ℤ
  fpos : ℕ
  tofChksum : ℕ
  fixDedupedfrag : Bool
  fragemitted : Bool
  extents : List ℕ
  segNum : ℕ

/-- Where the scanning thread is in `erofs_begin_compressed_file`: outside, around the wait for
`g_ictx.seg_num`, or at the assignments that follow. -/
inductive ScanPc
  | idle
  | lock (f : BeginArgs)
  | locked (f : BeginArgs)
  | asleep (f : BeginArgs)
  | woken (f : BeginArgs)
  | relocked (f : BeginArgs)
  | setFd (f : BeginArgs)
  | dedupe (f : BeginArgs)
  | setInode (f : BeginArgs)
  | pack (f : BeginArgs)

/-- Where the job thread is in `erofs_write_compressed_file`: outside, in front of
`erofs_balloc`, at the segment, at `erofs_commit_compressed_file`, or at the end of the call. -/
inductive WritePc
  | idle
  | start (f : BeginArgs)
  | segment (f : BeginArgs)
  | commit (f : BeginArgs)
  | out (f : BeginArgs)

namespace ScanPc

def Holds : ScanPc → Prop
  | locked _ | relocked _ => True
  | _ => False

/-- `pthread_cond_signal(&ictx->cond)`. -/
def signal : ScanPc → ScanPc
  | asleep f => woken f
  | pc => pc

/-- The file for which the context has been taken. -/
def user : ScanPc → List BeginArgs
  | setFd f | dedupe f | setInode f | pack f => [f]
  | idle | lock _ | locked _ | asleep _ | woken _ | relocked _ => []

end ScanPc

def WritePc.user : WritePc → List BeginArgs
  | start f | segment f | commit f | out f => [f]
  | idle => []

/-- The context with its threads. The files between the two calls are in `handed`; each file that
reaches `erofs_commit_compressed_file` is written down with the context as it is then. -/
structure IctxState where
  g : CompressIctx
  scan : ScanPc
  handed : List BeginArgs
  write : WritePc
  committed : List (BeginArgs × CompressIctx)

namespace IctxState

/-- The files between the begin and the end of their use of the context. -/
def users (s : IctxState) : List BeginArgs := s.scan.user ++ s.handed ++ s.write.user

end IctxState

inductive IctxStep : IctxState → IctxState → Prop
  /-- The scanning thread calls `erofs_begin_compressed_file`. -/
  | begin {s : IctxState} (f : BeginArgs) (hpc : s.scan = .idle) :
    IctxStep s { s with scan := .lock f }
  | lock {s : IctxState} {f : BeginArgs} (hpc : s.scan = .lock f) :
    IctxStep s { s with scan := .locked f }
  /-- `pthread_cond_wait(&g_ictx.cond, &g_ictx.mutex)`. -/
  | wait {s : IctxState} {f : BeginArgs} (hpc : s.scan = .locked f) (hused : s.g.segNum ≠ 0) :
    IctxStep s { s with scan := .asleep f }
  | take {s : IctxState} {f : BeginArgs} (hpc : s.scan = .locked f) (hfree : s.g.segNum = 0) :
    IctxStep s { s with g := { s.g with segNum := 1 }, scan := .setFd f }
  | relock {s : IctxState} {f : BeginArgs} (hpc : s.scan = .woken f) :
    IctxStep s { s with scan := .relocked f }
  /-- Behind the wait there is no other look at `seg_num`. -/
  | retake {s : IctxState} {f : BeginArgs} (hpc : s.scan = .relocked f) :
    IctxStep s { s with g := { s.g with segNum := 1 }, scan := .setFd f }
  | setFd {s : IctxState} {f : BeginArgs} (hpc : s.scan = .setFd f) :
    IctxStep s { s with g := { s.g with fd := f.fd, ccfg := f.ccfg }, scan := .dedupe f }
  /-- `z_erofs_fragments_dedupe`, if it is called. -/
  | dedupe {s : IctxState} {f : BeginArgs} (hpc : s.scan = .dedupe f) (chksum : ℕ) :
    IctxStep s { s with g := { s.g with tofChksum := chksum }, scan := .setInode f }
  /-- An error of `z_erofs_fragments_dedupe`: the call returns without giving the context back. -/
  | dedupeError {s : IctxState} {f : BeginArgs} (hpc : s.scan = .dedupe f) (chksum : ℕ) :
    IctxStep s { s with g := { s.g with tofChksum := chksum }, scan := .idle }
  | setInode {s : IctxState} {f : BeginArgs} (hpc : s.scan = .setInode f) :
    IctxStep s { s with
      g := { s.g with
        inode := f.inode, fpos := f.fpos, extents := [], fixDedupedfrag := false,
        fragemitted := false }
      scan := .pack f }
  /-- The call returns, behind `z_erofs_pack_file_from_fd` if that is called, and the file is
  queued for the job thread. -/
  | hand {s : IctxState} {f : BeginArgs} (hpc : s.scan = .pack f) :
    IctxStep s { s with scan := .idle, handed := s.handed ++ [f] }
  /-- An error of `z_erofs_pack_file_from_fd`. -/
  | packError {s : IctxState} {f : BeginArgs} (hpc : s.scan = .pack f) :
    IctxStep s { s with scan := .idle }
  /-- The job thread calls `erofs_write_compressed_file`. -/
  | start {s : IctxState} {f : BeginArgs} {rest : List BeginArgs} (hpc : s.write = .idle)
      (hhanded : s.handed = f :: rest) :
    IctxStep s { s with handed := rest, write := .start f }
  /-- An error of `erofs_balloc`. -/
  | startError {s : IctxState} {f : BeginArgs} (hpc : s.write = .start f) :
    IctxStep s { s with write := .out f }
  | setSegNum {s : IctxState} {f : BeginArgs} (hpc : s.write = .start f) :
    IctxStep s { s with g := { s.g with segNum := 1 }, write := .segment f }
  /-- `z_erofs_compress_segment` and `list_splice_tail`: `n` extents. -/
  | segment {s : IctxState} {f : BeginArgs} (hpc : s.write = .segment f) (n : ℕ)
      (fix emitted : Bool) :
    IctxStep s { s with
      g := { s.g with
        extents := s.g.extents ++ List.replicate n f.id, fixDedupedfrag := fix,
        fragemitted := emitted }
      write := .commit f }
  /-- An error of `z_erofs_compress_segment`. -/
  | segmentError {s : IctxState} {f : BeginArgs} (hpc : s.write = .segment f)
      (fix emitted : Bool) :
    IctxStep s { s with
      g := { s.g with fixDedupedfrag := fix, fragemitted := emitted }, write := .out f }
  /-- `erofs_commit_compressed_file`. -/
  | commit {s : IctxState} {f : BeginArgs} (hpc : s.write = .commit f) :
    IctxStep s { s with write := .out f, committed := s.committed ++ [(f, s.g)] }
  /-- The context is given back under the mutex, and `ictx->cond` is signalled. -/
  | out {s : IctxState} {f : BeginArgs} (hpc : s.write = .out f) (hfree : ¬ s.scan.Holds) :
    IctxStep s { s with
      g := { s.g with segNum := 0 }, scan := s.scan.signal, write := .idle }

/-- A spurious wake-up, in a state that `allow` admits. -/
inductive IctxSpurious (allow : IctxState → Prop) : IctxState → IctxState → Prop
  | wake {s : IctxState} {f : BeginArgs} (hpc : s.scan = .asleep f) (hallow : allow s) :
    IctxSpurious allow s { s with scan := .woken f }

/-- `g_ictx` before it is used; it is a static object. -/
def IctxState.init : IctxState where
  g := ⟨0, 0, 0, 0, 0, false, false, [], 0⟩
  scan := .idle
  handed := []
  write := .idle
  committed := []

inductive IctxReach (allow : IctxState → Prop) : IctxState → Prop
  | init : IctxReach allow .init
  | step {s s' : IctxState} (hs : IctxReach allow s) (hstep : IctxStep s s') :
    IctxReach allow s'
  | spurious {s s' : IctxState} (hs : IctxReach allow s) (hwake : IctxSpurious allow s s') :
    IctxReach allow s'

structure CompressIctx.Own (g : CompressIctx) (f : BeginArgs) : Prop where
  fd : g.fd = f.fd
  ccfg : g.ccfg = f.ccfg
  inode : g.inode = f.inode
  fpos : g.fpos = f.fpos
  extents : ∀ e ∈ g.extents, e = f.id

namespace IctxState

variable {s s' : IctxState}

def Waited (s : IctxState) : Prop :=
  (∃ f, s.scan = .woken f) ∨ ∃ f, s.scan = .relocked f

structure Filled (s : IctxState) : Prop where
  scanFd : ∀ f, s.scan = .dedupe f ∨ s.scan = .setInode f → s.g.fd = f.fd ∧ s.g.ccfg = f.ccfg
  scanAll : ∀ f, s.scan = .pack f → s.g.Own f
  handed : ∀ f ∈ s.handed, s.g.Own f
  write : ∀ f, s.write = .start f ∨ s.write = .segment f ∨ s.write = .commit f → s.g.Own f

/-- One file at a time uses the context, and `seg_num` shows it. -/
structure Exclusive (s : IctxState) : Prop where
  one : s.users.length ≤ 1
  segNum : s.users ≠ [] → s.g.segNum ≠ 0
  waited : s.Waited → s.users = []
  filled : s.Filled
  committed : ∀ r ∈ s.committed, r.2.Own r.1

/-- While the scanning thread uses the context nobody else does. -/
theorem Exclusive.of_scan (h : s.Exclusive) {f : BeginArgs} (hf : s.scan.user = [f]) :
    s.handed = [] ∧ s.write = .idle := by
  have hone := h.one
  rw [users, hf, List.length_append, List.length_append, List.length_singleton] at hone
  have hhanded : s.handed.length = 0 := by omega
  have hwrite : s.write.user.length = 0 := by omega
  refine ⟨List.length_eq_zero_iff.mp hhanded, ?_⟩
  cases hw : s.write with
  | idle => rfl
  | start | segment | commit | out =>
    rw [hw] at hwrite
    cases hwrite

/-- While the job thread uses the context nobody else does. -/
theorem Exclusive.of_write (h : s.Exclusive) {f : BeginArgs} (hf : s.write.user = [f]) :
    s.scan.user = [] ∧ s.handed = [] := by
  have hone := h.one
  rw [users, hf, List.length_append, List.length_append, List.length_singleton] at hone
  have hscan : s.scan.user.length = 0 := by omega
  have hhanded : s.handed.length = 0 := by omega
  exact ⟨List.length_eq_zero_iff.mp hscan, List.length_eq_zero_iff.mp hhanded⟩

theorem users_eq_nil : s.users = [] ↔ s.scan.user = [] ∧ s.handed = [] ∧ s.write = .idle := by
  rw [users, List.append_eq_nil_iff, List.append_eq_nil_iff, and_assoc]
  refine and_congr_right fun _ => and_congr_right fun _ => ?_
  cases s.write <;> simp [WritePc.user]

theorem user_signal (pc : ScanPc) : pc.signal.user = pc.user := by
  cases pc <;> rfl

/-- A scanning thread that uses the context is at none of the other places. -/
theorem scan_eq_of_user {pc : ScanPc} {f : BeginArgs}
    (hpc : pc = .setFd f ∨ pc = .dedupe f ∨ pc = .setInode f ∨ pc = .pack f) : pc.user = [f] := by
  rcases hpc with rfl | rfl | rfl | rfl <;> rfl

theorem not_waited {f : BeginArgs} (hf : s.scan.user = [f]) : ¬ s.Waited := by
  rintro (⟨f', hpc⟩ | ⟨f', hpc⟩) <;> rw [hpc] at hf <;> cases hf

theorem exclusive_nil (husers : s.users = []) (hc : ∀ r ∈ s.committed, r.2.Own r.1) :
    s.Exclusive := by
  obtain ⟨hscan, hhanded, hwrite⟩ := users_eq_nil.mp husers
  refine ⟨by simp [husers], fun hne => absurd husers hne, fun _ => husers, ?_, hc⟩
  constructor
  · rintro f (hpc | hpc) <;> rw [hpc] at hscan <;> cases hscan
  · intro f hpc
    rw [hpc] at hscan
    cases hscan
  · simp [hhanded]
  · simp [hwrite]

theorem exclusive_scan {f : BeginArgs} (hscan : s.scan.user = [f]) (hhanded : s.handed = [])
    (hwrite : s.write = .idle) (hseg : s.g.segNum ≠ 0)
    (hfd : s.scan = .dedupe f ∨ s.scan = .setInode f → s.g.fd = f.fd ∧ s.g.ccfg = f.ccfg)
    (hall : s.scan = .pack f → s.g.Own f) (hc : ∀ r ∈ s.committed, r.2.Own r.1) :
    s.Exclusive := by
  have hself : ∀ {f' : BeginArgs}, s.scan.user = [f'] → f' = f := by
    intro f' hf'
    rw [hscan] at hf'
    cases hf'
    rfl
  refine ⟨?_, fun _ => hseg, fun hw => absurd hw (not_waited hscan), ?_, hc⟩
  · simp [users, hscan, hhanded, hwrite, WritePc.user]
  · constructor
    · intro f' hpc
      obtain rfl := hself (scan_eq_of_user (by tauto))
      exact hfd hpc
    · intro f' hpc
      obtain rfl := hself (scan_eq_of_user (by tauto))
      exact hall hpc
    · simp [hhanded]
    · simp [hwrite]

/-- The job thread uses the context, or is about to. -/
theorem exclusive_write {f : BeginArgs} (hscan : s.scan.user = [])
    (hjob : s.handed = [f] ∧ s.write = .idle ∨ s.handed = [] ∧ s.write.user = [f])
    (hwaited : ¬ s.Waited) (hseg : s.g.segNum ≠ 0) (hown : s.write = .out f ∨ s.g.Own f)
    (hc : ∀ r ∈ s.committed, r.2.Own r.1) : s.Exclusive := by
  refine ⟨?_, fun _ => hseg, fun hw => absurd hw hwaited, ?_, hc⟩
  · rcases hjob with ⟨hhanded, hwrite⟩ | ⟨hhanded, hwrite⟩
    · simp [users, hscan, hhanded, hwrite, WritePc.user]
    · simp [users, hscan, hhanded, hwrite]
  · constructor
    · rintro f' (hpc | hpc) <;> rw [hpc] at hscan <;> cases hscan
    · intro f' hpc
      rw [hpc] at hscan
      cases hscan
    · intro f' hf'
      rcases hjob with ⟨hhanded, hwrite⟩ | ⟨hhanded, -⟩
      · rw [hhanded, List.mem_singleton] at hf'
        subst hf'
        rw [hwrite] at hown
        exact hown.resolve_left (by simp)
      · simp [hhanded] at hf'
    · intro f' hpc
      rcases hjob with ⟨-, hwrite⟩ | ⟨-, hwrite⟩
      · rcases hpc with hpc | hpc | hpc <;> rw [hwrite] at hpc <;> cases hpc
      · obtain rfl : f' = f := by
          rcases hpc with hpc | hpc | hpc <;> rw [hpc] at hwrite <;> cases hwrite <;> rfl
        apply hown.resolve_left
        rcases hpc with hpc | hpc | hpc <;> simp [hpc]

/-- The scanning thread moves while it does not use the context. -/
theorem Exclusive.move (h : s.Exclusive) {pc : ScanPc} (hscan : s.scan.user = [])
    (hpc : pc.user = []) (hwaited : Waited { s with scan := pc } → s.users = []) :
    Exclusive { s with scan := pc } := by
  have husers : users { s with scan := pc } = s.users := by
    rw [users, users, hscan]
    change pc.user ++ _ ++ _ = _
    rw [hpc]
  refine ⟨?_, ?_, ?_, ?_, h.committed⟩
  · rw [husers]
    exact h.one
  · rw [husers]
    exact h.segNum
  · rw [husers]
    exact hwaited
  · refine ⟨?_, ?_, h.filled.handed, h.filled.write⟩
    · rintro f (hf | hf) <;> change pc = _ at hf <;> rw [hf] at hpc <;> cases hpc
    · intro f hf
      change pc = _ at hf
      rw [hf] at hpc
      cases hpc

/-- The scanning thread takes the context, which nobody uses. -/
theorem Exclusive.take (h : s.Exclusive) (husers : s.users = []) (f : BeginArgs) :
    Exclusive { s with g := { s.g with segNum := 1 }, scan := .setFd f } := by
  obtain ⟨-, hhanded, hwrite⟩ := users_eq_nil.mp husers
  exact exclusive_scan rfl hhanded hwrite one_ne_zero (by simp) (by simp) h.committed

theorem Exclusive.step (h : s.Exclusive) (hstep : IctxStep s s') : s'.Exclusive := by
  cases hstep with
  | begin f hpc => exact h.move (by rw [hpc]; rfl) rfl (by simp [Waited])
  | lock hpc => exact h.move (by rw [hpc]; rfl) rfl (by simp [Waited])
  | wait hpc => exact h.move (by rw [hpc]; rfl) rfl (by simp [Waited])
  | take hpc hfree =>
    refine h.take ?_ _
    by_contra hne
    exact h.segNum hne hfree
  | relock hpc =>
    exact h.move (by rw [hpc]; rfl) rfl fun _ => h.waited (Or.inl ⟨_, hpc⟩)
  | retake hpc => exact h.take (h.waited (Or.inr ⟨_, hpc⟩)) _
  | setFd hpc =>
    obtain ⟨hhanded, hwrite⟩ := h.of_scan (scan_eq_of_user (Or.inl hpc))
    have hseg := h.segNum (by simp [users, hpc, ScanPc.user])
    exact exclusive_scan rfl hhanded hwrite hseg (fun _ => ⟨rfl, rfl⟩) (by simp) h.committed
  | dedupe hpc chksum =>
    obtain ⟨hhanded, hwrite⟩ := h.of_scan (scan_eq_of_user (by tauto))
    have hseg := h.segNum (by simp [users, hpc, ScanPc.user])
    have hfd := h.filled.scanFd _ (Or.inl hpc)
    exact exclusive_scan rfl hhanded hwrite hseg (fun _ => hfd) (by simp) h.committed
  | dedupeError hpc =>
    obtain ⟨hhanded, hwrite⟩ := h.of_scan (scan_eq_of_user (by tauto))
    exact exclusive_nil (users_eq_nil.mpr ⟨rfl, hhanded, hwrite⟩) h.committed
  | setInode hpc =>
    obtain ⟨hhanded, hwrite⟩ := h.of_scan (scan_eq_of_user (by tauto))
    have hseg := h.segNum (by simp [users, hpc, ScanPc.user])
    obtain ⟨hfd, hccfg⟩ := h.filled.scanFd _ (Or.inr hpc)
    exact exclusive_scan rfl hhanded hwrite hseg (by simp)
      (fun _ => ⟨hfd, hccfg, rfl, rfl, by simp⟩) h.committed
  | hand hpc =>
    obtain ⟨hhanded, hwrite⟩ := h.of_scan (scan_eq_of_user (by tauto))
    have hseg := h.segNum (by simp [users, hpc, ScanPc.user])
    exact exclusive_write rfl (Or.inl ⟨by simp [hhanded], hwrite⟩) (by simp [Waited]) hseg
      (Or.inr (h.filled.scanAll _ hpc)) h.committed
  | packError hpc =>
    obtain ⟨hhanded, hwrite⟩ := h.of_scan (scan_eq_of_user (by tauto))
    exact exclusive_nil (users_eq_nil.mpr ⟨rfl, hhanded, hwrite⟩) h.committed
  | @start f rest hpc hhanded =>
    have hone := h.one
    rw [users, hhanded, hpc, List.length_append, List.length_append, List.length_cons] at hone
    have hscan : s.scan.user = [] := List.length_eq_zero_iff.mp (by omega)
    have hrest : rest = [] := List.length_eq_zero_iff.mp (by omega)
    have hused : s.users ≠ [] := by simp [users, hhanded]
    exact exclusive_write hscan (Or.inr ⟨hrest, rfl⟩) (fun hw => hused (h.waited hw))
      (h.segNum hused) (Or.inr (h.filled.handed f (by simp [hhanded]))) h.committed
  | startError hpc =>
    obtain ⟨hscan, hhanded⟩ := h.of_write (by rw [hpc]; rfl)
    have hused : s.users ≠ [] := by simp [users, hpc, WritePc.user]
    exact exclusive_write hscan (Or.inr ⟨hhanded, rfl⟩) (fun hw => hused (h.waited hw))
      (h.segNum hused) (Or.inl rfl) h.committed
  | setSegNum hpc =>
    obtain ⟨hscan, hhanded⟩ := h.of_write (by rw [hpc]; rfl)
    have hused : s.users ≠ [] := by simp [users, hpc, WritePc.user]
    have hown := h.filled.write _ (Or.inl hpc)
    exact exclusive_write hscan (Or.inr ⟨hhanded, rfl⟩) (fun hw => hused (h.waited hw))
      one_ne_zero (Or.inr ⟨hown.fd, hown.ccfg, hown.inode, hown.fpos, hown.extents⟩) h.committed
  | @segment f hpc n fix emitted =>
    obtain ⟨hscan, hhanded⟩ := h.of_write (by rw [hpc]; rfl)
    have hused : s.users ≠ [] := by simp [users, hpc, WritePc.user]
    have hown := h.filled.write _ (Or.inr (Or.inl hpc))
    refine exclusive_write hscan (Or.inr ⟨hhanded, rfl⟩) (fun hw => hused (h.waited hw))
      (h.segNum hused) (Or.inr ⟨hown.fd, hown.ccfg, hown.inode, hown.fpos, ?_⟩) h.committed
    intro e he
    rcases List.mem_append.mp he with he | he
    · exact hown.extents e he
    · exact List.eq_of_mem_replicate he
  | segmentError hpc =>
    obtain ⟨hscan, hhanded⟩ := h.of_write (by rw [hpc]; rfl)
    have hused : s.users ≠ [] := by simp [users, hpc, WritePc.user]
    exact exclusive_write hscan (Or.inr ⟨hhanded, rfl⟩) (fun hw => hused (h.waited hw))
      (h.segNum hused) (Or.inl rfl) h.committed
  | commit hpc =>
    obtain ⟨hscan, hhanded⟩ := h.of_write (by rw [hpc]; rfl)
    have hused : s.users ≠ [] := by simp [users, hpc, WritePc.user]
    have hown := h.filled.write _ (Or.inr (Or.inr hpc))
    refine exclusive_write hscan (Or.inr ⟨hhanded, rfl⟩) (fun hw => hused (h.waited hw))
      (h.segNum hused) (Or.inl rfl) ?_
    intro r hr
    rcases List.mem_append.mp hr with hr | hr
    · exact h.committed r hr
    · rw [List.mem_singleton.mp hr]
      exact hown
  | out hpc =>
    obtain ⟨hscan, hhanded⟩ := h.of_write (by rw [hpc]; rfl)
    exact exclusive_nil (users_eq_nil.mpr ⟨(user_signal _).trans hscan, hhanded, rfl⟩) h.committed

/-- A wake-up is harmless while nobody uses the context. -/
theorem Exclusive.spurious (h : s.Exclusive) (hwake : IctxSpurious (·.users = []) s s') :
    s'.Exclusive := by
  cases hwake with
  | wake hpc hallow => exact h.move (by rw [hpc]; rfl) rfl fun _ => hallow

/-- Under every schedule in which no spurious wake-up ends the wait of
`erofs_begin_compressed_file` while a file uses the context: one file at a time uses it, and each
file is committed with its own inode, descriptor and extents. -/
theorem sharedIctx_exclusive (hs : IctxReach (·.users = []) s) :
    s.users.length ≤ 1 ∧ ∀ r ∈ s.committed, r.2.Own r.1 := by
  have hex : s.Exclusive := by
    induction hs with
    | init => exact exclusive_nil rfl (by simp [init])
    | step _ hstep ih => exact ih.step hstep
    | spurious _ hwake ih => exact ih.spurious hwake
  exact ⟨hex.one, hex.committed⟩

/-- Two files with different descriptors. -/
def firstFile : BeginArgs := ⟨1, 10, 3, 0, 0⟩

def secondFile : BeginArgs := ⟨2, 20, 4, 0, 0⟩

/-- The second file waits until the first one is written. -/
theorem sharedIctx_exclusive_two : ∃ s : IctxState, s.scan = .dedupe secondFile ∧
    s.committed.map Prod.fst = [firstFile] ∧ s.users.length ≤ 1 ∧
      ∀ r ∈ s.committed, r.2.Own r.1 := by
  have h0 : IctxReach (·.users = []) _ := .init
  have h1 := h0.step (.begin firstFile rfl)
  have h2 := h1.step (.lock rfl)
  have h3 := h2.step (.take rfl rfl)
  have h4 := h3.step (.setFd rfl)
  have h5 := h4.step (.dedupe rfl 0)
  have h6 := h5.step (.setInode rfl)
  have h7 := h6.step (.hand rfl)
  have h8 := h7.step (.begin secondFile rfl)
  have h9 := h8.step (.lock rfl)
  have h10 := h9.step (.wait rfl one_ne_zero)
  have h11 := h10.step (.start rfl rfl)
  have h12 := h11.step (.setSegNum rfl)
  have h13 := h12.step (.segment rfl 2 false false)
  have h14 := h13.step (.commit rfl)
  have h15 := h14.step (.out rfl id)
  have h16 := h15.step (.relock rfl)
  have h17 := h16.step (.retake rfl)
  have h18 := h17.step (.setFd rfl)
  exact ⟨_, rfl, rfl, sharedIctx_exclusive h18⟩

/-- The wait ends without a signal, and the first file is written with the descriptor of the
second one. -/
theorem sharedIctx_mixed : ¬ ∀ s : IctxState, IctxReach (fun _ => True) s →
    s.users.length ≤ 1 ∧ ∀ r ∈ s.committed, r.2.Own r.1 := by
  intro h
  have h0 : IctxReach (fun _ => True) _ := .init
  have h1 := h0.step (.begin firstFile rfl)
  have h2 := h1.step (.lock rfl)
  have h3 := h2.step (.take rfl rfl)
  have h4 := h3.step (.setFd rfl)
  have h5 := h4.step (.dedupe rfl 0)
  have h6 := h5.step (.setInode rfl)
  have h7 := h6.step (.hand rfl)
  have h8 := h7.step (.begin secondFile rfl)
  have h9 := h8.step (.lock rfl)
  have h10 := h9.step (.wait rfl one_ne_zero)
  have h11 := h10.spurious (.wake rfl trivial)
  have h12 := h11.step (.relock rfl)
  have h13 := h12.step (.retake rfl)
  have h14 := h13.step (.setFd rfl)
  have h15 := h14.step (.start rfl rfl)
  have h16 := h15.step (.setSegNum rfl)
  have h17 := h16.step (.segment rfl 2 false false)
  have h18 := h17.step (.commit rfl)
  have hown := (h _ h18).2 _ (List.mem_singleton.mpr rfl)
  exact absurd hown.fd (by decide)

end IctxState

end ErofsUtils
