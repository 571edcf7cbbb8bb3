import ErofsUtils.ChunkIndexes
import Mathlib.Data.List.Induction

/-!
# What the block lists say about chunks

The extents that `erofs_blob_write_chunk_indexes` reports against the runs of primary blocks of the
file. The blocks of holes and of chunks on extra devices stay in the count of the blocks that are
left, which cuts the last extent, and a chunk on an extra device takes the place of the extent that
is open in front of it.
-/

namespace ErofsUtils
open ByteMemory BlockRuns

namespace ChunkInode

section Spec

variable (inode : ChunkInode) (remappedBase : ℕ)

def chunkBlocks (chunk : BlobChunk) : List (Option ℕ) :=
  if chunk.IsHole ∨ chunk.OnDevice then List.replicate inode.chunkblks none
  else stretch (remappedBase + chunk.blkaddr) inode.chunkblks

def fileBlocks : List (Option ℕ) :=
  (inode.chunks.flatMap (inode.chunkBlocks remappedBase)).take inode.blocks

def fileRuns : List Run := runs none 0 (inode.fileBlocks remappedBase)

def otherBlocks : ℕ := (inode.fileBlocks remappedBase).count none

/-- The last run is cut where the file ends: `remaining_blks` still has the other blocks in it. -/
def CutsAtEnd (r : Run) : Prop :=
  u32 (r.len + inode.otherBlocks remappedBase) = r.len ∨
    inode.chunkblks ∣ inode.blocks ∧ r.len ≤ u32 (r.len + inode.otherBlocks remappedBase) ∧
      r.start + u32 (r.len + inode.otherBlocks remappedBase) < 2 ^ 32

/-- No chunk is on an extra device, and the last one is a hole or its run is cut right. -/
def ListsPrimary : Prop :=
  (∀ c ∈ inode.chunks, ¬ c.OnDevice) ∧
    ((∃ c ∈ inode.chunks.getLast?, ¬ c.IsHole) →
      ∀ r ∈ (inode.fileRuns remappedBase).getLast?, inode.CutsAtEnd remappedBase r)

/-- The chunks behind the last hole are all on extra devices, those in front of it none, and 32 bits
of `remaining_blks` come out as zero. -/
def ListsWrapped : Prop :=
  ∃ front devs, inode.chunks = front ++ devs ∧ devs ≠ [] ∧ (∀ c ∈ front, ¬ c.OnDevice) ∧
    (∀ c ∈ devs, c.OnDevice) ∧ (∀ c ∈ front.getLast?, c.IsHole) ∧
    u32 (inode.otherBlocks remappedBase) = 0

def chunkAddr (chunk : BlobChunk) : ℕ :=
  if chunk.deviceId ≠ 0 then chunk.blkaddr else remappedBase + chunk.blkaddr

/-- An inode as its makers leave it: as many chunks as the file needs, below the last address of
32 bits. -/
structure Valid : Prop where
  size : inode.extentIsize = inode.unit * inode.chunkCount
  enough : inode.blocks ≤ inode.chunkCount * inode.chunkblks
  needed : inode.chunkCount * inode.chunkblks < inode.blocks + inode.chunkblks
  inside : ∀ c ∈ inode.chunks, ¬ c.IsHole → chunkAddr remappedBase c + inode.chunkblks < erofsNullAddr

end Spec

section Turn

variable {inode : ChunkInode} {remappedBase : ℕ} {s : IndexState}

def pending (s : IndexState) : Option Run :=
  if s.extentStart = erofsNullAddr then none
  else some ⟨s.extentPos, s.extentStart, s.extentEnd - s.extentStart⟩

/-- An open extent has blocks, and its end is no hole. -/
def Sane (s : IndexState) : Prop :=
  s.extentStart ≠ erofsNullAddr → s.extentStart < s.extentEnd ∧ s.extentEnd < erofsNullAddr

theorem chunkblks_pos (inode : ChunkInode) : 0 < inode.chunkblks := Nat.two_pow_pos _

/-- What is left of the blocks when `rs` have been reported. -/
def Counted (blocks : ℕ) (s : IndexState) : Prop :=
  s.remainingBlks < 2 ^ 32 ∧
    (s.remainingBlks + (s.reported.map (·.run.len)).sum) % 2 ^ 32 = blocks % 2 ^ 32

/-- What a turn leaves: the runs that are reported and the one that is open then. -/
structure TurnsTo (blocks : ℕ) (s s' : IndexState) (rs : List Run) (p : Option Run) : Prop where
  reported : s'.reported.map (·.run) = s.reported.map (·.run) ++ rs
  pending : pending s' = p
  sane : Sane s'
  counted : Counted blocks s'

theorem sub32_len (hsane : Sane s) (hs : s.extentStart ≠ erofsNullAddr) :
    sub32 s.extentEnd s.extentStart = s.extentEnd - s.extentStart := by
  have h := hsane hs
  rw [erofsNullAddr] at h
  exact sub32_of_le (by omega) (by omega)

theorem Counted.report {blocks : ℕ} (hc : Counted blocks s) {n : ℕ} (hn : n < 2 ^ 32) :
    sub32 s.remainingBlks n < 2 ^ 32 ∧
      (sub32 s.remainingBlks n + ((s.reported.map (·.run.len)).sum + n)) % 2 ^ 32 =
        blocks % 2 ^ 32 := by
  obtain ⟨hlt, heq⟩ := hc
  unfold sub32
  omega

variable {k : ℕ} {c : BlobChunk} {blocks : ℕ}

def Reads (inode : ChunkInode) (s : IndexState) (k : ℕ) (c : BlobChunk) : Prop :=
  inode.chunkAt (leNat s.chunkindexes (8 * k) 8) = c

theorem indexTurn_hole (hread : Reads inode s k c) (hole : c.IsHole) (hsane : Sane s)
    (hcount : Counted blocks s) :
    TurnsTo blocks s (inode.indexTurn remappedBase k s) (pending s).toList none := by
  have hdev : ¬ c.OnDevice := fun h => h.1 hole
  have hidx : idxBlkaddr remappedBase c = erofsNullAddr := if_pos hole
  rw [Reads] at hread
  by_cases hs : s.extentStart = erofsNullAddr
  · have hp : pending s = none := if_pos hs
    rw [indexTurn, hread, hp]
    simp only [if_neg hdev, hs, hidx, true_or, if_true, ne_eq, not_true_eq_false, if_false]
    exact ⟨by simp, if_pos rfl, fun h => absurd rfl h, hcount⟩
  · have hp : pending s = some ⟨s.extentPos, s.extentStart, s.extentEnd - s.extentStart⟩ := if_neg hs
    have hne : erofsNullAddr ≠ s.extentEnd := Nat.ne_of_gt (hsane hs).2
    have hlen := sub32_len hsane hs
    have hsm := hsane hs
    rw [erofsNullAddr] at hsm
    have hn : s.extentEnd - s.extentStart < 2 ^ 32 := by omega
    rw [indexTurn, hread, hp]
    simp only [if_neg hdev, hs, hidx, hne, false_or, if_true, ne_eq, not_false_eq_true, hlen]
    refine ⟨by simp, if_pos rfl, fun h => absurd rfl h, ?_⟩
    simpa [Counted] using hcount.report hn

theorem begin_extent {a : ℕ} (hin : a + inode.chunkblks < erofsNullAddr) {s' : IndexState}
    (hstart : s'.extentStart = a) (hend : s'.extentEnd = u32 (a + inode.chunkblks)) :
    pending s' = some ⟨s'.extentPos, a, inode.chunkblks⟩ ∧ Sane s' := by
  have hpos := chunkblks_pos inode
  have hu : u32 (a + inode.chunkblks) = a + inode.chunkblks := by
    rw [erofsNullAddr] at hin
    exact Nat.mod_eq_of_lt (by omega)
  rw [hu] at hend
  constructor
  · rw [pending, hstart, hend, if_neg (by omega), Nat.add_sub_cancel_left]
  · intro _
    rw [hstart, hend]
    omega

theorem indexTurn_device (hread : Reads inode s k c) (hdev : c.OnDevice)
    (hin : c.blkaddr + inode.chunkblks < erofsNullAddr) (hcount : Counted blocks s) :
    TurnsTo blocks s (inode.indexTurn remappedBase k s) []
      (some ⟨k * inode.chunkblks, c.blkaddr, inode.chunkblks⟩) := by
  have hidx : idxBlkaddr remappedBase c = c.blkaddr := by
    have hole : ¬ c.IsHole := hdev.1
    rw [idxBlkaddr, if_neg hole, if_pos hdev.2]
  rw [Reads] at hread
  rw [indexTurn, hread]
  simp only [if_pos hdev, hidx, true_or, if_true, ne_eq, not_true_eq_false, if_false]
  obtain ⟨hp, hsane⟩ := @begin_extent inode _ hin
    { s with
      chunkindexes := store s.chunkindexes (inode.unit * k) (inode.encodeIndex remappedBase c)
      extentStart := c.blkaddr
      extentEnd := u32 (c.blkaddr + inode.chunkblks)
      sourceOffset := c.sourceoffset
      extentPos := k * inode.chunkblks } rfl rfl
  exact ⟨by simp, hp, hsane, hcount⟩

theorem indexTurn_primary (hread : Reads inode s k c) (hole : ¬ c.IsHole) (hdev : ¬ c.OnDevice)
    (hin : remappedBase + c.blkaddr + inode.chunkblks < erofsNullAddr) (hsane : Sane s)
    (hcount : Counted blocks s) :
    TurnsTo blocks s (inode.indexTurn remappedBase k s)
      (closed (pending s) (remappedBase + c.blkaddr))
      (some (opened (pending s) (k * inode.chunkblks) (remappedBase + c.blkaddr)
        inode.chunkblks)) := by
  have hid : ¬ c.deviceId ≠ 0 := fun h => hdev ⟨hole, h⟩
  have hidx : idxBlkaddr remappedBase c = remappedBase + c.blkaddr := by
    rw [erofsNullAddr] at hin
    rw [idxBlkaddr, if_neg hole, if_neg hid]
    exact Nat.mod_eq_of_lt (by omega)
  generalize remappedBase + c.blkaddr = a at hidx hin ⊢
  rw [Reads] at hread
  rw [indexTurn, hread]
  by_cases hs : s.extentStart = erofsNullAddr
  · have hp : pending s = none := if_pos hs
    obtain ⟨hp', hsane'⟩ := @begin_extent inode _ hin
      { s with
        chunkindexes := store s.chunkindexes (inode.unit * k) (inode.encodeIndex remappedBase c)
        extentStart := a
        extentEnd := u32 (a + inode.chunkblks)
        sourceOffset := c.sourceoffset
        extentPos := k * inode.chunkblks } rfl rfl
    rw [hp]
    simp only [if_neg hdev, hs, hidx, true_or, if_true, ne_eq, not_true_eq_false, if_false, closed,
      opened]
    exact ⟨by simp, hp', hsane', hcount⟩
  · have hp : pending s = some ⟨s.extentPos, s.extentStart, s.extentEnd - s.extentStart⟩ := if_neg hs
    have hlen := sub32_len hsane hs
    have hsm := hsane hs
    have hend : s.extentStart + (s.extentEnd - s.extentStart) = s.extentEnd := by omega
    rw [hp]
    by_cases ha : a = s.extentEnd
    · have hu : u32 (a + inode.chunkblks) = a + inode.chunkblks := by
        rw [erofsNullAddr] at hin
        exact Nat.mod_eq_of_lt (by omega)
      simp only [if_neg hdev, hs, hidx, ha, false_or, ne_eq, not_true_eq_false, if_false, closed,
        opened, hend, if_true]
      rw [ha] at hu hin
      refine ⟨by simp, ?_, ?_, hcount⟩
      · rw [pending]
        simp only [hu, if_neg hs, Option.some.injEq, Run.mk.injEq, true_and]
        omega
      · intro _
        simp only [hu]
        omega
    · rw [erofsNullAddr] at hsm
      have hn : s.extentEnd - s.extentStart < 2 ^ 32 := by omega
      obtain ⟨hp', hsane'⟩ := @begin_extent inode _ hin
        { s with
          chunkindexes := store s.chunkindexes (inode.unit * k) (inode.encodeIndex remappedBase c)
          remainingBlks := sub32 s.remainingBlks (s.extentEnd - s.extentStart)
          extentStart := a
          extentEnd := u32 (a + inode.chunkblks)
          sourceOffset := c.sourceoffset
          firstExtent := false
          extentPos := k * inode.chunkblks
          reported := s.reported ++ [⟨⟨s.extentPos, s.extentStart, s.extentEnd - s.extentStart⟩,
            s.sourceOffset, s.firstExtent⟩] } rfl rfl
      simp only [if_neg hdev, hs, hidx, ha, false_or, ne_eq, not_false_eq_true, if_true, closed,
        opened, hend, if_false, hlen]
      refine ⟨by simp, hp', hsane', ?_⟩
      simpa [Counted] using hcount.report hn

end Turn

section Loop

variable {inode : ChunkInode} {remappedBase : ℕ}

/-- The runs that the loop reports for the chunks from the number `k` on, behind the open run `p`,
and the run that is open at the end. -/
def codeRuns (inode : ChunkInode) (remappedBase : ℕ) :
    Option Run → ℕ → List BlobChunk → List Run × Option Run
  | p, _, [] => ([], p)
  | p, k, c :: cs =>
    let turn : List Run × Option Run :=
      if c.IsHole then (p.toList, none)
      else if c.OnDevice then ([], some ⟨k * inode.chunkblks, c.blkaddr, inode.chunkblks⟩)
      else (closed p (remappedBase + c.blkaddr),
        some (opened p (k * inode.chunkblks) (remappedBase + c.blkaddr) inode.chunkblks))
    let rest := codeRuns inode remappedBase turn.2 (k + 1) cs
    (turn.1 ++ rest.1, rest.2)

theorem length_encodeIndex (c : BlobChunk) :
    (inode.encodeIndex remappedBase c).length = inode.unit := by
  rw [encodeIndex, unit]
  split <;> simp

theorem indexTurn_table (k : ℕ) (s : IndexState) :
    (inode.indexTurn remappedBase k s).chunkindexes =
      store s.chunkindexes (inode.unit * k)
        (inode.encodeIndex remappedBase (inode.chunkAt (leNat s.chunkindexes (8 * k) 8))) := by
  simp only [indexTurn]
  split_ifs <;> rfl

theorem indexTurn_pointers {k j : ℕ} (s : IndexState) (hj : k < j) :
    leNat (inode.indexTurn remappedBase k s).chunkindexes (8 * j) 8 =
      leNat s.chunkindexes (8 * j) 8 := by
  have hunit : inode.unit ≤ 8 := by
    rw [unit]
    split <;> omega
  have hmul : inode.unit * k ≤ 8 * k := Nat.mul_le_mul_right k hunit
  rw [indexTurn_table]
  apply leNat_congr
  intro i _
  apply store_of_ge
  rw [length_encodeIndex]
  omega

theorem TurnsTo.trans {blocks : ℕ} {s s' s'' : IndexState} {rs rs' : List Run}
    {p p' : Option Run} (h : TurnsTo blocks s s' rs p) (h' : TurnsTo blocks s' s'' rs' p') :
    TurnsTo blocks s s'' (rs ++ rs') p' :=
  ⟨by rw [h'.reported, h.reported, List.append_assoc], h'.pending, h'.sane, h'.counted⟩

/-- One turn, whatever the chunk is. -/
theorem indexTurn_codeRuns {blocks k : ℕ} {s : IndexState} {c : BlobChunk}
    (hread : Reads inode s k c)
    (hin : ¬ c.IsHole → chunkAddr remappedBase c + inode.chunkblks < erofsNullAddr)
    (hsane : Sane s) (hcount : Counted blocks s) :
    TurnsTo blocks s (inode.indexTurn remappedBase k s)
      (codeRuns inode remappedBase (pending s) k [c]).1
      (codeRuns inode remappedBase (pending s) k [c]).2 := by
  simp only [codeRuns, List.append_nil]
  by_cases hole : c.IsHole
  · rw [if_pos hole]
    exact indexTurn_hole hread hole hsane hcount
  · have haddr := hin hole
    rw [if_neg hole]
    by_cases hdev : c.OnDevice
    · rw [chunkAddr, if_pos hdev.2] at haddr
      rw [if_pos hdev]
      exact indexTurn_device hread hdev haddr hcount
    · have hid : ¬ c.deviceId ≠ 0 := fun h => hdev ⟨hole, h⟩
      rw [chunkAddr, if_neg hid] at haddr
      rw [if_neg hdev]
      exact indexTurn_primary hread hole hdev haddr hsane hcount

theorem codeRuns_cons (p : Option Run) (k : ℕ) (c : BlobChunk) (cs : List BlobChunk) :
    codeRuns inode remappedBase p k (c :: cs) =
      ((codeRuns inode remappedBase p k [c]).1 ++
        (codeRuns inode remappedBase (codeRuns inode remappedBase p k [c]).2 (k + 1) cs).1,
        (codeRuns inode remappedBase (codeRuns inode remappedBase p k [c]).2 (k + 1) cs).2) := by
  simp only [codeRuns, List.append_nil]

theorem indexLoop_codeRuns {blocks : ℕ} (cs : List BlobChunk) {k : ℕ} {s : IndexState}
    (hread : ∀ i c, cs[i]? = some c → Reads inode s (k + i) c)
    (hin : ∀ c ∈ cs, ¬ c.IsHole → chunkAddr remappedBase c + inode.chunkblks < erofsNullAddr)
    (hsane : Sane s) (hcount : Counted blocks s) :
    TurnsTo blocks s (inode.indexLoop remappedBase cs.length k s)
      (codeRuns inode remappedBase (pending s) k cs).1
      (codeRuns inode remappedBase (pending s) k cs).2 := by
  induction cs generalizing k s with
  | nil => exact ⟨by simp [indexLoop, codeRuns], rfl, hsane, hcount⟩
  | cons c cs ih =>
    rw [List.forall_mem_cons] at hin
    have hread0 : Reads inode s k c := hread 0 c rfl
    have hturn := indexTurn_codeRuns hread0 hin.1 hsane hcount
    have hread' : ∀ i c', cs[i]? = some c' →
        Reads inode (inode.indexTurn remappedBase k s) (k + 1 + i) c' := by
      intro i c' hi
      rw [Reads, indexTurn_pointers s (by omega), Nat.add_assoc, Nat.add_comm 1]
      exact hread (i + 1) c' hi
    have hrest := ih hread' hin.2 hturn.sane hturn.counted
    rw [hturn.pending] at hrest
    rw [List.length_cons, indexLoop, codeRuns_cons]
    exact hturn.trans hrest

end Loop

section Runs

variable {inode : ChunkInode} {remappedBase : ℕ}

theorem codeRuns_append (p : Option Run) (k : ℕ) (cs cs' : List BlobChunk) :
    codeRuns inode remappedBase p k (cs ++ cs') =
      ((codeRuns inode remappedBase p k cs).1 ++
        (codeRuns inode remappedBase (codeRuns inode remappedBase p k cs).2 (k + cs.length) cs').1,
        (codeRuns inode remappedBase (codeRuns inode remappedBase p k cs).2
          (k + cs.length) cs').2) := by
  induction cs generalizing p k with
  | nil => simp [codeRuns]
  | cons c cs ih =>
    rw [List.cons_append, codeRuns_cons, ih, codeRuns_cons p k c cs, List.length_cons,
      List.append_assoc]
    simp only [Nat.add_assoc, Nat.add_comm 1]

def blocksOf (inode : ChunkInode) (remappedBase m : ℕ) (cs : List BlobChunk) : List (Option ℕ) :=
  (cs.flatMap (inode.chunkBlocks remappedBase)).take m

theorem length_chunkBlocks (c : BlobChunk) :
    (inode.chunkBlocks remappedBase c).length = inode.chunkblks := by
  rw [chunkBlocks]
  split
  · exact List.length_replicate
  · rw [stretch, List.length_map, List.length_range']

theorem take_stretch {a n m : ℕ} (h : m ≤ n) : (stretch a n).take m = stretch a m := by
  rw [stretch, ← List.map_take, List.take_range'_of_length_ge h, stretch]

theorem blocksOf_cons (m : ℕ) (c : BlobChunk) (cs : List BlobChunk) :
    blocksOf inode remappedBase m (c :: cs) =
      (inode.chunkBlocks remappedBase c).take m ++
        blocksOf inode remappedBase (m - inode.chunkblks) cs := by
  rw [blocksOf, blocksOf, List.flatMap_cons, List.take_append, length_chunkBlocks]

def cutRun (d : ℕ) (r : Run) : Run := ⟨r.pos, r.start, r.len - d⟩

theorem cutRun_opened (p : Option Run) (pos a : ℕ) {n d : ℕ} (h : d ≤ n) :
    cutRun d (opened p pos a n) = opened p pos a (n - d) := by
  cases p with
  | none => rfl
  | some r =>
    rw [opened, opened, cutRun]
    split
    · rw [Nat.add_sub_assoc h]
    · rfl

theorem runs_chunk {c : BlobChunk} (hdev : ¬ c.OnDevice) (p : Option Run) (k : ℕ)
    (l : List (Option ℕ)) :
    runs p (k * inode.chunkblks) (inode.chunkBlocks remappedBase c ++ l) =
      (codeRuns inode remappedBase p k [c]).1 ++
        runs (codeRuns inode remappedBase p k [c]).2 ((k + 1) * inode.chunkblks) l := by
  simp only [codeRuns, List.append_nil, chunkBlocks, if_neg hdev, Nat.succ_mul]
  by_cases hole : c.IsHole
  · rw [if_pos (Or.inl hole), if_pos hole, runs_gap (chunkblks_pos inode)]
  · rw [if_neg (not_or.mpr ⟨hole, hdev⟩), if_neg hole, runs_stretch (chunkblks_pos inode)]

/-- The chunk at the end of the file, of which `m` blocks are in the file. -/
theorem runs_last_chunk {c : BlobChunk} (hdev : ¬ c.OnDevice) (p : Option Run) (k : ℕ) {m : ℕ}
    (hm : 0 < m) (hle : m ≤ inode.chunkblks) :
    runs p (k * inode.chunkblks) ((inode.chunkBlocks remappedBase c).take m) =
      (codeRuns inode remappedBase p k [c]).1 ++
        ((codeRuns inode remappedBase p k [c]).2.map (cutRun (inode.chunkblks - m))).toList := by
  simp only [codeRuns, List.append_nil, chunkBlocks, if_neg hdev]
  by_cases hole : c.IsHole
  · have h := @runs_gap p (k * inode.chunkblks) m hm []
    rw [List.append_nil] at h
    rw [if_pos (Or.inl hole), if_pos hole, List.take_replicate, Nat.min_eq_left hle, h]
    rfl
  · have h := @runs_stretch p (k * inode.chunkblks) (remappedBase + c.blkaddr) m hm []
    rw [List.append_nil] at h
    rw [if_neg (not_or.mpr ⟨hole, hdev⟩), if_neg hole, take_stretch hle, h]
    simp only [Option.map_some, Option.toList_some]
    rw [cutRun_opened _ _ _ (Nat.sub_le _ _), Nat.sub_sub_self hle]
    rfl

theorem runs_blocksOf_append {cs rest : List BlobChunk} (hdev : ∀ c ∈ cs, ¬ c.OnDevice)
    (p : Option Run) (k : ℕ) {m : ℕ} (hle : cs.length * inode.chunkblks ≤ m) :
    runs p (k * inode.chunkblks) (blocksOf inode remappedBase m (cs ++ rest)) =
      (codeRuns inode remappedBase p k cs).1 ++
        runs (codeRuns inode remappedBase p k cs).2 ((k + cs.length) * inode.chunkblks)
          (blocksOf inode remappedBase (m - cs.length * inode.chunkblks) rest) := by
  induction cs generalizing p k m with
  | nil => simp [codeRuns]
  | cons c cs ih =>
    rw [List.forall_mem_cons] at hdev
    rw [List.length_cons, Nat.succ_mul] at hle
    have htake : (inode.chunkBlocks remappedBase c).take m = inode.chunkBlocks remappedBase c := by
      apply List.take_of_length_le
      rw [length_chunkBlocks]
      omega
    have hlen : k + 1 + cs.length = k + (c :: cs).length := by
      rw [List.length_cons]
      omega
    have hsub : m - inode.chunkblks - cs.length * inode.chunkblks =
        m - (c :: cs).length * inode.chunkblks := by
      rw [List.length_cons, Nat.succ_mul]
      omega
    rw [List.cons_append, blocksOf_cons, htake, runs_chunk hdev.1, ih hdev.2 _ _ (by omega),
      codeRuns_cons p k c cs, hlen, hsub, List.append_assoc]

/-- Without chunks on extra devices the loop goes through the runs of the file; only the last one
is not cut. -/
theorem runs_blocksOf {cs : List BlobChunk} (hdev : ∀ c ∈ cs, ¬ c.OnDevice) {m : ℕ}
    (hle : m ≤ cs.length * inode.chunkblks)
    (hlt : cs.length * inode.chunkblks < m + inode.chunkblks) :
    runs none 0 (blocksOf inode remappedBase m cs) =
      (codeRuns inode remappedBase none 0 cs).1 ++
        ((codeRuns inode remappedBase none 0 cs).2.map
          (cutRun (cs.length * inode.chunkblks - m))).toList := by
  induction cs using List.reverseRecOn with
  | nil => simp [blocksOf, codeRuns, runs]
  | append_singleton cs c _ =>
    rw [List.length_append, List.length_singleton, Nat.succ_mul] at hle hlt
    have hrest : ∀ c ∈ cs, ¬ c.OnDevice := fun c' hc' => hdev c' (List.mem_append_left _ hc')
    have hc : ¬ c.OnDevice := hdev c (by simp)
    have hcut : (cs ++ [c]).length * inode.chunkblks - m =
        inode.chunkblks - (m - cs.length * inode.chunkblks) := by
      rw [List.length_append, List.length_singleton, Nat.succ_mul]
      omega
    have hfront := @runs_blocksOf_append inode remappedBase cs [c] hrest none 0 m (by omega)
    rw [Nat.zero_mul, Nat.zero_add] at hfront
    have hnil : blocksOf inode remappedBase (m - cs.length * inode.chunkblks - inode.chunkblks)
        [] = [] := by simp [blocksOf]
    rw [hfront, blocksOf_cons, hnil, List.append_nil, runs_last_chunk hc _ _ (by omega) (by omega),
      codeRuns_append, Nat.zero_add, hcut, List.append_assoc]

end Runs

section Finish

variable {inode : ChunkInode} {remappedBase : ℕ}

/-- The open run that is reported behind the loop when `left` blocks are left. -/
def endRun (left : ℕ) (r : Run) : Run :=
  ⟨r.pos, r.start, sub32 (min (r.start + r.len) (u32 (r.start + left))) r.start⟩

def reportedRuns (inode : ChunkInode) (remappedBase left : ℕ) (p : Option Run) (k : ℕ)
    (cs : List BlobChunk) : List Run :=
  (codeRuns inode remappedBase p k cs).1 ++
    ((codeRuns inode remappedBase p k cs).2.toList.map (endRun left)).filter (0 < ·.len)

theorem len_endRun {left : ℕ} {r : Run} (hin : r.start + r.len < erofsNullAddr) (hleft : left < 2 ^ 32) :
    (endRun left r).len = if r.start + left < 2 ^ 32 then min r.len left else left := by
  rw [erofsNullAddr] at hin
  simp only [endRun, sub32, u32]
  split <;> omega

theorem codeRuns_pos (cs : List BlobChunk) {p : Option Run} (hp : ∀ r ∈ p, 0 < r.len) (k : ℕ) :
    (∀ r ∈ (codeRuns inode remappedBase p k cs).1, 0 < r.len) ∧
      ∀ r ∈ (codeRuns inode remappedBase p k cs).2, 0 < r.len := by
  induction cs generalizing p k with
  | nil => exact ⟨by simp [codeRuns], hp⟩
  | cons c cs ih =>
    have hturn : (∀ r ∈ (codeRuns inode remappedBase p k [c]).1, 0 < r.len) ∧
        ∀ r ∈ (codeRuns inode remappedBase p k [c]).2, 0 < r.len := by
      simp only [codeRuns, List.append_nil]
      split
      · exact ⟨fun r hr => hp r (Option.mem_toList.mp hr), by simp⟩
      · split
        · exact ⟨by simp, by simp [chunkblks_pos]⟩
        · exact ⟨fun r hr => hp r (mem_of_mem_closed hr), by simp [opened_pos (chunkblks_pos _)]⟩
    obtain ⟨hrest, hopen⟩ := ih hturn.2 (k + 1)
    rw [codeRuns_cons]
    refine ⟨?_, hopen⟩
    intro r hr
    rcases List.mem_append.mp hr with hr | hr
    · exact hturn.1 r hr
    · exact hrest r hr

theorem blockLists_eq (hvalid : inode.Valid remappedBase) (off : ℕ) :
    ∃ left < 2 ^ 32,
      (left + ((codeRuns inode remappedBase none 0 inode.chunks).1.map Run.len).sum) % 2 ^ 32 =
        inode.blocks % 2 ^ 32 ∧
      (∀ r ∈ (codeRuns inode remappedBase none 0 inode.chunks).2, r.start + r.len < erofsNullAddr) ∧
      (inode.erofsBlobWriteChunkIndexes remappedBase off).1.map (·.run) =
        reportedRuns inode remappedBase left none 0 inode.chunks := by
  have hlen : inode.chunks.length = inode.chunkCount := by simp [chunks]
  have hread : ∀ i c, inode.chunks[i]? = some c → Reads inode inode.initIndexState (0 + i) c := by
    intro i c hi
    have hlt := (List.getElem?_eq_some_iff.mp hi).1
    rw [hlen] at hlt
    rw [chunks, List.getElem?_map, List.getElem?_range hlt] at hi
    rw [Reads, Nat.zero_add]
    exact Option.some.inj hi
  have hpend : pending inode.initIndexState = none := if_pos rfl
  have hcount : Counted inode.blocks inode.initIndexState := by
    constructor
    · exact Nat.mod_lt _ (by omega)
    · simp [initIndexState, u32]
  have hrun := @indexLoop_codeRuns inode remappedBase inode.blocks inode.chunks 0
    inode.initIndexState hread hvalid.inside (fun h => absurd rfl h) hcount
  rw [hlen, hpend] at hrun
  rw [erofsBlobWriteChunkIndexes]
  generalize inode.indexLoop remappedBase inode.chunkCount 0 inode.initIndexState = s at hrun
  obtain ⟨hrep, hpending, hsane, hleft, hsum⟩ := hrun
  have hrep' : s.reported.map (·.run) = (codeRuns inode remappedBase none 0 inode.chunks).1 := by
    rw [hrep]
    rfl
  have hlens : s.reported.map (·.run.len) =
      (codeRuns inode remappedBase none 0 inode.chunks).1.map Run.len := by
    rw [← hrep', List.map_map]
    rfl
  refine ⟨s.remainingBlks, hleft, hlens ▸ hsum, ?_, ?_⟩
  · intro r hr
    rw [← hpending, pending] at hr
    split at hr
    · cases hr
    next hs =>
      obtain rfl := Option.mem_some_iff.mp hr
      have h := hsane hs
      simp only
      omega
  · have hlast : (lastExtent s).map (·.run) =
        (pending s).toList.map (endRun s.remainingBlks) := by
      rw [lastExtent, pending]
      by_cases hs : s.extentStart = erofsNullAddr
      · simp [hs]
      · have h := hsane hs
        have hend : s.extentStart + (s.extentEnd - s.extentStart) = s.extentEnd := by omega
        simp [hs, endRun, hend]
    have hpos := (@codeRuns_pos inode remappedBase inode.chunks none (by simp) 0).1
    have hkeep : (codeRuns inode remappedBase none 0 inode.chunks).1.filter (0 < ·.len) =
        (codeRuns inode remappedBase none 0 inode.chunks).1 := by
      rw [List.filter_eq_self]
      intro r hr
      exact decide_eq_true (hpos r hr)
    have hmap : ∀ es : List BlockExtent, (es.filter (0 < ·.run.len)).map (·.run) =
        (es.map (·.run)).filter (0 < ·.len) := by
      intro es
      rw [List.filter_map]
      rfl
    rw [hmap, List.map_append, List.filter_append, hrep', hlast, hkeep, hpending, reportedRuns]

end Finish

section Exact

variable {inode : ChunkInode} {remappedBase : ℕ}

theorem codeRuns_open_none (cs : List BlobChunk) (k : ℕ) :
    (codeRuns inode remappedBase none k cs).2 = none ↔ ∀ c ∈ cs.getLast?, c.IsHole := by
  induction cs using List.reverseRecOn with
  | nil => simp [codeRuns]
  | append_singleton cs c _ =>
    rw [codeRuns_append, List.getLast?_append, List.getLast?_singleton]
    simp only [codeRuns, Option.some_or, Option.mem_some_iff, forall_eq']
    by_cases hole : c.IsHole
    · simp [hole]
    · rw [if_neg hole]
      split <;> simp [hole]

theorem chunkblks_le_open {cs : List BlobChunk} (hne : cs ≠ []) {p : Option Run} {k : ℕ} {r : Run}
    (hr : (codeRuns inode remappedBase p k cs).2 = some r) : inode.chunkblks ≤ r.len := by
  induction cs using List.reverseRecOn with
  | nil => exact absurd rfl hne
  | append_singleton cs c _ =>
    rw [codeRuns_append] at hr
    simp only [codeRuns] at hr
    generalize (codeRuns inode remappedBase p k cs).2 = q at hr
    by_cases hole : c.IsHole
    · rw [if_pos hole] at hr
      cases hr
    · rw [if_neg hole] at hr
      split at hr
      · rw [← Option.some.inj hr]
      · rw [← Option.some.inj hr]
        cases q with
        | none => exact le_rfl
        | some q =>
          rw [opened]
          split
          · exact Nat.le_add_left _ _
          · exact le_rfl

theorem opened_pos_eq (p : Option Run) (pos a n : ℕ) :
    (∃ q ∈ p, (opened p pos a n).pos = q.pos) ∨ (opened p pos a n).pos = pos := by
  cases p with
  | none => exact Or.inr rfl
  | some q =>
    rw [opened]
    split
    · exact Or.inl ⟨q, rfl, rfl⟩
    · exact Or.inr rfl

theorem pos_of_turn {p : Option Run} {k : ℕ} {c : BlobChunk} {r : Run}
    (hr : r ∈ (codeRuns inode remappedBase p k [c]).1 ∨
      r ∈ (codeRuns inode remappedBase p k [c]).2) :
    (∃ q ∈ p, r.pos = q.pos) ∨ r.pos = k * inode.chunkblks := by
  simp only [codeRuns, List.append_nil] at hr
  by_cases hole : c.IsHole
  · simp only [if_pos hole] at hr
    rcases hr with hr | hr
    · exact Or.inl ⟨r, Option.mem_toList.mp hr, rfl⟩
    · cases hr
  · by_cases hdev : c.OnDevice
    · simp only [if_neg hole, if_pos hdev] at hr
      rcases hr with hr | hr
      · cases hr
      · obtain rfl := Option.mem_some_iff.mp hr
        exact Or.inr rfl
    · simp only [if_neg hole, if_neg hdev] at hr
      rcases hr with hr | hr
      · exact Or.inl ⟨r, mem_of_mem_closed hr, rfl⟩
      · obtain rfl := Option.mem_some_iff.mp hr
        exact opened_pos_eq _ _ _ _

/-- Where runs begin: at the open one, or at the first block of a chunk. -/
theorem pos_of_codeRuns (cs : List BlobChunk) {p : Option Run} {k : ℕ} {r : Run}
    (hr : r ∈ (codeRuns inode remappedBase p k cs).1 ∨
      r ∈ (codeRuns inode remappedBase p k cs).2) :
    (∃ q ∈ p, r.pos = q.pos) ∨
      k * inode.chunkblks ≤ r.pos ∧ r.pos < (k + cs.length) * inode.chunkblks := by
  induction cs generalizing p k with
  | nil =>
    rcases hr with hr | hr
    · cases hr
    · exact Or.inl ⟨r, hr, rfl⟩
  | cons c cs ih =>
    have hpos := chunkblks_pos inode
    have hstep : k * inode.chunkblks < (k + (c :: cs).length) * inode.chunkblks := by
      apply Nat.mul_lt_mul_of_pos_right _ hpos
      rw [List.length_cons]
      omega
    have hlen : k + 1 + cs.length = k + (c :: cs).length := by
      rw [List.length_cons]
      omega
    have hturn : ∀ r', (r' ∈ (codeRuns inode remappedBase p k [c]).1 ∨
        r' ∈ (codeRuns inode remappedBase p k [c]).2) → r.pos = r'.pos →
        (∃ q ∈ p, r.pos = q.pos) ∨
          k * inode.chunkblks ≤ r.pos ∧ r.pos < (k + (c :: cs).length) * inode.chunkblks := by
      intro r' hr' heq
      rw [heq]
      rcases pos_of_turn hr' with h | h
      · exact Or.inl h
      · rw [h]
        exact Or.inr ⟨le_rfl, hstep⟩
    have hrest : (r ∈ (codeRuns inode remappedBase (codeRuns inode remappedBase p k [c]).2
        (k + 1) cs).1 ∨ r ∈ (codeRuns inode remappedBase (codeRuns inode remappedBase p k [c]).2
        (k + 1) cs).2) → (∃ q ∈ p, r.pos = q.pos) ∨
          k * inode.chunkblks ≤ r.pos ∧ r.pos < (k + (c :: cs).length) * inode.chunkblks := by
      intro h
      rcases ih h with ⟨q, hq, heq⟩ | ⟨hle, hlt⟩
      · exact hturn q (Or.inr hq) heq
      · rw [hlen] at hlt
        exact Or.inr ⟨(Nat.mul_le_mul_right _ (Nat.le_succ k)).trans hle, hlt⟩
    rw [codeRuns_cons] at hr
    rcases hr with hr | hr
    · rcases List.mem_append.mp hr with hr | hr
      · exact hturn r (Or.inl hr) rfl
      · exact hrest (Or.inl hr)
    · exact hrest (Or.inr hr)

theorem pos_of_reportedRuns {cs : List BlobChunk} {left k : ℕ} {p : Option Run} {r : Run}
    (hr : r ∈ reportedRuns inode remappedBase left p k cs) :
    (∃ q ∈ p, r.pos = q.pos) ∨ k * inode.chunkblks ≤ r.pos := by
  rw [reportedRuns, List.mem_append, List.mem_filter, List.mem_map] at hr
  rcases hr with hr | ⟨⟨q, hq, rfl⟩, -⟩
  · rcases pos_of_codeRuns cs (Or.inl hr) with h | h
    · exact Or.inl h
    · exact Or.inr h.1
  · rcases pos_of_codeRuns cs (Or.inr (Option.mem_toList.mp hq)) with h | h
    · exact Or.inl h
    · exact Or.inr h.1

theorem reportedRuns_append (left : ℕ) (p : Option Run) (k : ℕ) (cs cs' : List BlobChunk) :
    reportedRuns inode remappedBase left p k (cs ++ cs') =
      (codeRuns inode remappedBase p k cs).1 ++
        reportedRuns inode remappedBase left (codeRuns inode remappedBase p k cs).2
          (k + cs.length) cs' := by
  rw [reportedRuns, codeRuns_append, List.append_assoc, reportedRuns]

theorem endRun_exact {left d : ℕ} {r : Run} (hin : r.start + r.len < erofsNullAddr)
    (hleft : left < 2 ^ 32) (hd : d < r.len) :
    [endRun left r].filter (0 < ·.len) = [cutRun d r] ↔
      left = r.len - d ∨ d = 0 ∧ r.len ≤ left ∧ r.start + left < 2 ^ 32 := by
  have hlen := len_endRun hin hleft
  rw [erofsNullAddr] at hin
  have hcut : [endRun left r].filter (0 < ·.len) = [cutRun d r] ↔ (endRun left r).len = r.len - d := by
    constructor
    · intro h
      have hmem : cutRun d r ∈ [endRun left r].filter (0 < ·.len) := by
        rw [h]
        exact List.mem_singleton_self _
      have heq := List.mem_singleton.mp (List.mem_filter.mp hmem).1
      rw [← heq]
      rfl
    · intro h
      have hpos : 0 < (endRun left r).len := by omega
      have hkeep : [endRun left r].filter (0 < ·.len) = [endRun left r] :=
        List.filter_cons_of_pos (decide_eq_true hpos)
      rw [hkeep]
      exact congrArg (fun n => [(⟨r.pos, r.start, n⟩ : Run)]) h
  rw [hcut, hlen]
  split <;> omega

theorem endRun_empty {left : ℕ} {r : Run} (hin : r.start + r.len < erofsNullAddr)
    (hleft : left < 2 ^ 32) (hr : 0 < r.len) :
    [endRun left r].filter (0 < ·.len) = [] ↔ left = 0 := by
  have hlen := len_endRun hin hleft
  rw [List.filter_singleton]
  have hzero : (endRun left r).len = 0 ↔ left = 0 := by
    rw [hlen]
    split <;> omega
  rw [← hzero]
  by_cases h : 0 < (endRun left r).len
  · simp [h]
    omega
  · simp [h]
    omega

theorem reportedRuns_cons_device {c : BlobChunk} (hdev : c.OnDevice) (left : ℕ) (p : Option Run)
    (k : ℕ) (cs : List BlobChunk) :
    reportedRuns inode remappedBase left p k (c :: cs) =
      reportedRuns inode remappedBase left
        (some ⟨k * inode.chunkblks, c.blkaddr, inode.chunkblks⟩) (k + 1) cs := by
  have hole : ¬ c.IsHole := hdev.1
  have hturn : codeRuns inode remappedBase p k [c] =
      ([], some ⟨k * inode.chunkblks, c.blkaddr, inode.chunkblks⟩) := by
    simp only [codeRuns, if_neg hole, if_pos hdev, List.append_nil]
  have hcons := @reportedRuns_append inode remappedBase left p k [c] cs
  rw [List.singleton_append, List.length_singleton, hturn, List.nil_append] at hcons
  exact hcons

theorem runs_cons_device {c : BlobChunk} (hdev : c.OnDevice) (p : Option Run) (k : ℕ) {m : ℕ}
    (hm : 0 < m) (cs : List BlobChunk) :
    runs p (k * inode.chunkblks) (blocksOf inode remappedBase m (c :: cs)) =
      p.toList ++ runs none (k * inode.chunkblks + min m inode.chunkblks)
        (blocksOf inode remappedBase (m - inode.chunkblks) cs) := by
  have hcb := chunkblks_pos inode
  rw [blocksOf_cons, chunkBlocks, if_pos (Or.inr hdev), List.take_replicate, runs_gap (by omega)]

theorem next_pos {cs : List BlobChunk} {k m : ℕ}
    (hm : cs.length * inode.chunkblks + inode.chunkblks < m + inode.chunkblks) (hne : cs ≠ []) :
    k * inode.chunkblks + min m inode.chunkblks = (k + 1) * inode.chunkblks := by
  have hlen : 1 * inode.chunkblks ≤ cs.length * inode.chunkblks :=
    Nat.mul_le_mul_right _ (List.length_pos_of_ne_nil hne)
  rw [Nat.succ_mul]
  omega

/-- Behind a chunk on an extra device the lists are right only when there are no others and nothing
is left. -/
theorem reportedRuns_device {left : ℕ} (hleft : left < 2 ^ 32) (ds : List BlobChunk) {q : Run}
    {k m pos : ℕ} (hq : q.pos < k * inode.chunkblks) (hlen : 0 < q.len)
    (hin : q.start + q.len < erofsNullAddr)
    (hinside : ∀ c ∈ ds, ¬ c.IsHole → chunkAddr remappedBase c + inode.chunkblks < erofsNullAddr)
    (hpos : ds ≠ [] → pos = k * inode.chunkblks) (hm : ds.length * inode.chunkblks < m + inode.chunkblks) :
    reportedRuns inode remappedBase left (some q) k ds =
        runs none pos (blocksOf inode remappedBase m ds) ↔
      (∀ c ∈ ds, c.OnDevice) ∧ left = 0 := by
  induction ds generalizing q k m pos with
  | nil =>
    have h := endRun_empty hin hleft hlen
    simpa [reportedRuns, codeRuns, blocksOf, runs] using h
  | cons c cs ih =>
    rw [List.forall_mem_cons] at hinside
    rw [List.length_cons, Nat.succ_mul] at hm
    have hcb := chunkblks_pos inode
    obtain rfl := hpos (List.cons_ne_nil _ _)
    have hsucc : (k + 1) * inode.chunkblks = k * inode.chunkblks + inode.chunkblks := Nat.succ_mul _ _
    by_cases hdev : c.OnDevice
    · have haddr := hinside.1 hdev.1
      rw [chunkAddr, if_pos hdev.2] at haddr
      rw [reportedRuns_cons_device hdev, runs_cons_device hdev _ _ (by omega), Option.toList_none,
        List.nil_append, List.forall_mem_cons, and_assoc, and_iff_right hdev]
      exact ih (by simp only; omega) hcb haddr hinside.2 (next_pos hm) (by omega)
    · -- a run of the other kind begins here, and only one side has it
      have hne : ¬ ((∀ c' ∈ c :: cs, c'.OnDevice) ∧ left = 0) := fun h => hdev (h.1 c (by simp))
      have hcons := @reportedRuns_append inode remappedBase left (some q) k [c] cs
      rw [List.singleton_append, List.length_singleton] at hcons
      rw [iff_false_right hne, hcons]
      by_cases hclosed : q ∈ (codeRuns inode remappedBase (some q) k [c]).1
      · apply ne_of_pos (List.mem_append_left _ hclosed)
        intro r hr heq
        rcases pos_of_mem_runs hr with ⟨q', hq', -⟩ | h
        · cases hq'
        · omega
      · have hole : ¬ c.IsHole := by
          intro hole
          apply hclosed
          simp [codeRuns, hole]
        have hturn : codeRuns inode remappedBase (some q) k [c] =
            (closed (some q) (remappedBase + c.blkaddr),
              some (opened (some q) (k * inode.chunkblks) (remappedBase + c.blkaddr)
                inode.chunkblks)) := by
          simp only [codeRuns, if_neg hole, if_neg hdev, List.append_nil]
        have hgoes : remappedBase + c.blkaddr = q.start + q.len := by
          by_contra hgoes
          rw [hturn, closed, if_neg hgoes] at hclosed
          exact hclosed (List.mem_singleton_self q)
        have hfirst : runs none (k * inode.chunkblks) (blocksOf inode remappedBase m (c :: cs)) =
            runs (some ⟨k * inode.chunkblks, remappedBase + c.blkaddr, min m inode.chunkblks⟩)
              (k * inode.chunkblks + min m inode.chunkblks)
              (blocksOf inode remappedBase (m - inode.chunkblks) cs) := by
          have htake : (stretch (remappedBase + c.blkaddr) inode.chunkblks).take m =
              stretch (remappedBase + c.blkaddr) (min m inode.chunkblks) := by
            rw [← take_stretch (Nat.min_le_right m inode.chunkblks), List.take_eq_take_min]
            simp [stretch]
          rw [blocksOf_cons, chunkBlocks, if_neg (not_or.mpr ⟨hole, hdev⟩), htake,
            runs_stretch (by omega)]
          rfl
        obtain ⟨r, hr, heq⟩ := exists_run_of_open
          ⟨k * inode.chunkblks, remappedBase + c.blkaddr, min m inode.chunkblks⟩
          (k * inode.chunkblks + min m inode.chunkblks)
          (blocksOf inode remappedBase (m - inode.chunkblks) cs)
        rw [← hfirst] at hr
        apply (ne_of_pos hr _).symm
        intro r' hr' heq'
        rw [hturn, closed, if_pos hgoes, List.nil_append, opened, if_pos hgoes] at hr'
        rcases pos_of_reportedRuns hr' with ⟨q', hq', hpos'⟩ | h
        · obtain rfl := Option.mem_some_iff.mp hq'
          simp only at hpos' heq
          omega
        · simp only at heq
          omega

theorem length_chunks (inode : ChunkInode) : inode.chunks.length = inode.chunkCount := by
  simp [chunks]

theorem length_fileBlocks (hvalid : inode.Valid remappedBase) :
    (inode.fileBlocks remappedBase).length = inode.blocks := by
  have hsum : (inode.chunks.flatMap (inode.chunkBlocks remappedBase)).length =
      inode.chunkCount * inode.chunkblks := by
    rw [List.length_flatMap, ← length_chunks]
    induction inode.chunks with
    | nil => simp
    | cons c cs ih =>
      rw [List.map_cons, List.sum_cons, ih, length_chunkBlocks, List.length_cons, Nat.succ_mul,
        Nat.add_comm]
  rw [fileBlocks, List.length_take, hsum]
  exact Nat.min_eq_left hvalid.enough

theorem sum_fileRuns (hvalid : inode.Valid remappedBase) :
    ((inode.fileRuns remappedBase).map Run.len).sum + inode.otherBlocks remappedBase =
      inode.blocks := by
  have h := sum_runs none 0 (inode.fileBlocks remappedBase)
  rw [length_fileBlocks hvalid, Option.toList_none, List.map_nil, List.sum_nil, Nat.zero_add] at h
  exact h

theorem lists_primary {left : ℕ} (hvalid : inode.Valid remappedBase) (hleft : left < 2 ^ 32)
    (hsum : (left + ((codeRuns inode remappedBase none 0 inode.chunks).1.map Run.len).sum) % 2 ^ 32 =
      inode.blocks % 2 ^ 32)
    (hin : ∀ r ∈ (codeRuns inode remappedBase none 0 inode.chunks).2, r.start + r.len < erofsNullAddr)
    (hdev : ∀ c ∈ inode.chunks, ¬ c.OnDevice) :
    reportedRuns inode remappedBase left none 0 inode.chunks = inode.fileRuns remappedBase ↔
      ((∃ c ∈ inode.chunks.getLast?, ¬ c.IsHole) →
        ∀ r ∈ (inode.fileRuns remappedBase).getLast?, inode.CutsAtEnd remappedBase r) := by
  have hle := hvalid.enough
  have hlt := hvalid.needed
  rw [← length_chunks] at hle hlt
  have hruns : inode.fileRuns remappedBase = _ := runs_blocksOf hdev hle hlt
  have htotal := sum_fileRuns hvalid
  have hnone := @codeRuns_open_none inode remappedBase inode.chunks 0
  rw [hruns] at htotal ⊢
  rw [reportedRuns, List.append_cancel_left_eq]
  rcases hopen : (codeRuns inode remappedBase none 0 inode.chunks).2 with _ | R
  · have hholes := hnone.mp hopen
    apply iff_of_true
    · rfl
    · rintro ⟨c, hc, hole⟩
      exact absurd (hholes c hc) hole
  · have hlast : ∃ c ∈ inode.chunks.getLast?, ¬ c.IsHole := by
      by_contra hall
      push Not at hall
      rw [hnone.mpr hall] at hopen
      cases hopen
    have hne : inode.chunks ≠ [] := by
      rintro hnil
      obtain ⟨c, hc, -⟩ := hlast
      rw [hnil] at hc
      cases hc
    have hlen := chunkblks_le_open hne hopen
    rw [hopen] at htotal hin
    simp only [Option.map_some, Option.toList_some, List.map_append, List.map_cons, List.map_nil,
      List.sum_append, List.sum_cons, List.sum_nil, Nat.add_zero] at htotal
    have hd : inode.chunks.length * inode.chunkblks - inode.blocks < R.len := by omega
    have hrest : u32 ((cutRun (inode.chunks.length * inode.chunkblks - inode.blocks) R).len +
        inode.otherBlocks remappedBase) = left := by
      rw [u32]
      omega
    have hzero : inode.chunks.length * inode.chunkblks - inode.blocks = 0 ↔
        inode.chunkblks ∣ inode.blocks := by
      constructor
      · intro h
        rw [show inode.blocks = inode.chunks.length * inode.chunkblks by omega]
        exact dvd_mul_left _ _
      · intro h
        have hdvd := Nat.dvd_sub (dvd_mul_left inode.chunkblks inode.chunks.length) h
        exact Nat.eq_zero_of_dvd_of_lt hdvd (by omega)
    have hexact := endRun_exact (hin R rfl) hleft hd
    simp only [forall_prop_of_true hlast, Option.map_some, Option.toList_some, List.map_cons,
      List.map_nil, List.getLast?_append, List.getLast?_singleton, Option.some_or,
      Option.mem_some_iff, forall_eq', CutsAtEnd, hrest, ← hzero]
    rw [hexact]
    simp only [cutRun]
    constructor
    · rintro (h | ⟨h0, h1, h2⟩)
      · exact Or.inl h
      · exact Or.inr ⟨h0, by omega, h2⟩
    · rintro (h | ⟨h0, h1, h2⟩)
      · exact Or.inl h
      · exact Or.inr ⟨h0, by omega, h2⟩

theorem first_device (cs : List BlobChunk) :
    (∀ c ∈ cs, ¬ c.OnDevice) ∨
      ∃ front d ds, cs = front ++ d :: ds ∧ (∀ c ∈ front, ¬ c.OnDevice) ∧ d.OnDevice := by
  induction cs with
  | nil => exact Or.inl (by simp)
  | cons c cs ih =>
    by_cases hdev : c.OnDevice
    · exact Or.inr ⟨[], c, cs, rfl, by simp, hdev⟩
    · rcases ih with h | ⟨front, d, ds, rfl, hfront, hd⟩
      · exact Or.inl (List.forall_mem_cons.mpr ⟨hdev, h⟩)
      · exact Or.inr ⟨c :: front, d, ds, rfl, List.forall_mem_cons.mpr ⟨hdev, hfront⟩, hd⟩

theorem lists_device {left : ℕ} (hvalid : inode.Valid remappedBase) (hleft : left < 2 ^ 32)
    {front ds : List BlobChunk} {d : BlobChunk} (hchunks : inode.chunks = front ++ d :: ds)
    (hfront : ∀ c ∈ front, ¬ c.OnDevice) (hdev : d.OnDevice) :
    reportedRuns inode remappedBase left none 0 inode.chunks = inode.fileRuns remappedBase ↔
      (∀ c ∈ front.getLast?, c.IsHole) ∧ (∀ c ∈ ds, c.OnDevice) ∧ left = 0 := by
  have hlt := hvalid.needed
  have hcb := chunkblks_pos inode
  rw [← length_chunks, hchunks, List.length_append, List.length_cons, Nat.add_mul,
    Nat.succ_mul] at hlt
  have hfile : inode.fileRuns remappedBase =
      (codeRuns inode remappedBase none 0 front).1 ++
        runs (codeRuns inode remappedBase none 0 front).2 (front.length * inode.chunkblks)
          (blocksOf inode remappedBase (inode.blocks - front.length * inode.chunkblks)
            (d :: ds)) := by
    have h := @runs_blocksOf_append inode remappedBase front (d :: ds) hfront none 0 inode.blocks
      (by omega)
    rw [Nat.zero_mul, Nat.zero_add, ← hchunks] at h
    exact h
  rw [hfile, hchunks, reportedRuns_append, List.append_cancel_left_eq, Nat.zero_add,
    reportedRuns_cons_device hdev, runs_cons_device hdev _ _ (by omega), ← codeRuns_open_none front 0]
  have hsucc : (front.length + 1) * inode.chunkblks =
      front.length * inode.chunkblks + inode.chunkblks := Nat.succ_mul _ _
  rcases hopen : (codeRuns inode remappedBase none 0 front).2 with _ | g
  · have hinside : ∀ c ∈ d :: ds, ¬ c.IsHole →
        chunkAddr remappedBase c + inode.chunkblks < erofsNullAddr := by
      intro c hc
      apply hvalid.inside
      rw [hchunks]
      exact List.mem_append_right _ hc
    rw [List.forall_mem_cons] at hinside
    have haddr := hinside.1 hdev.1
    rw [chunkAddr, if_pos hdev.2] at haddr
    rw [Option.toList_none, List.nil_append, and_iff_right rfl]
    exact reportedRuns_device hleft ds (by simp only; omega) hcb haddr hinside.2
      (next_pos (by omega)) (by omega)
  · -- the extent that was open is lost
    have hne : ¬ (some g = none ∧ (∀ c ∈ ds, c.OnDevice) ∧ left = 0) := fun h => by cases h.1
    rw [iff_false_right hne]
    have hfrontPos : g.pos < front.length * inode.chunkblks := by
      rcases pos_of_codeRuns front (Or.inr hopen) with ⟨q, hq, -⟩ | ⟨-, h⟩
      · cases hq
      · rwa [Nat.zero_add] at h
    apply (ne_of_pos (List.mem_append_left _ (List.mem_singleton_self g)) _).symm
    intro r hr heq
    rcases pos_of_reportedRuns hr with ⟨q, hq, hpos⟩ | h
    · obtain rfl := Option.mem_some_iff.mp hq
      simp only at hpos
      omega
    · omega

theorem codeRuns_devices {ds : List BlobChunk} (hds : ∀ c ∈ ds, c.OnDevice) (p : Option Run) (k : ℕ) :
    (codeRuns inode remappedBase p k ds).1 = [] := by
  induction ds generalizing p k with
  | nil => rfl
  | cons c cs ih =>
    rw [List.forall_mem_cons] at hds
    have hole : ¬ c.IsHole := hds.1.1
    rw [codeRuns_cons, ih hds.2, List.append_nil]
    simp only [codeRuns, if_neg hole, if_pos hds.1, List.append_nil]

theorem blocksOf_devices {ds : List BlobChunk} (hds : ∀ c ∈ ds, c.OnDevice) (m : ℕ) :
    ∀ x ∈ blocksOf inode remappedBase m ds, x = none := by
  intro x hx
  obtain ⟨c, hc, hxc⟩ := List.mem_flatMap.mp (List.mem_of_mem_take hx)
  rw [chunkBlocks, if_pos (Or.inr (hds c hc))] at hxc
  exact List.eq_of_mem_replicate hxc

theorem left_wrapped {left : ℕ} (hvalid : inode.Valid remappedBase) (hleft : left < 2 ^ 32)
    (hsum : (left + ((codeRuns inode remappedBase none 0 inode.chunks).1.map Run.len).sum) % 2 ^ 32 =
      inode.blocks % 2 ^ 32)
    {front devs : List BlobChunk} (hchunks : inode.chunks = front ++ devs) (hne : devs ≠ [])
    (hfront : ∀ c ∈ front, ¬ c.OnDevice) (hholes : ∀ c ∈ front.getLast?, c.IsHole)
    (hdevs : ∀ c ∈ devs, c.OnDevice) : left = u32 (inode.otherBlocks remappedBase) := by
  have hlt := hvalid.needed
  have htotal := sum_fileRuns hvalid
  have hdlen := List.length_pos_of_ne_nil hne
  have hmul : inode.chunkblks ≤ devs.length * inode.chunkblks := Nat.le_mul_of_pos_left _ hdlen
  rw [← length_chunks, hchunks, List.length_append, Nat.add_mul] at hlt
  have hopen := (@codeRuns_open_none inode remappedBase front 0).mpr hholes
  have hfile : inode.fileRuns remappedBase = (codeRuns inode remappedBase none 0 front).1 := by
    have h := @runs_blocksOf_append inode remappedBase front devs hfront none 0 inode.blocks
      (by omega)
    rw [Nat.zero_mul, hopen, runs_none_of_gaps (blocksOf_devices hdevs _), List.append_nil,
      ← hchunks] at h
    exact h
  rw [hchunks, codeRuns_append, codeRuns_devices hdevs, List.append_nil, ← hfile] at hsum
  rw [u32]
  omega

/-- There is one way to cut the chunks in front of the first one on an extra device. -/
theorem front_unique {front front' ds devs : List BlobChunk} {d : BlobChunk}
    (heq : front ++ d :: ds = front' ++ devs) (hfront : ∀ c ∈ front, ¬ c.OnDevice)
    (hd : d.OnDevice) (hfront' : ∀ c ∈ front', ¬ c.OnDevice) (hne : devs ≠ [])
    (hdevs : ∀ c ∈ devs, c.OnDevice) : front = front' ∧ d :: ds = devs := by
  have htake : ∀ {l l' : List BlobChunk} {e : BlobChunk}, (∀ c ∈ l, ¬ c.OnDevice) → e.OnDevice →
      (l ++ e :: l').takeWhile (fun c => decide (¬ c.OnDevice)) = l := by
    intro l l' e hl he
    rw [List.takeWhile_append_of_pos (fun c hc => decide_eq_true (hl c hc)),
      List.takeWhile_cons_of_neg (by simp [he]), List.append_nil]
  obtain ⟨e, es, rfl⟩ := List.exists_cons_of_ne_nil hne
  have hsame := congrArg (List.takeWhile fun c => decide (¬ c.OnDevice)) heq
  rw [htake hfront hd, htake hfront' (hdevs e List.mem_cons_self)] at hsame
  subst hsame
  exact ⟨rfl, List.append_cancel_left heq⟩

/-- The block lists get the runs of the file on the primary device exactly when no chunk is on an
extra device and the last extent is cut right, or when nothing is left to report behind the first
chunk on an extra device. -/
theorem erofsBlobWriteChunkIndexes_exact (hvalid : inode.Valid remappedBase) (off : ℕ) :
    (inode.erofsBlobWriteChunkIndexes remappedBase off).1.map (·.run) =
        inode.fileRuns remappedBase ↔
      inode.ListsPrimary remappedBase ∨ inode.ListsWrapped remappedBase := by
  obtain ⟨left, hleft, hsum, hin, heq⟩ := blockLists_eq hvalid off
  rw [heq]
  rcases first_device inode.chunks with hdev | ⟨front, d, ds, hchunks, hfront, hd⟩
  · rw [lists_primary hvalid hleft hsum hin hdev, ListsPrimary, and_iff_right hdev, iff_self_or]
    rintro ⟨front, devs, hchunks, hne, -, hdevs, -⟩
    obtain ⟨d, hd⟩ := List.exists_mem_of_ne_nil devs hne
    exact absurd (hdevs d hd) (hdev d (by rw [hchunks]; exact List.mem_append_right _ hd))
  · have hprimary : ¬ inode.ListsPrimary remappedBase := by
      intro h
      exact h.1 d (by simp [hchunks]) hd
    rw [lists_device hvalid hleft hchunks hfront hd, or_iff_right hprimary]
    constructor
    · rintro ⟨hholes, hds, rfl⟩
      have hdevs : ∀ c ∈ d :: ds, c.OnDevice := List.forall_mem_cons.mpr ⟨hd, hds⟩
      have hwrap := left_wrapped hvalid hleft hsum hchunks (List.cons_ne_nil d ds) hfront hholes hdevs
      exact ⟨front, d :: ds, hchunks, List.cons_ne_nil d ds, hfront, hdevs, hholes, hwrap.symm⟩
    · rintro ⟨front', devs, hchunks', hne, hfront', hdevs, hholes, hzero⟩
      obtain ⟨rfl, rfl⟩ := front_unique (hchunks.symm.trans hchunks') hfront hd hfront' hne hdevs
      have hwrap := left_wrapped hvalid hleft hsum hchunks hne hfront hholes hdevs
      exact ⟨hholes, (List.forall_mem_cons.mp hdevs).2, hwrap.trans hzero⟩

/-- A file of 5 blocks in chunks of 4 blocks: the chunk at the address 0 is a hole, the one at 1 is at
block 10 of the image, the one at 2 at block 20 of the extra device. -/
def fiveBlocks (first second : UInt8) : ChunkInode where
  chunkAt p := if p = 0 then ⟨0, erofsNullAddr, 0⟩ else if p = 1 then ⟨0, 10, 0⟩ else ⟨1, 20, 0⟩
  chunkindexes i := if i = 0 then first else if i = 8 then second else 0
  extentIsize := 16
  blocks := 5
  indexes := true
  blkbits := 2

theorem fiveBlocks_valid (first second : UInt8) : (fiveBlocks first second).Valid 0 := by
  have hcount : (fiveBlocks first second).chunkCount = 2 := by simp [chunkCount, unit, fiveBlocks]
  refine ⟨?_, ?_, ?_, ?_⟩
  · rw [hcount]
    rfl
  · rw [hcount]
    simp [chunkblks, fiveBlocks]
  · rw [hcount]
    simp [chunkblks, fiveBlocks]
  intro c hc hole
  have hall : ∀ p, chunkAddr 0 ((fiveBlocks first second).chunkAt p) + 4 < erofsNullAddr ∨
      ((fiveBlocks first second).chunkAt p).IsHole := by
    intro p
    simp only [fiveBlocks]
    split_ifs <;> decide
  obtain ⟨k, -, rfl⟩ := List.mem_map.mp hc
  exact (hall _).resolve_right hole

theorem erofsBlobWriteChunkIndexes_exact_data :
    ((fiveBlocks 1 0).erofsBlobWriteChunkIndexes 0 0).1.map (·.run) = (fiveBlocks 1 0).fileRuns 0 :=
  (erofsBlobWriteChunkIndexes_exact (fiveBlocks_valid 1 0) 0).mpr (Or.inl (by
    constructor
    · decide
    · rintro ⟨c, hc, hole⟩
      obtain rfl := Option.mem_some_iff.mp hc
      exact absurd rfl hole))

/-- A data chunk behind a hole is reported with the blocks behind the end of the file; a chunk in
front of one on the extra device is not reported, and the blocks of the extra device are. -/
theorem erofsBlobWriteChunkIndexes_hole :
    ((fiveBlocks 0 1).Valid 0 ∧ (fiveBlocks 0 1).fileRuns 0 = [⟨4, 10, 1⟩] ∧
      ((fiveBlocks 0 1).erofsBlobWriteChunkIndexes 0 0).1.map (·.run) = [⟨4, 10, 4⟩]) ∧
    (fiveBlocks 1 2).Valid 0 ∧ (fiveBlocks 1 2).fileRuns 0 = [⟨0, 10, 4⟩] ∧
      ((fiveBlocks 1 2).erofsBlobWriteChunkIndexes 0 0).1.map (·.run) = [⟨4, 20, 4⟩] := by
  refine ⟨⟨fiveBlocks_valid 0 1, ?_, ?_⟩, fiveBlocks_valid 1 2, ?_, ?_⟩ <;> decide

end Exact

end ChunkInode

end ErofsUtils
