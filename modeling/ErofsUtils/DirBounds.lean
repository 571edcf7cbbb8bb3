import ErofsUtils.DirBlocks

/-!
# Where directory parsing looks

Both parsers follow the first offset of a block, which they hold against the block size and not
against the bytes read, and look for the end of a last name before they have seen whether it
starts inside of these. They stay within the bytes read exactly on directories where every entry
that they reach lies inside.
-/

namespace ErofsUtils
open ByteMemory CString

namespace Dirent

variable {mem : Mem} {stop maxsize k : ℕ}

/-- The bytes looked at for the name of an entry have been read. -/
def NameReadable (mem : Mem) (stop maxsize k : ℕ) : Prop :=
  if isLast stop k then 12 * k + 10 ≤ maxsize ∧ nameoff mem k ≤ maxsize
  else 12 * k + 22 ≤ maxsize

/-- The same for all that a traversal looks at: it goes on to the file type where the name is in
place. -/
def EntryReadable (mem : Mem) (stop maxsize k : ℕ) : Prop :=
  NameReadable mem stop maxsize k ∧
    (Placed mem stop maxsize (next mem stop maxsize k) k → 12 * k + 11 ≤ maxsize)

theorem nameReads_inside (h : NameReadable mem stop maxsize k) (hm : maxsize < 2 ^ 32) {p : ℕ}
    (hp : p ∈ nameReads mem stop maxsize k ++ List.range' (12 * k) 8) : p < maxsize := by
  rw [NameReadable] at h
  rw [nameReads, List.mem_append, List.mem_append, List.mem_range'_1, List.mem_range'_1] at hp
  by_cases hl : isLast stop k = true
  · rw [if_pos hl] at h hp
    rcases hp with (hp | hp) | hp
    · omega
    · rw [subU32_of_le h.2 hm] at hp
      have hi := strnlenReads_inside hp
      omega
    · omega
  · rw [if_neg hl] at h hp
    rw [List.mem_range'_1] at hp
    omega

/-- Reading a name at a place behind the end of the bytes looks at that place. -/
theorem nameReadable_of_reads (h : ∀ p ∈ nameReads mem stop maxsize k, p < maxsize) :
    NameReadable mem stop maxsize k := by
  have hoff : 12 * k + 9 < maxsize := by
    apply h
    rw [nameReads, List.mem_append, List.mem_range'_1]
    omega
  rw [NameReadable]
  by_cases hl : isLast stop k = true
  · rw [if_pos hl]
    refine ⟨by omega, ?_⟩
    by_contra hgt
    have hlt := nameoff_lt mem k
    have hpos : 0 < subU32 maxsize (nameoff mem k) := by
      rw [subU32_of_gt (by omega)]
      omega
    have hin := h (nameoff mem k) (by
      rw [nameReads, List.mem_append, if_pos hl]
      exact Or.inr (start_mem_strnlenReads hpos))
    omega
  · rw [if_neg hl]
    have hnext := h (12 * (k + 1) + 9) (by
      rw [nameReads, List.mem_append, if_neg hl, List.mem_range'_1, List.mem_range'_1]
      omega)
    omega

end Dirent

/-- The names handed out lie within the bytes read for their block and have a valid length. -/
def NamesInside (entries : List (ℕ × DirVisit)) : Prop :=
  ∀ e ∈ entries, 1 ≤ e.2.dname.length ∧ e.2.dname.length ≤ erofsNameLen ∧
    e.2.pos + e.2.dname.length ≤ e.1

theorem namesInside_snoc {es : List (ℕ × DirVisit)} {e : ℕ × DirVisit} :
    NamesInside (es ++ [e]) ↔ NamesInside es ∧ 1 ≤ e.2.dname.length ∧
      e.2.dname.length ≤ erofsNameLen ∧ e.2.pos + e.2.dname.length ≤ e.1 := by
  rw [NamesInside, List.forall_mem_append, List.forall_mem_singleton]
  rfl

def PrevInside (maxsize : ℕ) (prev : Option (ℕ × ℕ)) : Prop :=
  ∀ q, prev = some q → q.1 + q.2 ≤ maxsize

section Turn

theorem lookIf_inBlock {σ : Type*} {w : DirWalk σ} (c : Bool) (m : ℕ) (ps : List ℕ)
    (hw : InBlock w.inspected) (hp : ∀ p ∈ ps, p < m) :
    InBlock (if c = true then w.look m ps else w).inspected := by
  split
  · exact look_inBlock m ps hw hp
  · exact hw

variable {σ : Type*} {sbi : DirSb} {dir : DirInode} {fsck : Bool} {mem : Mem}
variable {stop maxsize k next : ℕ} {prev : Option (ℕ × ℕ)} {w w' : DirWalk σ} {v : DirVisit}

theorem orderReads_inside {nameoff namelen p : ℕ} (hprev : PrevInside maxsize prev)
    (hname : nameoff + namelen ≤ maxsize) (h : p ∈ orderReads mem nameoff namelen prev) :
    p < maxsize := by
  cases prev with
  | none => simp [orderReads] at h
  | some q =>
      have hq := hprev q rfl
      have hp := strncmpReads_inside h
      omega

/-- The step lemma of the walk over places: a turn at an entry that is readable keeps within the
bytes read. -/
theorem direntTurn_inBlock (hm : maxsize < 2 ^ 32)
    (hname : Dirent.NameReadable mem stop maxsize k)
    (htype : Dirent.Placed mem stop maxsize next k → 12 * k + 11 ≤ maxsize)
    (hprev : PrevInside maxsize prev) (hw : InBlock w.inspected) {r : Except DirentFault DirVisit}
    (hturn : direntTurn sbi dir fsck mem stop maxsize k next prev w = (r, w')) :
    InBlock w'.inspected := by
  have he : w' = (direntTurn sbi dir fsck mem stop maxsize k next prev w).2 := by rw [hturn]
  rw [he]
  have h1 := look_inBlock maxsize (Dirent.nameReads mem stop maxsize k ++ List.range' (12 * k) 8)
    hw (fun p hp => Dirent.nameReads_inside hname hm hp)
  unfold direntTurn
  dsimp only
  split
  · exact h1
  next hoff =>
  split
  · exact h1
  next hlen =>
  have hplaced := placed_of_not_fault hoff hlen
  have hin := hplaced.2.1.inside
  have h2 := lookIf_inBlock fsck maxsize
    (orderReads mem (Dirent.nameoff mem k) (Dirent.namelen mem stop maxsize k) prev) h1
    (fun p hp => orderReads_inside hprev hin hp)
  split
  · exact h2
  have h3 := look_inBlock maxsize [12 * k + 10] h2 (by
    intro p hp
    rw [List.mem_singleton] at hp
    have ht := htype hplaced
    omega)
  split
  · exact h3
  have h4 := look_inBlock maxsize
    (dotReads mem (Dirent.nameoff mem k) (Dirent.namelen mem stop maxsize k)) h3 (by
      intro p hp
      have hd := dotReads_inside hp
      omega)
  split
  · split
    · exact h4
    · exact h4
  · have h5 := lookIf_inBlock fsck maxsize
      (validateReads mem (Dirent.nameoff mem k) (Dirent.namelen mem stop maxsize k)) h4 (by
        intro p hp
        have hd := validateReads_inside hp
        omega)
    split
    · exact h5
    · exact h5

end Turn

/-- The entries that a walk reaches which stops at the first one that does not pass. -/
def ReachedFit (stop : ℕ) (passes fits : ℕ → Prop) : Prop :=
  ∀ k, 12 * k < stop → (∀ j < k, passes j) → fits k

def AllPass (stop : ℕ) (passes : ℕ → Prop) : Prop := ∀ k, 12 * k < stop → passes k

/-- The name of an entry is where the entries before it say. -/
def Dirent.InPlace (mem : Mem) (stop maxsize k : ℕ) : Prop :=
  Placed mem stop maxsize (next mem stop maxsize k) k

theorem allPass_of_lt {stop k : ℕ} {passes : ℕ → Prop} (hk : stop ≤ 12 * k)
    (h : ∀ j < k, passes j) : AllPass stop passes := by
  intro j hj
  exact h j (by omega)

theorem forall_lt_succ {k : ℕ} {passes : ℕ → Prop} (h : ∀ j < k, passes j) (hk : passes k) :
    ∀ j < k + 1, passes j := by
  intro j hj
  rcases Nat.lt_succ_iff_lt_or_eq.mp hj with hlt | rfl
  · exact h j hlt
  · exact hk

section Traverse

variable {σ : Type*} {sbi : DirSb} {dir : DirInode} {fsck : Bool}
variable {cb : DirVisit → σ → Option (ℤ × σ)} {mem : Mem} {stop maxsize : ℕ}

structure WalkKept (mem : Mem) (stop maxsize k : ℕ) (prev : Option (ℕ × ℕ)) (w : DirWalk σ) :
    Prop where
  before : ∀ j < k, Dirent.InPlace mem stop maxsize j
  prev : PrevInside maxsize prev
  inBlock : InBlock w.inspected
  names : NamesInside w.delivered

theorem deliver_some {v : DirVisit} {w w' : DirWalk σ} {ret : ℤ}
    (h : deliver cb maxsize v w = some (ret, w')) :
    w'.inspected = w.inspected ∧ w'.marks = w.marks ∧
      w'.delivered = w.delivered ++ [(maxsize, v)] ∧ cb v w.st = some (ret, w'.st) := by
  unfold deliver at h
  split at h
  · cases h
  · next r st hcb =>
      rw [Option.some.injEq, Prod.mk.injEq] at h
      rw [← h.2, ← h.1]
      exact ⟨rfl, rfl, rfl, hcb⟩

theorem WalkKept.turn {k : ℕ} {prev : Option (ℕ × ℕ)} {w w' w'' : DirWalk σ} {v : DirVisit}
    {ret : ℤ} (hm : maxsize < 2 ^ 32) (hI : WalkKept mem stop maxsize k prev w)
    (hent : Dirent.EntryReadable mem stop maxsize k)
    (hturn : direntTurn sbi dir fsck mem stop maxsize k (Dirent.next mem stop maxsize k) prev w =
      (.ok v, w')) (hcb : deliver cb maxsize v w' = some (ret, w'')) :
    WalkKept mem stop maxsize (k + 1) (some (v.pos, v.dname.length)) w'' := by
  have hok := direntTurn_ok hturn
  have hlen := hok.next_eq
  have hpos : v.pos = Dirent.nameoff mem k := by rw [hok.visit]; rfl
  have hin := hok.placed.2.1.inside
  have hname : 1 ≤ v.dname.length ∧ v.dname.length ≤ erofsNameLen ∧
      v.pos + v.dname.length ≤ maxsize := by
    have h1 := hok.placed.2.1.2
    have h2 := hok.placed.2.2
    rw [hlen, hpos]
    exact ⟨by omega, h1, hin⟩
  obtain ⟨hinsp, -, hdel, -⟩ := deliver_some hcb
  constructor
  · exact forall_lt_succ hI.before hok.placed
  · intro q hq
    cases hq
    exact hname.2.2
  · rw [hinsp]
    exact direntTurn_inBlock hm hent.1 hent.2 hI.prev hI.inBlock hturn
  · rw [hdel, hok.delivered, namesInside_snoc]
    exact ⟨hI.names, hname⟩

/-- On a block whose reached entries are readable every walk keeps within the bytes read. -/
theorem traverse_inside_rule (hm : maxsize < 2 ^ 32)
    (hfit : ReachedFit stop (Dirent.InPlace mem stop maxsize)
      (Dirent.EntryReadable mem stop maxsize)) :
    TraverseRule sbi dir fsck cb mem stop maxsize (WalkKept mem stop maxsize)
      (fun e w => InBlock w.inspected ∧ NamesInside w.delivered ∧
        (e = .done → AllPass stop (Dirent.InPlace mem stop maxsize))) := by
  constructor
  · intro k prev w hk hI
    exact ⟨hI.inBlock, hI.names, fun _ => allPass_of_lt hk hI.before⟩
  · intro k prev w e w' hk hI hturn
    have hent := hfit k hk hI.before
    have hin := direntTurn_inBlock hm hent.1 hent.2 hI.prev hI.inBlock hturn
    refine ⟨hin, ?_, fun he => by cases he⟩
    rw [(direntTurn_delivered hturn).1]
    exact hI.names
  · intro k prev w v w' ret w'' hk hI hturn hcb _
    have hent := hfit k hk hI.before
    have hI' := hI.turn hm hent hturn hcb
    exact ⟨hI'.inBlock, hI'.names, fun he => by cases he⟩
  · intro k prev w v w' w'' hk hI hturn hcb
    have hent := hfit k hk hI.before
    exact hI.turn hm hent hturn hcb

theorem traverse_done_rule :
    TraverseRule sbi dir fsck cb mem stop maxsize
      (fun k _ _ => ∀ j < k, Dirent.InPlace mem stop maxsize j)
      (fun e _ => e = .done → AllPass stop (Dirent.InPlace mem stop maxsize)) := by
  constructor
  · intro k prev w hk hI _
    exact allPass_of_lt hk hI
  · intro k prev w e w' _ _ _ he
    cases he
  · intro k prev w v w' ret w'' _ _ _ _ _ he
    cases he
  · intro k prev w v w' w'' _ hI hturn _
    exact forall_lt_succ hI (direntTurn_ok hturn).placed

theorem traverse_done_allPass {w w' : DirWalk σ}
    (h : traverseDirents sbi dir fsck cb mem stop maxsize w = some (.done, w')) :
    AllPass stop (Dirent.InPlace mem stop maxsize) :=
  traverseDirents_rule traverse_done_rule (fun j hj => absurd hj (Nat.not_lt_zero j)) h rfl

def EntryRecorded (mem : Mem) (stop maxsize k : ℕ) (places : List (ℕ × ℕ)) : Prop :=
  (∀ p ∈ Dirent.nameReads mem stop maxsize k, (p, maxsize) ∈ places) ∧
    (Dirent.InPlace mem stop maxsize k → (12 * k + 10, maxsize) ∈ places)

theorem EntryRecorded.mono {k : ℕ} {as bs : List (ℕ × ℕ)} (h : EntryRecorded mem stop maxsize k as)
    (hs : as ⊆ bs) : EntryRecorded mem stop maxsize k bs :=
  ⟨fun p hp => hs (h.1 p hp), fun hk => hs (h.2 hk)⟩

theorem EntryRecorded.readable {k : ℕ} {places : List (ℕ × ℕ)}
    (h : EntryRecorded mem stop maxsize k places) (hin : InBlock places) :
    Dirent.EntryReadable mem stop maxsize k := by
  constructor
  · exact Dirent.nameReadable_of_reads (fun p hp => hin _ (h.1 p hp))
  · intro hk
    exact hin _ (h.2 hk)

/-- A walk that neither checks nor is stopped has everything that can be reached on record. -/
theorem traverse_quiet_rule (hcb : ∀ v st, cb v st = some (0, st)) (w₀ : DirWalk σ) :
    TraverseRule sbi dir false cb mem stop maxsize
      (fun k _ w => w₀.inspected ⊆ w.inspected ∧ ∀ j < k,
        Dirent.InPlace mem stop maxsize j ∧ EntryRecorded mem stop maxsize j w.inspected)
      (fun e w => w₀.inspected ⊆ w.inspected ∧
        ReachedFit stop (Dirent.InPlace mem stop maxsize)
          (fun k => EntryRecorded mem stop maxsize k w.inspected) ∧
        (AllPass stop (Dirent.InPlace mem stop maxsize) → e = .done)) := by
  have hturnOk : ∀ {k prev w v w' ret w''},
      direntTurn sbi dir false mem stop maxsize k (Dirent.next mem stop maxsize k) prev w =
        (.ok v, w') → deliver cb maxsize v w' = some (ret, w'') →
      Dirent.InPlace mem stop maxsize k ∧ ret = 0 ∧ w.inspected ⊆ w''.inspected ∧
        EntryRecorded mem stop maxsize k w''.inspected := by
    intro k prev w v w' ret w'' hturn hd
    have hplaced := (direntTurn_ok hturn).placed
    obtain ⟨hinsp, -, -, hret⟩ := deliver_some hd
    rw [hcb, Option.some.injEq, Prod.mk.injEq] at hret
    rw [direntTurn_unchecked hplaced, Prod.mk.injEq] at hturn
    rw [hinsp, ← hturn.2]
    refine ⟨hplaced, hret.1.symm, ?_, ?_, ?_⟩
    · intro q hq
      exact mem_look_of_mem (mem_look_of_mem (mem_look_of_mem hq))
    · intro p hp
      apply mem_look_of_mem
      apply mem_look_of_mem
      exact mem_look (List.mem_append_left _ hp)
    · intro _
      apply mem_look_of_mem
      exact mem_look (List.mem_singleton.mpr rfl)
  constructor
  · intro k prev w hk hI
    refine ⟨hI.1, ?_, fun _ => rfl⟩
    intro j hj _
    exact (hI.2 j (by omega)).2
  · intro k prev w e w' hk hI hturn
    have hnot : ¬ Dirent.InPlace mem stop maxsize k := by
      intro hp
      rw [direntTurn_unchecked hp] at hturn
      cases hturn
    have hmis : ∃ e', direntTurn sbi dir false mem stop maxsize k
        (Dirent.next mem stop maxsize k) prev w = (.error e', w.look maxsize
          (Dirent.nameReads mem stop maxsize k ++ List.range' (12 * k) 8)) :=
      direntTurn_misplaced hnot
    obtain ⟨e', he'⟩ := hmis
    rw [he', Prod.mk.injEq] at hturn
    rw [← hturn.2]
    refine ⟨fun q hq => mem_look_of_mem (hI.1 hq), ?_, fun hall => absurd (hall k hk) hnot⟩
    intro j hj hbefore
    rcases Nat.lt_trichotomy j k with hlt | rfl | hgt
    · exact (hI.2 j hlt).2.mono (fun q hq => mem_look_of_mem hq)
    · exact ⟨fun p hp => mem_look (List.mem_append_left _ hp), fun hp => absurd hp hnot⟩
    · exact absurd (hbefore k hgt) hnot
  · intro k prev w v w' ret w'' hk hI hturn hd hret
    exact absurd (hturnOk hturn hd).2.1 hret
  · intro k prev w v w' w'' hk hI hturn hd
    obtain ⟨hp, -, hsub, hrec⟩ := hturnOk hturn hd
    refine ⟨fun q hq => hsub (hI.1 hq), ?_⟩
    apply forall_lt_succ
    · intro j hj
      exact ⟨(hI.2 j hj).1, (hI.2 j hj).2.mono hsub⟩
    · exact ⟨hp, hrec⟩

end Traverse

section Blocks

variable (sbi : DirSb) (dir : DirInode) (buf : Mem)

def atBlock (p : Mem → ℕ → ℕ → ℕ → Prop) (i k : ℕ) : Prop :=
  p (dirBlock sbi dir buf i) (dirStop sbi dir buf i) (dirBlockSize sbi dir i) k

def BlockPasses (passes : Mem → ℕ → ℕ → ℕ → Prop) (i : ℕ) : Prop :=
  DirReadable sbi dir i ∧ DirStopOk sbi dir buf i ∧
    AllPass (dirStop sbi dir buf i) (atBlock sbi dir buf passes i)

/-- In each block that a walk reads the first offset has been read, and where that is valid so
has what the walk looks at for each entry that it reaches. -/
def WalkInside (passes fits : Mem → ℕ → ℕ → ℕ → Prop) : Prop :=
  ∀ i, i * sbi.blksz < dir.iSize → (∀ j < i, BlockPasses sbi dir buf passes j) →
    DirReadable sbi dir i → 10 ≤ dirBlockSize sbi dir i ∧
      (DirStopOk sbi dir buf i →
        ReachedFit (dirStop sbi dir buf i) (atBlock sbi dir buf passes i)
          (atBlock sbi dir buf fits i))

/-- Whatever the callback does, an iteration looks only at bytes read for the current block, and
hands out only names in these. -/
def IteratesInside : Prop :=
  ∀ (σ : Type) (fsck : Bool) (cb : DirVisit → σ → Option (ℤ × σ)) (marks : DirMarks) (st : σ)
    (r : ℤ) (w : DirWalk σ), erofsIterateDir sbi dir fsck cb buf marks st = some (r, w) →
      InBlock w.inspected ∧ NamesInside w.delivered

def LooksUpInside : Prop :=
  ∀ name : FileName, 0 < name.length →
    InBlock (nameiLoop sbi dir name dir.iSize 0 buf).inspected ∧
      ∀ e, (nameiLoop sbi dir name dir.iSize 0 buf).matched = some e →
        1 ≤ e.2.2 ∧ e.2.2 ≤ erofsNameLen ∧ e.2.1 + e.2.2 ≤ e.1

end Blocks

section Iterate

variable {σ : Type*} {sbi : DirSb} {dir : DirInode} {fsck : Bool} {buf : Mem}
variable {cb : DirVisit → σ → Option (ℤ × σ)}

theorem iterate_inside_rule
    (h : WalkInside sbi dir buf Dirent.InPlace Dirent.EntryReadable) :
    IterateRule sbi dir fsck cb buf
      (fun i w => InBlock w.inspected ∧ NamesInside w.delivered ∧
        ∀ j < i, BlockPasses sbi dir buf Dirent.InPlace j)
      (fun _ w => InBlock w.inspected ∧ NamesInside w.delivered) := by
  have hfirst : ∀ {i : ℕ} {w : DirWalk σ}, InBlock w.inspected → 10 ≤ dirBlockSize sbi dir i →
      InBlock (w.look (dirBlockSize sbi dir i) (List.range' 8 2)).inspected := by
    intro i w hw h10
    apply look_inBlock _ _ hw
    intro p hp
    rw [List.mem_range'_1] at hp
    omega
  constructor
  · intro i w _ hI
    exact ⟨hI.1, hI.2.1⟩
  · intro i w e _ hI _
    exact ⟨hI.1, hI.2.1⟩
  · intro i w hi hI hr hs
    exact ⟨hfirst hI.1 (h i hi hI.2.2 hr).1, hI.2.1⟩
  · intro i w e w' hi hI hr hs hw'
    obtain ⟨h10, hfit⟩ := h i hi hI.2.2 hr
    have hkept : WalkKept (dirBlock sbi dir buf i) (dirStop sbi dir buf i) (dirBlockSize sbi dir i)
        0 none (w.look (dirBlockSize sbi dir i) (List.range' 8 2)) := by
      constructor
      · intro j hj
        omega
      · intro q hq
        cases hq
      · exact hfirst hI.1 h10
      · exact hI.2.1
    have hrun := traverseDirents_rule (traverse_inside_rule (dirBlockSize_lt i) (hfit hs)) hkept hw'
    refine ⟨fun he => ⟨hrun.1, hrun.2.1, ?_⟩, fun _ => ⟨hrun.1, hrun.2.1⟩⟩
    exact forall_lt_succ hI.2.2 ⟨hr, hs, hrun.2.2 he⟩

theorem iteratesInside_of_walkInside
    (h : WalkInside sbi dir buf Dirent.InPlace Dirent.EntryReadable) :
    IteratesInside sbi dir buf := by
  intro σ fsck cb marks st r w hrun
  have hstart : InBlock (DirWalk.start marks st).inspected ∧
      NamesInside (DirWalk.start marks st).delivered ∧
      ∀ j < 0, BlockPasses sbi dir buf Dirent.InPlace j := by
    refine ⟨?_, ?_, ?_⟩
    · intro p hp
      cases hp
    · intro e he
      cases he
    · intro j hj
      omega
  unfold erofsIterateDir at hrun
  split at hrun
  · rw [Option.some.injEq, Prod.mk.injEq] at hrun
    rw [← hrun.2]
    exact ⟨hstart.1, hstart.2.1⟩
  · split at hrun
    · cases hrun
    · next e w1 hl =>
        rw [Option.some.injEq, Prod.mk.injEq] at hrun
        rw [← hrun.2]
        exact iterateLoop_start_rule (iterate_inside_rule h) hstart hl
    · next err w1 hl =>
        have hin := iterateLoop_start_rule (iterate_inside_rule h) hstart hl
        split at hrun <;> rw [Option.some.injEq, Prod.mk.injEq] at hrun <;> rw [← hrun.2]
        · exact hin
        · exact hin

def BlockRecorded (sbi : DirSb) (dir : DirInode) (buf : Mem) (i : ℕ) (places : List (ℕ × ℕ)) :
    Prop :=
  (∀ p ∈ List.range' 8 2, (p, dirBlockSize sbi dir i) ∈ places) ∧
    (DirStopOk sbi dir buf i →
      ReachedFit (dirStop sbi dir buf i) (atBlock sbi dir buf Dirent.InPlace i)
        (fun k => EntryRecorded (dirBlock sbi dir buf i) (dirStop sbi dir buf i)
          (dirBlockSize sbi dir i) k places))

theorem BlockRecorded.mono {i : ℕ} {as bs : List (ℕ × ℕ)} (h : BlockRecorded sbi dir buf i as)
    (hs : as ⊆ bs) : BlockRecorded sbi dir buf i bs :=
  ⟨fun p hp => hs (h.1 p hp), fun hok k hk hb => (h.2 hok k hk hb).mono hs⟩

theorem recorded_upTo {places : List (ℕ × ℕ)} {i : ℕ}
    (hbefore : ∀ j < i, BlockPasses sbi dir buf Dirent.InPlace j ∧
      BlockRecorded sbi dir buf j places)
    (hat : DirReadable sbi dir i → BlockRecorded sbi dir buf i places)
    (hend : ¬ BlockPasses sbi dir buf Dirent.InPlace i) (j : ℕ)
    (hj : ∀ k < j, BlockPasses sbi dir buf Dirent.InPlace k) (hr : DirReadable sbi dir j) :
    BlockRecorded sbi dir buf j places := by
  rcases Nat.lt_trichotomy j i with hlt | rfl | hgt
  · exact (hbefore j hlt).2
  · exact hat hr
  · exact absurd (hj i hgt) hend

theorem iterate_quiet_rule (hcb : ∀ v st, cb v st = some (0, st)) :
    IterateRule sbi dir false cb buf
      (fun i w => ∀ j < i, BlockPasses sbi dir buf Dirent.InPlace j ∧
        BlockRecorded sbi dir buf j w.inspected)
      (fun _ w => ∀ i, i * sbi.blksz < dir.iSize →
        (∀ j < i, BlockPasses sbi dir buf Dirent.InPlace j) → DirReadable sbi dir i →
          BlockRecorded sbi dir buf i w.inspected) := by
  constructor
  · intro i w hi hI j hj _ _
    have hlt : j < i := Nat.lt_of_mul_lt_mul_right (Nat.lt_of_lt_of_le hj hi)
    exact (hI j hlt).2
  · intro i w e hi hI he j _ hpass hr
    have hnot : ¬ DirReadable sbi dir i := by
      rintro ⟨bytes, hb⟩
      rw [he] at hb
      cases hb
    exact recorded_upTo hI (fun h => absurd h hnot) (fun h => hnot h.1) j hpass hr
  · intro i w hi hI hr hs j _ hpass hrj
    have hsub : w.inspected ⊆ (w.look (dirBlockSize sbi dir i) (List.range' 8 2)).inspected :=
      fun q hq => mem_look_of_mem hq
    apply recorded_upTo (i := i) _ _ (fun h => hs h.2.1) j hpass hrj
    · intro j hj
      exact ⟨(hI j hj).1, (hI j hj).2.mono hsub⟩
    · intro _
      exact ⟨fun p hp => mem_look hp, fun hok => absurd hok hs⟩
  · intro i w e w' hi hI hr hs hw'
    have hrun := traverseDirents_rule
      (traverse_quiet_rule hcb (w.look (dirBlockSize sbi dir i) (List.range' 8 2)))
      ⟨fun _ h => h, fun j hj => absurd hj (Nat.not_lt_zero j)⟩ hw'
    obtain ⟨hsub, hreach, hdone⟩ := hrun
    have hold : ∀ j < i, BlockPasses sbi dir buf Dirent.InPlace j ∧
        BlockRecorded sbi dir buf j w'.inspected := by
      intro j hj
      exact ⟨(hI j hj).1, (hI j hj).2.mono (fun q hq => hsub (mem_look_of_mem hq))⟩
    have hnew : BlockRecorded sbi dir buf i w'.inspected :=
      ⟨fun p hp => hsub (mem_look hp), fun _ => hreach⟩
    constructor
    · intro he
      subst he
      apply forall_lt_succ hold
      refine ⟨⟨hr, hs, ?_⟩, hnew⟩
      exact traverse_done_allPass hw'
    · intro he j _ hpass hrj
      refine recorded_upTo hold (fun _ => hnew) ?_ j hpass hrj
      intro hall
      exact he (hdone hall.2.2)

theorem walkInside_of_iteratesInside (hdir : dir.isDir = true)
    (h : IteratesInside sbi dir buf) :
    WalkInside sbi dir buf Dirent.InPlace Dirent.EntryReadable := by
  let quiet : DirVisit → Unit → Option (ℤ × Unit) := fun _ st => some (0, st)
  let marks : DirMarks := ⟨false, false, false, 0⟩
  have hcb : ∀ v st, quiet v st = some (0, st) := fun _ _ => rfl
  have htotal : ∃ r w, iterateLoop sbi dir false quiet dir.iSize 0 buf (.start marks ()) =
      some (r, w) ∧ True :=
    iterateLoop_total (P := fun _ => True) (fun _ _ _ _ => ⟨0, (), rfl, trivial⟩) trivial
  obtain ⟨r, w, hloop, -⟩ := htotal
  have hrec := iterateLoop_start_rule (iterate_quiet_rule hcb)
    (fun j hj => absurd hj (Nat.not_lt_zero j)) hloop
  have hrun : ∃ ret, erofsIterateDir sbi dir false quiet buf marks () = some (ret, w) := by
    unfold erofsIterateDir
    rw [if_neg (by simp [hdir]), hloop]
    cases r with
    | error e => exact ⟨e, rfl⟩
    | ok err => exact ⟨err, by simp⟩
  obtain ⟨ret, hrun⟩ := hrun
  have hin := (h Unit false quiet marks () ret w hrun).1
  intro i hi hpass hr
  have hblock := hrec i hi hpass hr
  constructor
  · have h9 := hin _ (hblock.1 9 (by rw [List.mem_range'_1]; omega))
    exact h9
  · intro hs k hk hbefore
    exact (hblock.2 hs k hk hbefore).readable hin

end Iterate

end ErofsUtils
