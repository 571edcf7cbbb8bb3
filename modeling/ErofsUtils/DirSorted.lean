import ErofsUtils.DirBounds
import Mathlib.Data.List.Chain

/-!
# What a checked directory looks like

A run of `erofs_iterate_dir` that goes through hands out the entries of all blocks, in their
order. When it checks, `.` and `..` are among them once each, while the order of the names and
the absence of slashes hold within a block and up to the first NUL of a name only.
-/

namespace ErofsUtils
open ByteMemory CString

def blockVisits (mem : Mem) (stop maxsize : ℕ) : List DirVisit :=
  (List.range ((stop + 11) / 12)).map (visitAt mem stop maxsize)

def dirBlockCount (sbi : DirSb) (dir : DirInode) : ℕ :=
  (dir.iSize + (sbi.blksz - 1)) / sbi.blksz

/-- The entries of a directory, block by block. -/
def dirVisits (sbi : DirSb) (dir : DirInode) (buf : Mem) : List (List DirVisit) :=
  (List.range (dirBlockCount sbi dir)).map fun i =>
    blockVisits (dirBlock sbi dir buf i) (dirStop sbi dir buf i) (dirBlockSize sbi dir i)

def dirNames (sbi : DirSb) (dir : DirInode) (buf : Mem) : List (List FileName) :=
  (dirVisits sbi dir buf).map (·.map DirVisit.dname)

def DirWalk.names {σ : Type*} (w : DirWalk σ) : List FileName := w.delivered.map (·.2.dname)

section Strings

variable {mem : Mem} {pos n : ℕ}

theorem isDotDotdotLen_iff : isDotDotdotLen mem pos n = true ↔
    slice mem pos n = [46] ∨ slice mem pos n = [46, 46] := by
  unfold isDotDotdotLen
  match n with
  | 0 => simp [slice]
  | 1 => simp [slice]
  | 2 => simp [slice]
  | n + 3 => simp [slice]

/-- The check of a filename ends at the first NUL. -/
theorem erofsValidateFilename_iff :
    erofsValidateFilename mem pos n = true ↔ 47 ∉ (slice mem pos n).takeWhile (· ≠ 0) := by
  induction n generalizing pos with
  | zero => simp [erofsValidateFilename, slice]
  | succ n ih =>
      rw [erofsValidateFilename, slice]
      by_cases h0 : mem pos = 0
      · simp [h0]
      · rw [if_neg h0, List.takeWhile_cons_of_pos (by simpa using h0), List.mem_cons, not_or]
        by_cases h47 : mem pos = 47
        · simp [h47]
        · rw [if_neg h47, ih]
          simp [Ne.symm h47]

end Strings

section Marks

variable {sbi : DirSb} {dir : DirInode} {mem : Mem} {stop maxsize k : ℕ}

/-- The flags tell whether `.` and `..` are among the names, where neither is more than once. -/
def DotsCounted (names : List FileName) (marks : DirMarks) : Prop :=
  names.count [46] = marks.dotFound.toNat ∧ names.count [46, 46] = marks.dotdotFound.toNat

theorem dotsCounted_snoc_other {names : List FileName} {marks : DirMarks} {name : FileName}
    (h : DotsCounted names marks) (h1 : name ≠ [46]) (h2 : name ≠ [46, 46]) :
    DotsCounted (names ++ [name]) marks := by
  rw [DotsCounted, List.count_append, List.count_append, h.1, h.2]
  rw [List.count_singleton, List.count_singleton]
  simp [h1, h2]

theorem markSpecial_two {deNid : ℕ} {c : DirMarks}
    (h : (markSpecial sbi dir true deNid 2 c).1 = none) :
    c.dotdotFound = false ∧ (markSpecial sbi dir true deNid 2 c).2.dotdotFound = true ∧
      (markSpecial sbi dir true deNid 2 c).2.dotFound = c.dotFound := by
  unfold markSpecial at h ⊢
  rw [if_pos rfl] at h ⊢
  cases hc : c.dotdotFound with
  | true => simp [hc] at h
  | false =>
      simp only [Bool.false_eq_true, and_false, if_false]
      refine ⟨trivial, ?_, ?_⟩
      · split <;> split <;> rfl
      · split <;> split <;> rfl

theorem markSpecial_one {deNid : ℕ} {c : DirMarks}
    (h : (markSpecial sbi dir true deNid 1 c).1 = none) :
    c.dotFound = false ∧ (markSpecial sbi dir true deNid 1 c).2.dotFound = true ∧
      (markSpecial sbi dir true deNid 1 c).2.dotdotFound = c.dotdotFound := by
  unfold markSpecial at h ⊢
  rw [if_neg (by omega), if_pos rfl] at h ⊢
  cases hc : c.dotFound with
  | true => simp [hc] at h
  | false =>
      simp only [Bool.false_eq_true, and_false, if_false]
      refine ⟨trivial, ?_, ?_⟩
      · split <;> rfl
      · split <;> rfl

/-- A checking walk that hands out an entry keeps the count of `.` and `..`. -/
theorem DotsCounted.turn {names : List FileName} {prev : Option (ℕ × ℕ)} {marks : DirMarks}
    (h : DotsCounted names marks) (hok : FsckPassed sbi dir mem stop maxsize k prev marks) :
    DotsCounted (names ++ [Dirent.dname mem stop maxsize k])
      (marksAt sbi dir true mem stop maxsize k marks) := by
  have hlen : (Dirent.dname mem stop maxsize k).length = Dirent.namelen mem stop maxsize k :=
    Dirent.length_dname
  by_cases hdot : (visitAt mem stop maxsize k).dotDotdot = true
  · have hmark := hok.special hdot
    rw [marksAt, if_pos hdot]
    cases isDotDotdotLen_iff.mp hdot with
    | inl hone =>
        change Dirent.dname mem stop maxsize k = [46] at hone
        rw [hone] at hlen ⊢
        rw [← hlen] at hmark ⊢
        obtain ⟨h1, h2, h3⟩ := markSpecial_one hmark
        rw [DotsCounted, List.count_append, List.count_append, h.1, h.2]
        change _ = (markSpecial sbi dir true (Dirent.nid mem k) 1 marks).2.dotFound.toNat ∧
          _ = (markSpecial sbi dir true (Dirent.nid mem k) 1 marks).2.dotdotFound.toNat
        rw [h1, h2, h3]
        exact ⟨rfl, rfl⟩
    | inr htwo =>
        change Dirent.dname mem stop maxsize k = [46, 46] at htwo
        rw [htwo] at hlen ⊢
        rw [← hlen] at hmark ⊢
        obtain ⟨h1, h2, h3⟩ := markSpecial_two hmark
        rw [DotsCounted, List.count_append, List.count_append, h.1, h.2]
        change _ = (markSpecial sbi dir true (Dirent.nid mem k) 2 marks).2.dotFound.toNat ∧
          _ = (markSpecial sbi dir true (Dirent.nid mem k) 2 marks).2.dotdotFound.toNat
        rw [h1, h2, h3]
        exact ⟨rfl, rfl⟩
  · have hno := not_or.mp (fun hs => hdot (isDotDotdotLen_iff.mpr hs))
    rw [marksAt, if_neg hdot]
    exact dotsCounted_snoc_other h hno.1 hno.2

end Marks

section Sweep

variable {σ : Type*} {sbi : DirSb} {dir : DirInode} {fsck : Bool} {mem : Mem} {stop maxsize : ℕ}
variable {cb : DirVisit → σ → Option (ℤ × σ)}

def prevAt (mem : Mem) (stop maxsize : ℕ) : ℕ → Option (ℕ × ℕ)
  | 0 => none
  | k + 1 => some (Dirent.nameoff mem k, Dirent.namelen mem stop maxsize k)

def EntryChecked (mem : Mem) (stop maxsize k : ℕ) : Prop :=
  checkOrder mem (Dirent.nameoff mem k) (Dirent.namelen mem stop maxsize k)
      (prevAt mem stop maxsize k) = true ∧
    47 ∉ (Dirent.dname mem stop maxsize k).takeWhile (· ≠ 0)

structure Swept (fsck : Bool) (mem : Mem) (stop maxsize : ℕ) (before : List DirVisit) (k : ℕ)
    (prev : Option (ℕ × ℕ)) (w : DirWalk σ) : Prop where
  le : k ≤ (stop + 11) / 12
  visits : w.delivered.map Prod.snd = before ++ (List.range k).map (visitAt mem stop maxsize)
  prev_eq : prev = prevAt mem stop maxsize k
  placed : ∀ j < k, Dirent.InPlace mem stop maxsize j
  checked : fsck = true → ∀ j < k, EntryChecked mem stop maxsize j
  dots : fsck = true → DotsCounted w.names w.marks

theorem names_snoc {w w' : DirWalk σ} {v : DirVisit}
    (h : w'.delivered = w.delivered ++ [(maxsize, v)]) : w'.names = w.names ++ [v.dname] := by
  rw [DirWalk.names, h, List.map_append]
  rfl

theorem entryChecked_of_passed {k : ℕ} {prev : Option (ℕ × ℕ)} {marks : DirMarks}
    (hprev : prev = prevAt mem stop maxsize k)
    (h : FsckPassed sbi dir mem stop maxsize k prev marks) :
    EntryChecked mem stop maxsize k := by
  constructor
  · rw [← hprev]
    exact h.order
  · cases hdot : (visitAt mem stop maxsize k).dotDotdot with
    | false => exact erofsValidateFilename_iff.mp (h.filename hdot)
    | true =>
        cases isDotDotdotLen_iff.mp hdot with
        | inl he =>
            change Dirent.dname mem stop maxsize k = [46] at he
            rw [he]
            decide
        | inr he =>
            change Dirent.dname mem stop maxsize k = [46, 46] at he
            rw [he]
            decide

theorem Swept.turn {before : List DirVisit} {k : ℕ} {prev : Option (ℕ × ℕ)} {w w' w'' : DirWalk σ}
    {v : DirVisit} {ret : ℤ} (hk : 12 * k < stop)
    (hI : Swept fsck mem stop maxsize before k prev w)
    (hturn : direntTurn sbi dir fsck mem stop maxsize k (Dirent.next mem stop maxsize k) prev w =
      (.ok v, w')) (hcb : deliver cb maxsize v w' = some (ret, w'')) :
    Swept fsck mem stop maxsize before (k + 1) (some (v.pos, v.dname.length)) w'' := by
  have hok := direntTurn_ok hturn
  obtain ⟨-, hmarks, hdel, -⟩ := deliver_some hcb
  rw [hok.delivered] at hdel
  constructor
  · omega
  · rw [hdel, List.map_append, hI.visits, List.range_succ, List.map_append, List.append_assoc,
      hok.visit]
    rfl
  · rw [hok.next_eq, hok.visit]
    rfl
  · exact forall_lt_succ hI.placed hok.placed
  · intro hf
    exact forall_lt_succ (hI.checked hf) (entryChecked_of_passed hI.prev_eq (hok.fsckPassed hf))
  · intro hf
    have hname := names_snoc hdel
    rw [hname, hmarks, hok.marks, hok.visit]
    subst hf
    exact (hI.dots rfl).turn (hok.fsckPassed rfl)

/-- A traversal that is done has handed out the block; otherwise its result is not zero. -/
theorem swept_rule (before : List DirVisit) :
    TraverseRule sbi dir fsck cb mem stop maxsize (Swept fsck mem stop maxsize before)
      (fun e w => (e = .done → ∃ prev, Swept fsck mem stop maxsize before ((stop + 11) / 12) prev w) ∧
        (e ≠ .done → e.ret ≠ 0)) := by
  constructor
  · intro k prev w hk hI
    have hle := hI.le
    have he : k = (stop + 11) / 12 := by omega
    rw [← he]
    exact ⟨fun _ => ⟨prev, hI⟩, fun hn => absurd rfl hn⟩
  · intro k prev w e w' _ _ _
    refine ⟨fun he => (by cases he), fun _ => ?_⟩
    rw [DirEnd.ret, eFsCorrupted]
    decide
  · intro k prev w v w' ret w'' _ _ _ _ hret
    exact ⟨fun he => (by cases he), fun _ => hret⟩
  · intro k prev w v w' w'' hk hI hturn hcb
    exact hI.turn hk hturn hcb

end Sweep

section Whole

variable {σ : Type*} {sbi : DirSb} {dir : DirInode} {fsck : Bool} {buf : Mem}
variable {cb : DirVisit → σ → Option (ℤ × σ)}

def visitsUpTo (sbi : DirSb) (dir : DirInode) (buf : Mem) (n : ℕ) : List DirVisit :=
  ((List.range n).map fun i =>
    blockVisits (dirBlock sbi dir buf i) (dirStop sbi dir buf i) (dirBlockSize sbi dir i)).flatten

theorem visitsUpTo_succ (n : ℕ) : visitsUpTo sbi dir buf (n + 1) = visitsUpTo sbi dir buf n ++
    blockVisits (dirBlock sbi dir buf n) (dirStop sbi dir buf n) (dirBlockSize sbi dir n) := by
  rw [visitsUpTo, List.range_succ, List.map_append, List.flatten_append]
  simp [visitsUpTo]

theorem dirBlockCount_le {i : ℕ} (h : dir.iSize ≤ i * sbi.blksz) :
    dirBlockCount sbi dir ≤ i := by
  have hpos := sbi.blksz_pos
  rw [dirBlockCount, Nat.div_le_iff_le_mul_add_pred hpos, Nat.mul_comm]
  omega

theorem lt_dirBlockCount {i : ℕ} (h : i * sbi.blksz < dir.iSize) : i < dirBlockCount sbi dir := by
  have hpos := sbi.blksz_pos
  rw [dirBlockCount, Nat.lt_div_iff_mul_lt hpos, Nat.add_sub_cancel]
  exact h

structure BlocksSwept (sbi : DirSb) (dir : DirInode) (fsck : Bool) (buf : Mem) (i : ℕ)
    (w : DirWalk σ) : Prop where
  le : i ≤ dirBlockCount sbi dir
  visits : w.delivered.map Prod.snd = visitsUpTo sbi dir buf i
  passes : ∀ j < i, BlockPasses sbi dir buf Dirent.InPlace j
  checked : fsck = true → ∀ j < i, AllPass (dirStop sbi dir buf j)
    (atBlock sbi dir buf EntryChecked j)
  dots : fsck = true → DotsCounted w.names w.marks

theorem blocksSwept_rule :
    IterateRule sbi dir fsck cb buf (BlocksSwept sbi dir fsck buf)
      (fun r w => (∀ e, r = .error e → e ≠ 0) ∧
        (r = .ok 0 → BlocksSwept sbi dir fsck buf (dirBlockCount sbi dir) w)) := by
  constructor
  · intro i w hi hI
    have hle := dirBlockCount_le hi
    have he : i = dirBlockCount sbi dir := Nat.le_antisymm hI.le hle
    rw [← he]
    exact ⟨fun e h => (by cases h), fun _ => hI⟩
  · intro i w e _ _ hread
    have hneg := dir.pread_neg hread
    refine ⟨fun e' h => ?_, fun h => by cases h⟩
    cases h
    omega
  · intro i w _ _ _ _
    refine ⟨fun e' h => ?_, fun h => by cases h⟩
    cases h
    decide
  · intro i w e w' hi hI hr hs hw'
    have hstart : Swept fsck (dirBlock sbi dir buf i) (dirStop sbi dir buf i)
        (dirBlockSize sbi dir i) (visitsUpTo sbi dir buf i) 0 none
        (w.look (dirBlockSize sbi dir i) (List.range' 8 2)) := by
      constructor
      · exact Nat.zero_le _
      · rw [look_delivered, hI.visits]
        simp
      · rfl
      · intro j hj
        omega
      · intro _ j hj
        omega
      · exact hI.dots
    obtain ⟨hdone, hbreak⟩ := traverseDirents_rule (swept_rule _) hstart hw'
    constructor
    · intro he
      obtain ⟨prev, hsw⟩ := hdone he
      have hlt : ∀ {k}, 12 * k < dirStop sbi dir buf i → k < (dirStop sbi dir buf i + 11) / 12 := by
        intro k hk
        omega
      constructor
      · exact lt_dirBlockCount hi
      · rw [hsw.visits, visitsUpTo_succ]
        rfl
      · exact forall_lt_succ hI.passes ⟨hr, hs, fun k hk => hsw.placed k (hlt hk)⟩
      · intro hf
        exact forall_lt_succ (hI.checked hf) (fun k hk => hsw.checked hf k (hlt hk))
      · exact hsw.dots
    · intro he
      refine ⟨fun e' h => (by cases h), fun h => ?_⟩
      rw [Except.ok.injEq] at h
      exact absurd h (hbreak he)

/-- A run of `erofs_iterate_dir` that ends without an error has handed out the directory. -/
theorem erofsIterateDir_swept {marks : DirMarks} {st : σ} {w : DirWalk σ}
    (h : erofsIterateDir sbi dir fsck cb buf marks st = some (0, w)) :
    BlocksSwept sbi dir fsck buf (dirBlockCount sbi dir) w ∧
      (fsck = true → w.marks.dotdotFound = true ∧ w.marks.dotFound = true) := by
  have hstart : BlocksSwept sbi dir fsck buf 0 (DirWalk.start marks st) := by
    constructor
    · exact Nat.zero_le _
    · rfl
    · intro j hj
      omega
    · intro _ j hj
      omega
    · intro _
      exact ⟨rfl, rfl⟩
  unfold erofsIterateDir at h
  split at h
  · rw [Option.some.injEq, Prod.mk.injEq, eNotDir] at h
    exact absurd h.1 (by decide)
  · split at h
    · cases h
    · next e w1 hl =>
        rw [Option.some.injEq, Prod.mk.injEq] at h
        have hrun := iterateLoop_start_rule blocksSwept_rule hstart hl
        exact absurd h.1 (hrun.1 e rfl)
    · next err w1 hl =>
        have hrun := iterateLoop_start_rule blocksSwept_rule hstart hl
        split at h
        · rw [Option.some.injEq, Prod.mk.injEq, eFsCorrupted] at h
          exact absurd h.1 (by decide)
        · next hflags =>
            rw [Option.some.injEq, Prod.mk.injEq] at h
            obtain ⟨rfl, rfl⟩ := h
            refine ⟨hrun.2 rfl, ?_⟩
            intro hf
            simpa [hf] using hflags

end Whole

structure SortedDirectory (names : List FileName) : Prop where
  increasing : names.Pairwise (· < ·)
  dot : names.count [46] = 1
  dotdot : names.count [46, 46] = 1
  noSlash : ∀ name ∈ names, 47 ∉ name

/-- What the checks leave open about the names of a directory's blocks: the order from one block
to the next, that of names which agree up to a NUL, and what comes behind a NUL. -/
structure OrderedBeyond (blocks : List (List FileName)) : Prop where
  boundaries : blocks.IsChain (fun a b => ∀ x ∈ a.getLast?, ∀ y ∈ b.head?, x < y)
  agreeing : ∀ block ∈ blocks, block.IsChain (fun x y => agreeToNul x y = true → x < y)
  slashes : ∀ block ∈ blocks, ∀ name ∈ block, 47 ∉ name.dropWhile (· ≠ 0)

section Sorted

variable {mem : Mem} {stop maxsize : ℕ}

theorem isChain_map_range {α : Type*} {R : α → α → Prop} (f : ℕ → α) (n : ℕ) :
    ((List.range n).map f).IsChain R ↔ ∀ i, i + 1 < n → R (f i) (f (i + 1)) := by
  rw [List.isChain_iff_getElem]
  simp

/-- The order check of neighbours in a block decides their order unless they agree up to a NUL. -/
theorem lt_of_checked {k : ℕ} (h : EntryChecked mem stop maxsize (k + 1))
    (hn : agreeToNul (Dirent.dname mem stop maxsize k) (Dirent.dname mem stop maxsize (k + 1)) =
      false) :
    Dirent.dname mem stop maxsize k < Dirent.dname mem stop maxsize (k + 1) := by
  have horder := h.1
  rw [prevAt, checkOrder, Bool.not_eq_true', Bool.or_eq_false_iff, Bool.and_eq_false_iff] at horder
  simp only [decide_eq_false_iff_not] at horder
  obtain ⟨hle, hor⟩ := horder
  by_cases hz : strncmp mem (Dirent.nameoff mem k) (Dirent.nameoff mem (k + 1))
      (min (Dirent.namelen mem stop maxsize k) (Dirent.namelen mem stop maxsize (k + 1))) = 0
  · cases hor with
    | inl hne => exact absurd hz hne
    | inr hlen => exact lt_of_strncmp_zero hz (Nat.not_le.mp hlen) hn
  · apply lt_of_strncmp_neg
    omega

theorem block_chain_iff
    (h : ∀ k, 12 * k < stop → EntryChecked mem stop maxsize k) :
    ((blockVisits mem stop maxsize).map DirVisit.dname).IsChain (· < ·) ↔
      ((blockVisits mem stop maxsize).map DirVisit.dname).IsChain
        (fun x y => agreeToNul x y = true → x < y) := by
  rw [blockVisits, List.map_map, isChain_map_range, isChain_map_range]
  constructor
  · intro hlt i hi _
    exact hlt i hi
  · intro hagree i hi
    cases hn : agreeToNul (Dirent.dname mem stop maxsize i)
        (Dirent.dname mem stop maxsize (i + 1)) with
    | true => exact hagree i hi hn
    | false => exact lt_of_checked (h (i + 1) (by omega)) hn

theorem notMem_iff_dropWhile {name : FileName} (h : 47 ∉ name.takeWhile (· ≠ 0)) :
    47 ∉ name ↔ 47 ∉ name.dropWhile (· ≠ 0) := by
  have hsplit := List.takeWhile_append_dropWhile (p := (· ≠ (0 : UInt8))) (l := name)
  constructor
  · intro hn hd
    apply hn
    rw [← hsplit]
    exact List.mem_append_right _ hd
  · intro hn hm
    rw [← hsplit, List.mem_append] at hm
    exact hm.elim h hn

end Sorted

section Sorted

variable {σ : Type*} {sbi : DirSb} {dir : DirInode} {fsck : Bool} {buf : Mem}
variable {cb : DirVisit → σ → Option (ℤ × σ)} {marks : DirMarks} {st : σ} {w : DirWalk σ}

theorem BlocksSwept.names_eq
    (h : BlocksSwept sbi dir fsck buf (dirBlockCount sbi dir) w) :
    w.names = (dirNames sbi dir buf).flatten := by
  have hv := congrArg (List.map DirVisit.dname) h.visits
  rw [List.map_map, visitsUpTo, List.map_flatten] at hv
  exact hv

theorem BlocksSwept.block (h : BlocksSwept sbi dir true buf (dirBlockCount sbi dir) w)
    {block : List FileName} (hb : block ∈ dirNames sbi dir buf) :
    block ≠ [] ∧
      (block.IsChain (· < ·) ↔ block.IsChain (fun x y => agreeToNul x y = true → x < y)) ∧
      ∀ name ∈ block, 47 ∉ name.takeWhile (· ≠ 0) := by
  rw [dirNames, dirVisits, List.map_map, List.mem_map] at hb
  obtain ⟨i, hi, rfl⟩ := hb
  rw [List.mem_range] at hi
  have hchecked : ∀ k, 12 * k < dirStop sbi dir buf i → EntryChecked (dirBlock sbi dir buf i)
      (dirStop sbi dir buf i) (dirBlockSize sbi dir i) k := h.checked rfl i hi
  have hstop := (h.passes i hi).2.1.1
  refine ⟨?_, block_chain_iff hchecked, ?_⟩
  · intro he
    have hlen := congrArg List.length he
    rw [Function.comp_apply, List.length_map, blockVisits, List.length_map, List.length_range,
      List.length_nil] at hlen
    omega
  · intro name hname
    rw [Function.comp_apply, blockVisits, List.map_map, List.mem_map] at hname
    obtain ⟨k, hk, rfl⟩ := hname
    rw [List.mem_range] at hk
    exact (hchecked k (by omega)).2

/-- After a checking run that ends without an error the names are sorted, without a slash, and
with `.` and `..` once each exactly when the order goes on from block to block and what lies
behind a NUL in a name is in order too; of these the checks see nothing. -/
theorem checkedDirectory_sorted_iff
    (h : erofsIterateDir sbi dir true cb buf marks st = some (0, w)) :
    SortedDirectory w.names ↔ OrderedBeyond (dirNames sbi dir buf) := by
  obtain ⟨hswept, hflags⟩ := erofsIterateDir_swept h
  obtain ⟨hdotdot, hdot⟩ := hflags rfl
  have hnames := hswept.names_eq
  have hdots := hswept.dots rfl
  have hnil : [] ∉ dirNames sbi dir buf := fun hm => (hswept.block hm).1 rfl
  have hchain : w.names.Pairwise (· < ·) ↔
      (∀ block ∈ dirNames sbi dir buf, block.IsChain (· < ·)) ∧
        (dirNames sbi dir buf).IsChain (fun a b => ∀ x ∈ a.getLast?, ∀ y ∈ b.head?, x < y) := by
    rw [hnames, ← List.isChain_iff_pairwise, List.isChain_flatten hnil]
  constructor
  · intro hs
    obtain ⟨hblocks, hbounds⟩ := hchain.mp hs.increasing
    constructor
    · exact hbounds
    · intro block hb
      exact (hswept.block hb).2.1.mp (hblocks block hb)
    · intro block hb name hname
      apply (notMem_iff_dropWhile ((hswept.block hb).2.2 name hname)).mp
      apply hs.noSlash
      rw [hnames, List.mem_flatten]
      exact ⟨block, hb, hname⟩
  · intro ho
    constructor
    · apply hchain.mpr
      exact ⟨fun block hb => (hswept.block hb).2.1.mpr (ho.agreeing block hb), ho.boundaries⟩
    · rw [hdots.1, hdot]
      rfl
    · rw [hdots.2, hdotdot]
      rfl
    · intro name hname
      rw [hnames, List.mem_flatten] at hname
      obtain ⟨block, hb, hm⟩ := hname
      exact (notMem_iff_dropWhile ((hswept.block hb).2.2 name hm)).mpr (ho.slashes block hb name hm)

end Sorted

section Images

/-- A block with the given entries (nid, file type and name) and no padding. -/
def direntBytes (off : ℕ) : List (ℕ × ℕ × FileName) → List UInt8
  | [] => []
  | (nid, ftype, name) :: es =>
    leBytes 8 nid ++ leBytes 2 off ++ leBytes 2 ftype ++ direntBytes (off + name.length) es

def dirBlockBytes (es : List (ℕ × ℕ × FileName)) : List UInt8 :=
  direntBytes (12 * es.length) es ++ es.flatMap (·.2.2)

def imageDir (nid : ℕ) (first second : List (ℕ × ℕ × FileName)) : DirInode where
  nid := nid
  isDir := true
  iSize := if second = [] then (dirBlockBytes first).length
    else 512 + (dirBlockBytes second).length
  pread := fun _ pos => .ok fun i =>
    if pos + i < 512 then (dirBlockBytes first).getD (pos + i) 0
    else (dirBlockBytes second).getD (pos + i - 512) 0
  pread_neg := fun h => by cases h

def rootSb : DirSb := ⟨9, 36, by decide⟩

def goOn : DirVisit → Unit → Option (ℤ × Unit) := fun _ st => some (0, st)

def noMarks : DirMarks := ⟨false, false, false, 0⟩

def dotEntries : List (ℕ × ℕ × FileName) := [(36, 2, [46]), (36, 2, [46, 46])]

def oneBlockDir : DirInode := imageDir 36 (dotEntries ++ [(40, 1, [97])]) []

/-- `.`, `..`, `b` in the first block and `a` in the second. -/
def twoBlockDir : DirInode := imageDir 36 (dotEntries ++ [(40, 1, [98])]) [(41, 1, [97])]

theorem checkedDirectory_sorted_oneBlock : ∃ w,
    erofsIterateDir rootSb oneBlockDir true goOn (fun _ => 0) noMarks () = some (0, w) ∧
      (SortedDirectory w.names ↔ OrderedBeyond (dirNames rootSb oneBlockDir (fun _ => 0))) := by
  have hrun : ((erofsIterateDir rootSb oneBlockDir true goOn (fun _ => 0) noMarks ()).map
      Prod.fst) = some 0 := by decide +kernel
  obtain ⟨⟨ret, w⟩, h, rfl⟩ := Option.map_eq_some_iff.mp hrun
  exact ⟨w, h, checkedDirectory_sorted_iff h⟩

theorem twoBlockDir_unsorted :
    ¬ ∀ (σ : Type) (sbi : DirSb) (dir : DirInode) (buf : Mem)
      (cb : DirVisit → σ → Option (ℤ × σ)) (marks : DirMarks) (st : σ) (w : DirWalk σ),
      (∀ v st, ∃ st', cb v st = some (0, st')) →
        erofsIterateDir sbi dir true cb buf marks st = some (0, w) → SortedDirectory w.names := by
  intro h
  have hrun : ((erofsIterateDir rootSb twoBlockDir true goOn (fun _ => 0) noMarks ()).map
      fun r => (r.1, r.2.names)) = some (0, [[46], [46, 46], [98], [97]]) := by decide +kernel
  obtain ⟨⟨ret, w⟩, hw, he⟩ := Option.map_eq_some_iff.mp hrun
  rw [Prod.mk.injEq] at he
  obtain ⟨rfl, hnames⟩ := he
  have hs := (h Unit rootSb twoBlockDir (fun _ => 0) goOn noMarks () w
    (fun _ _ => ⟨_, rfl⟩) hw).increasing
  rw [hnames] at hs
  revert hs
  decide

end Images

end ErofsUtils
