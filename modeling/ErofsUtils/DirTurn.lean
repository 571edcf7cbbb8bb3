import ErofsUtils.Dirents

/-!
# One entry of a directory

What one turn of `traverse_dirents` does with the entry it is at: when the entry passes the checks
on its place, what is then known about it, and which places of the buffer the turn looks at.
-/

namespace ErofsUtils
open ByteMemory CString

theorem subU32_of_le {a b : ℕ} (h : b ≤ a) (ha : a < 2 ^ 32) : subU32 a b = a - b := by
  unfold subU32
  have he : a + 2 ^ 32 - b = a - b + 2 ^ 32 := by omega
  rw [he, Nat.add_mod_right, Nat.mod_eq_of_lt (by omega)]

theorem subU32_of_gt {a b : ℕ} (h : a < b) : subU32 a b = a + 2 ^ 32 - b := by
  unfold subU32
  exact Nat.mod_eq_of_lt (by omega)

theorem DirSb.blksz_pos (sbi : DirSb) : 0 < sbi.blksz := Nat.two_pow_pos _

theorem DirSb.blksz_le (sbi : DirSb) : sbi.blksz ≤ 2 ^ 16 :=
  Nat.pow_le_pow_right (by omega) sbi.blkszbits_le

namespace Dirent

variable {mem : Mem} {stop maxsize k : ℕ}

theorem nameoff_lt (mem : Mem) (k : ℕ) : nameoff mem k < 2 ^ 16 := leNat_lt mem (12 * k + 8) 2

/-- The `next_nameoff` that a walk over accepted entries has at `k`. -/
def next (mem : Mem) (stop maxsize : ℕ) : ℕ → ℕ
  | 0 => stop
  | k + 1 => next mem stop maxsize k + namelen mem stop maxsize k

/-- The check of `traverse_dirents` and `find_target_dirent` on the end of a name. -/
def NameFits (mem : Mem) (stop maxsize k : ℕ) : Prop :=
  (nameoff mem k + namelen mem stop maxsize k) % 2 ^ 32 ≤ maxsize ∧
    namelen mem stop maxsize k ≤ erofsNameLen

/-- The checks of `traverse_dirents` on the place of a name, where it should be at `next`. -/
def Placed (mem : Mem) (stop maxsize next k : ℕ) : Prop :=
  nameoff mem k = next ∧ NameFits mem stop maxsize k ∧ namelen mem stop maxsize k ≠ 0

instance : Decidable (NameFits mem stop maxsize k) := inferInstanceAs (Decidable (_ ∧ _))

instance (next : ℕ) : Decidable (Placed mem stop maxsize next k) :=
  inferInstanceAs (Decidable (_ ∧ _ ∧ _))

theorem NameFits.inside (h : NameFits mem stop maxsize k) :
    nameoff mem k + namelen mem stop maxsize k ≤ maxsize := by
  have hoff := nameoff_lt mem k
  have hlen := h.2
  rw [erofsNameLen] at hlen
  have hm := h.1
  rwa [Nat.mod_eq_of_lt (by omega)] at hm

theorem length_dname : (dname mem stop maxsize k).length = namelen mem stop maxsize k :=
  length_slice _ _

theorem Placed.not_fault {next : ℕ} (h : Placed mem stop maxsize next k) :
    ¬ (maxsize < (nameoff mem k + namelen mem stop maxsize k) % 2 ^ 32 ∨
      namelen mem stop maxsize k = 0 ∨ erofsNameLen < namelen mem stop maxsize k) := by
  have h1 := h.2.1.1
  have h2 := h.2.1.2
  have h3 := h.2.2
  omega

end Dirent

section Look

variable {σ : Type*}

/-- All places looked at lie within the bytes read for their block. -/
def InBlock (places : List (ℕ × ℕ)) : Prop := ∀ p ∈ places, p.1 < p.2

theorem inBlock_append {as bs : List (ℕ × ℕ)} : InBlock (as ++ bs) ↔ InBlock as ∧ InBlock bs :=
  List.forall_mem_append

theorem inBlock_map {maxsize : ℕ} {places : List ℕ} :
    InBlock (places.map (·, maxsize)) ↔ ∀ p ∈ places, p < maxsize := by
  simp [InBlock]

@[simp] theorem look_st (w : DirWalk σ) (m : ℕ) (ps : List ℕ) : (w.look m ps).st = w.st := rfl

@[simp] theorem look_marks (w : DirWalk σ) (m : ℕ) (ps : List ℕ) :
    (w.look m ps).marks = w.marks := rfl

@[simp] theorem look_delivered (w : DirWalk σ) (m : ℕ) (ps : List ℕ) :
    (w.look m ps).delivered = w.delivered := rfl

theorem look_inspected (w : DirWalk σ) (m : ℕ) (ps : List ℕ) :
    (w.look m ps).inspected = w.inspected ++ ps.map (·, m) := rfl

theorem look_inBlock {w : DirWalk σ} (m : ℕ) (ps : List ℕ) (hw : InBlock w.inspected)
    (hp : ∀ p ∈ ps, p < m) : InBlock (w.look m ps).inspected := by
  rw [look_inspected, inBlock_append, inBlock_map]
  exact ⟨hw, hp⟩

theorem mem_look {w : DirWalk σ} {m p : ℕ} {ps : List ℕ} (h : p ∈ ps) :
    (p, m) ∈ (w.look m ps).inspected := by
  rw [look_inspected]
  exact List.mem_append_right _ (List.mem_map_of_mem h)

theorem mem_look_of_mem {w : DirWalk σ} {m : ℕ} {ps : List ℕ} {q : ℕ × ℕ}
    (h : q ∈ w.inspected) : q ∈ (w.look m ps).inspected := by
  rw [look_inspected]
  exact List.mem_append_left _ h

end Look

theorem dotReads_inside {mem : Mem} {pos len p : ℕ} (h : p ∈ dotReads mem pos len) :
    pos ≤ p ∧ p < pos + len := by
  unfold dotReads at h
  rw [List.mem_append] at h
  cases h with
  | inl h => split at h <;> simp at h; omega
  | inr h =>
      split at h
      · next hc => simp at h; omega
      · simp at h

theorem validateReads_inside {mem : Mem} {pos n p : ℕ} (h : p ∈ validateReads mem pos n) :
    pos ≤ p ∧ p < pos + n := by
  induction n generalizing pos with
  | zero => simp [validateReads] at h
  | succ n ih =>
      rw [validateReads, List.mem_cons] at h
      cases h with
      | inl h => omega
      | inr h =>
          by_cases hc : mem pos = 0 ∨ mem pos = 47
          · simp [hc] at h
          · rw [if_neg hc] at h
            have hp := ih h
            omega

section Turn

variable {σ : Type*} {sbi : DirSb} {dir : DirInode} {fsck : Bool} {mem : Mem}
variable {stop maxsize k next : ℕ} {prev : Option (ℕ × ℕ)} {w w' : DirWalk σ} {v : DirVisit}

def visitAt (mem : Mem) (stop maxsize k : ℕ) : DirVisit :=
  { nid := Dirent.nid mem k, ftype := Dirent.fileType mem k, pos := Dirent.nameoff mem k
    dname := Dirent.dname mem stop maxsize k
    dotDotdot := isDotDotdotLen mem (Dirent.nameoff mem k) (Dirent.namelen mem stop maxsize k) }

structure FsckPassed (sbi : DirSb) (dir : DirInode) (mem : Mem) (stop maxsize k : ℕ)
    (prev : Option (ℕ × ℕ)) (marks : DirMarks) : Prop where
  order : checkOrder mem (Dirent.nameoff mem k) (Dirent.namelen mem stop maxsize k) prev = true
  special : (visitAt mem stop maxsize k).dotDotdot = true →
    (markSpecial sbi dir true (Dirent.nid mem k) (Dirent.namelen mem stop maxsize k) marks).1 = none
  filename : (visitAt mem stop maxsize k).dotDotdot = false →
    erofsValidateFilename mem (Dirent.nameoff mem k) (Dirent.namelen mem stop maxsize k) = true

/-- The marks of the context when the entry at `k` goes to the callback. -/
def marksAt (sbi : DirSb) (dir : DirInode) (fsck : Bool) (mem : Mem) (stop maxsize k : ℕ)
    (marks : DirMarks) : DirMarks :=
  if (visitAt mem stop maxsize k).dotDotdot then
    (markSpecial sbi dir fsck (Dirent.nid mem k) (Dirent.namelen mem stop maxsize k) marks).2
  else marks

/-- An entry that reaches the callback has passed the checks, and nothing else has changed. -/
structure TurnOk (sbi : DirSb) (dir : DirInode) (fsck : Bool) (mem : Mem)
    (stop maxsize k next : ℕ) (prev : Option (ℕ × ℕ)) (w : DirWalk σ) (v : DirVisit)
    (w' : DirWalk σ) : Prop where
  visit : v = visitAt mem stop maxsize k
  placed : Dirent.Placed mem stop maxsize next k
  fsckPassed : fsck = true → FsckPassed sbi dir mem stop maxsize k prev w.marks
  marks : w'.marks = marksAt sbi dir fsck mem stop maxsize k w.marks
  st : w'.st = w.st
  delivered : w'.delivered = w.delivered

theorem placed_of_not_fault (hoff : ¬ Dirent.nameoff mem k ≠ next)
    (hlen : ¬ (maxsize < (Dirent.nameoff mem k + Dirent.namelen mem stop maxsize k) % 2 ^ 32 ∨
      Dirent.namelen mem stop maxsize k = 0 ∨
      erofsNameLen < Dirent.namelen mem stop maxsize k)) :
    Dirent.Placed mem stop maxsize next k := by
  rw [not_or, not_or, Nat.not_lt, Nat.not_lt] at hlen
  exact ⟨not_not.mp hoff, ⟨hlen.1, hlen.2.2⟩, hlen.2.1⟩

theorem direntTurn_ok
    (h : direntTurn sbi dir fsck mem stop maxsize k next prev w = (.ok v, w')) :
    TurnOk sbi dir fsck mem stop maxsize k next prev w v w' := by
  unfold direntTurn at h
  dsimp only at h
  split at h
  · cases h
  next hoff =>
  split at h
  · cases h
  next hlen =>
  have hplaced := placed_of_not_fault hoff hlen
  split at h
  · cases h
  next horder =>
  split at h
  · cases h
  next htype =>
  split at h
  · next hdot =>
      split at h
      · cases h
      · next hmark =>
          rw [Prod.mk.injEq, Except.ok.injEq] at h
          obtain ⟨rfl, rfl⟩ := h
          have hdot' : (visitAt mem stop maxsize k).dotDotdot = true := hdot
          constructor
          · rfl
          · exact hplaced
          · intro hf
            constructor
            · simpa [hf] using horder
            · intro _
              have hm := congrArg Prod.fst hmark
              subst hf
              exact hm
            · intro hn
              rw [hdot'] at hn
              cases hn
          · rw [marksAt, if_pos hdot']
            have hm := congrArg Prod.snd hmark
            cases fsck <;> exact hm.symm
          · cases fsck <;> rfl
          · cases fsck <;> rfl
  · next hdot =>
      split at h
      · cases h
      next hname =>
      rw [Prod.mk.injEq, Except.ok.injEq] at h
      obtain ⟨rfl, rfl⟩ := h
      have hdot' : ¬ (visitAt mem stop maxsize k).dotDotdot = true := hdot
      constructor
      · rfl
      · exact hplaced
      · intro hf
        constructor
        · simpa [hf] using horder
        · intro hd
          exact absurd hd hdot'
        · intro _
          simpa [hf] using hname
      · rw [marksAt, if_neg hdot']
        cases fsck <;> rfl
      · cases fsck <;> rfl
      · cases fsck <;> rfl

theorem direntTurn_delivered {r : Except DirentFault DirVisit}
    (h : direntTurn sbi dir fsck mem stop maxsize k next prev w = (r, w')) :
    w'.delivered = w.delivered ∧ w'.st = w.st := by
  have he : w' = (direntTurn sbi dir fsck mem stop maxsize k next prev w).2 := by rw [h]
  rw [he]
  unfold direntTurn
  dsimp only
  cases fsck <;> (repeat' split) <;> exact ⟨rfl, rfl⟩

theorem markSpecial_unchecked (deNid namelen : ℕ) (c : DirMarks) :
    (markSpecial sbi dir false deNid namelen c).1 = none := by
  unfold markSpecial
  simp only [Bool.false_eq_true, false_and, if_false]
  split
  · rfl
  · split <;> rfl

theorem direntTurn_misplaced (h : ¬ Dirent.Placed mem stop maxsize next k) :
    ∃ e, direntTurn sbi dir fsck mem stop maxsize k next prev w =
      (.error e, w.look maxsize (Dirent.nameReads mem stop maxsize k ++
        List.range' (12 * k) 8)) := by
  unfold direntTurn
  dsimp only
  by_cases hoff : Dirent.nameoff mem k ≠ next
  · rw [if_pos hoff]
    exact ⟨_, rfl⟩
  · rw [if_neg hoff]
    by_cases hlen : maxsize < (Dirent.nameoff mem k + Dirent.namelen mem stop maxsize k) % 2 ^ 32 ∨
        Dirent.namelen mem stop maxsize k = 0 ∨ erofsNameLen < Dirent.namelen mem stop maxsize k
    · rw [if_pos hlen]
      exact ⟨_, rfl⟩
    · exact absurd (placed_of_not_fault hoff hlen) h

/-- A walk that does not check hands out every entry whose name is in place. -/
theorem direntTurn_unchecked (h : Dirent.Placed mem stop maxsize next k) :
    direntTurn sbi dir false mem stop maxsize k next prev w =
      (.ok (visitAt mem stop maxsize k),
        { ((w.look maxsize (Dirent.nameReads mem stop maxsize k ++ List.range' (12 * k) 8)).look
          maxsize [12 * k + 10]).look maxsize
            (dotReads mem (Dirent.nameoff mem k) (Dirent.namelen mem stop maxsize k)) with
          marks := marksAt sbi dir false mem stop maxsize k w.marks }) := by
  have hoff : ¬ Dirent.nameoff mem k ≠ next := not_not.mpr h.1
  unfold direntTurn
  dsimp only
  rw [if_neg hoff, if_neg h.not_fault]
  simp only [Bool.false_eq_true, false_and, if_false]
  by_cases hdot : isDotDotdotLen mem (Dirent.nameoff mem k) (Dirent.namelen mem stop maxsize k) =
      true
  · rw [if_pos hdot]
    split
    · next e marks hm =>
        have hn : (markSpecial sbi dir false (Dirent.nid mem k)
            (Dirent.namelen mem stop maxsize k) w.marks).1 = none := markSpecial_unchecked _ _ _
        have hm' := congrArg Prod.fst hm
        simp only [look_marks] at hm'
        rw [hn] at hm'
        cases hm'
    · next marks hm =>
        have hm' := congrArg Prod.snd hm
        have hdot' : (visitAt mem stop maxsize k).dotDotdot = true := hdot
        rw [marksAt, if_pos hdot']
        simp only [look_marks] at hm'
        rw [hm']
        rfl
  · have hdot' : ¬ (visitAt mem stop maxsize k).dotDotdot = true := hdot
    rw [if_neg hdot, marksAt, if_neg hdot']
    rfl

end Turn

section Run

variable {σ : Type*} {sbi : DirSb} {dir : DirInode} {fsck : Bool} {mem : Mem} {stop maxsize : ℕ}
variable {cb : DirVisit → σ → Option (ℤ × σ)}

/-- What a traversal needs to keep `I` from entry to entry and to end in `Q`. -/
structure TraverseRule (sbi : DirSb) (dir : DirInode) (fsck : Bool)
    (cb : DirVisit → σ → Option (ℤ × σ)) (mem : Mem) (stop maxsize : ℕ)
    (I : ℕ → Option (ℕ × ℕ) → DirWalk σ → Prop) (Q : DirEnd → DirWalk σ → Prop) : Prop where
  done : ∀ k prev w, stop ≤ 12 * k → I k prev w → Q .done w
  fault : ∀ k prev w e w', 12 * k < stop → I k prev w →
    direntTurn sbi dir fsck mem stop maxsize k (Dirent.next mem stop maxsize k) prev w =
      (.error e, w') → Q (.fault e) w'
  callback : ∀ k prev w v w' ret w'', 12 * k < stop → I k prev w →
    direntTurn sbi dir fsck mem stop maxsize k (Dirent.next mem stop maxsize k) prev w =
      (.ok v, w') → deliver cb maxsize v w' = some (ret, w'') → ret ≠ 0 → Q (.callback ret) w''
  next : ∀ k prev w v w' w'', 12 * k < stop → I k prev w →
    direntTurn sbi dir fsck mem stop maxsize k (Dirent.next mem stop maxsize k) prev w =
      (.ok v, w') → deliver cb maxsize v w' = some (0, w'') →
    I (k + 1) (some (v.pos, v.dname.length)) w''

/-- After a turn that was fine `next_nameoff` is where the following name should be. -/
theorem TurnOk.next_eq {k : ℕ} {prev : Option (ℕ × ℕ)} {w w' : DirWalk σ} {v : DirVisit}
    {next : ℕ} (h : TurnOk sbi dir fsck mem stop maxsize k next prev w v w') :
    v.dname.length = Dirent.namelen mem stop maxsize k := by
  rw [h.visit]
  exact Dirent.length_dname

theorem traverseLoop_rule {I : ℕ → Option (ℕ × ℕ) → DirWalk σ → Prop}
    {Q : DirEnd → DirWalk σ → Prop} (hrule : TraverseRule sbi dir fsck cb mem stop maxsize I Q)
    {fuel k : ℕ} {prev : Option (ℕ × ℕ)} {w w' : DirWalk σ} {e : DirEnd}
    (hfuel : stop ≤ 12 * (k + fuel)) (hI : I k prev w)
    (h : traverseLoop sbi dir fsck cb mem stop maxsize fuel k (Dirent.next mem stop maxsize k) prev
      w = some (e, w')) : Q e w' := by
  induction fuel generalizing k prev w with
  | zero =>
      rw [traverseLoop, Option.some.injEq, Prod.mk.injEq] at h
      rw [← h.1, ← h.2]
      exact hrule.done k prev w (by omega) hI
  | succ fuel ih =>
      rw [traverseLoop] at h
      by_cases hk : stop ≤ 12 * k
      · rw [if_pos hk, Option.some.injEq, Prod.mk.injEq] at h
        rw [← h.1, ← h.2]
        exact hrule.done k prev w hk hI
      · rw [if_neg hk] at h
        rw [Nat.not_le] at hk
        split at h
        · next e' w1 hturn =>
            rw [Option.some.injEq, Prod.mk.injEq] at h
            rw [← h.1, ← h.2]
            exact hrule.fault k prev w e' w1 hk hI hturn
        · next v w1 hturn =>
            split at h
            · cases h
            · next ret w2 hcb =>
                by_cases hret : ret ≠ 0
                · rw [if_pos hret, Option.some.injEq, Prod.mk.injEq] at h
                  rw [← h.1, ← h.2]
                  exact hrule.callback k prev w v w1 ret w2 hk hI hturn hcb hret
                · rw [if_neg hret] at h
                  have hret0 : ret = 0 := not_not.mp hret
                  subst hret0
                  have hnext := hrule.next k prev w v w1 w2 hk hI hturn hcb
                  have hlen := (direntTurn_ok hturn).next_eq
                  apply ih (by omega) hnext
                  rw [Dirent.next, ← hlen]
                  exact h

theorem TurnOk.dname_ne_nil {k next : ℕ} {prev : Option (ℕ × ℕ)} {w w' : DirWalk σ}
    {v : DirVisit} (h : TurnOk sbi dir fsck mem stop maxsize k next prev w v w') :
    v.dname ≠ [] := by
  intro he
  have hlen := h.next_eq
  rw [he, List.length_nil] at hlen
  exact h.placed.2.2 hlen.symm

/-- A traversal returns when the callback does so on every name that is not empty, as long as
what it keeps satisfies `P`. -/
theorem traverseLoop_total {P : σ → Prop}
    (hcb : ∀ v st, v.dname ≠ [] → P st → ∃ ret st', cb v st = some (ret, st') ∧ P st')
    {fuel k next : ℕ} {prev : Option (ℕ × ℕ)} {w : DirWalk σ} (hw : P w.st) :
    ∃ e w', traverseLoop sbi dir fsck cb mem stop maxsize fuel k next prev w = some (e, w') ∧
      P w'.st := by
  induction fuel generalizing k next prev w with
  | zero => exact ⟨.done, w, rfl, hw⟩
  | succ fuel ih =>
      rw [traverseLoop]
      by_cases hk : stop ≤ 12 * k
      · rw [if_pos hk]
        exact ⟨.done, w, rfl, hw⟩
      rw [if_neg hk]
      cases hturn : direntTurn sbi dir fsck mem stop maxsize k next prev w with
      | mk r w1 =>
          have hst := (direntTurn_delivered hturn).2
          cases r with
          | error e => exact ⟨.fault e, w1, rfl, by rwa [hst]⟩
          | ok v =>
              have hP : P w1.st := by rwa [hst]
              obtain ⟨ret, st', hret, hP'⟩ := hcb v w1.st (direntTurn_ok hturn).dname_ne_nil hP
              have hd : deliver cb maxsize v w1 = some (ret,
                  { w1 with st := st', delivered := w1.delivered ++ [(maxsize, v)] }) := by
                rw [deliver, hret]
              simp only [hd]
              by_cases h0 : ret ≠ 0
              · rw [if_pos h0]
                exact ⟨_, _, rfl, hP'⟩
              · rw [if_neg h0]
                exact ih hP'

theorem traverseDirents_total (sbi : DirSb) (dir : DirInode) (fsck : Bool) {P : σ → Prop}
    (hcb : ∀ v st, v.dname ≠ [] → P st → ∃ ret st', cb v st = some (ret, st') ∧ P st')
    (mem : Mem) (stop maxsize : ℕ) (w : DirWalk σ) (hw : P w.st) :
    ∃ e w', traverseDirents sbi dir fsck cb mem stop maxsize w = some (e, w') ∧ P w'.st :=
  traverseLoop_total hcb hw

theorem traverseDirents_rule {I : ℕ → Option (ℕ × ℕ) → DirWalk σ → Prop}
    {Q : DirEnd → DirWalk σ → Prop} (hrule : TraverseRule sbi dir fsck cb mem stop maxsize I Q)
    {w w' : DirWalk σ} {e : DirEnd} (hI : I 0 none w)
    (h : traverseDirents sbi dir fsck cb mem stop maxsize w = some (e, w')) : Q e w' := by
  exact traverseLoop_rule hrule (k := 0) (by omega) hI h

end Run

end ErofsUtils
