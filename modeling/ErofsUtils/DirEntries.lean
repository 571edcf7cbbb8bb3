import ErofsUtils.DirSorted

/-!
# Iterations as lists of entries

What an iteration that does not check hands out depends on the bytes of the directory only: it is
a list of entries and the result that comes after them. An iteration is then a walk of the
callback over that list.
-/

namespace ErofsUtils
open ByteMemory CString

/-- The entries that a traversal hands out from `k` on, and whether it gets to the end. -/
def blockEntries (mem : Mem) (stop maxsize : ℕ) : ℕ → ℕ → ℕ → List DirVisit × Bool
  | 0, _, _ => ([], true)
  | fuel + 1, k, next =>
    if stop ≤ 12 * k then ([], true)
    else if Dirent.Placed mem stop maxsize next k then
      match blockEntries mem stop maxsize fuel (k + 1)
        (next + Dirent.namelen mem stop maxsize k) with
      | (vs, done) => (visitAt mem stop maxsize k :: vs, done)
    else ([], false)

section Entries

variable (sbi : DirSb) (dir : DirInode)

/-- The entries that an iteration hands out from `pos` on, with its result after them. -/
def dirEntriesLoop : ℕ → ℕ → Mem → List DirVisit × ℤ
  | 0, _, _ => ([], 0)
  | fuel + 1, pos, buf =>
    if dir.iSize ≤ pos then ([], 0)
    else
      let maxsize := min (dir.iSize - pos) sbi.blksz
      match dir.pread maxsize pos with
      | .error e => ([], e)
      | .ok bytes =>
        let buf := fillBuf buf bytes maxsize
        let nameoff := Dirent.nameoff buf 0
        if nameoff < 12 ∨ sbi.blksz ≤ nameoff then ([], eFsCorrupted)
        else
          match blockEntries buf nameoff maxsize nameoff 0 nameoff with
          | (vs, false) => (vs, eFsCorrupted)
          | (vs, true) =>
            match dirEntriesLoop fuel (pos + maxsize) buf with
            | (rest, ret) => (vs ++ rest, ret)

def dirEntries (buf : Mem) : List DirVisit × ℤ :=
  if ¬ dir.isDir then ([], eNotDir) else dirEntriesLoop sbi dir dir.iSize 0 buf

end Entries

section Visit

variable {σ : Type*} (cb : DirVisit → σ → Option (ℤ × σ))

/-- The callback on entry after entry until one result is not zero; `ret` comes after them. -/
def visitAll : List DirVisit → ℤ → σ → Option (ℤ × σ)
  | [], ret, st => some (ret, st)
  | v :: vs, ret, st =>
    match cb v st with
    | none => none
    | some (r, st) => if r ≠ 0 then some (r, st) else visitAll vs ret st

variable {cb}

theorem visitAll_append {vs ws : List DirVisit} {ret : ℤ} {st : σ} :
    visitAll cb (vs ++ ws) ret st =
      match visitAll cb vs 0 st with
      | none => none
      | some (r, st) => if r ≠ 0 then some (r, st) else visitAll cb ws ret st := by
  induction vs generalizing st with
  | nil => simp [visitAll]
  | cons v vs ih =>
      rw [List.cons_append, visitAll, visitAll]
      cases cb v st with
      | none => rfl
      | some r =>
          dsimp only
          by_cases hr : r.1 ≠ 0
          · simp [hr]
          · simp only [if_neg hr]
            exact ih

end Visit

section Iterate

variable {σ : Type*} {sbi : DirSb} {dir : DirInode} {fsck : Bool}
variable {cb : DirVisit → σ → Option (ℤ × σ)} {mem : Mem} {stop maxsize : ℕ}

/-- What the callback and the caller see of a traversal. -/
def seen (r : Option (DirEnd × DirWalk σ)) : Option (ℤ × σ) := r.map fun r => (r.1.ret, r.2.st)

theorem traverseLoop_visitAll {fuel k next : ℕ} {prev : Option (ℕ × ℕ)} {w : DirWalk σ} :
    seen (traverseLoop sbi dir false cb mem stop maxsize fuel k next prev w) =
      visitAll cb (blockEntries mem stop maxsize fuel k next).1
        (if (blockEntries mem stop maxsize fuel k next).2 then 0 else eFsCorrupted) w.st := by
  induction fuel generalizing k next prev w with
  | zero => rfl
  | succ fuel ih =>
      rw [traverseLoop, blockEntries]
      by_cases hk : stop ≤ 12 * k
      · rw [if_pos hk, if_pos hk]
        rfl
      rw [if_neg hk, if_neg hk]
      by_cases hp : Dirent.Placed mem stop maxsize next k
      · rw [if_pos hp, direntTurn_unchecked hp]
        dsimp only
        rw [visitAll, deliver]
        dsimp only [DirWalk.look]
        cases cb (visitAt mem stop maxsize k) w.st with
        | none => rfl
        | some r =>
            dsimp only
            by_cases hr : r.1 ≠ 0
            · rw [if_pos hr, if_pos hr]
              rfl
            · rw [if_neg hr, if_neg hr, ih]
              have hlen : (visitAt mem stop maxsize k).dname.length =
                  Dirent.namelen mem stop maxsize k := Dirent.length_dname
              rw [hlen]
      · have hmis : ∃ e, direntTurn sbi dir false mem stop maxsize k next prev w = (.error e,
            w.look maxsize (Dirent.nameReads mem stop maxsize k ++ List.range' (12 * k) 8)) :=
          direntTurn_misplaced hp
        obtain ⟨e, he⟩ := hmis
        rw [if_neg hp, he]
        rfl

theorem traverse_ret_rule :
    TraverseRule sbi dir fsck cb mem stop maxsize (fun _ _ _ => True)
      (fun e _ => e ≠ .done → e.ret ≠ 0) := by
  constructor
  · intro k prev w _ _ hn
    exact absurd rfl hn
  · intro k prev w e w' _ _ _ _
    rw [DirEnd.ret, eFsCorrupted]
    decide
  · intro k prev w v w' ret w'' _ _ _ _ hret _
    exact hret
  · intro k prev w v w' w'' _ _ _ _
    trivial

/-- With a result other than zero after the entries the whole result is not zero. -/
theorem visitAll_ne_zero {vs : List DirVisit} {ret r : ℤ} {st st' : σ} (hret : ret ≠ 0)
    (h : visitAll cb vs ret st = some (r, st')) : r ≠ 0 := by
  induction vs generalizing st with
  | nil =>
      rw [visitAll, Option.some.injEq, Prod.mk.injEq] at h
      rwa [← h.1]
  | cons v vs ih =>
      rw [visitAll] at h
      split at h
      · cases h
      · split at h
        · next hr =>
            rw [Option.some.injEq, Prod.mk.injEq] at h
            rwa [← h.1]
        · exact ih h

/-- The result of the loop of an iteration, whichever way it was left. -/
def loopRet : Except ℤ ℤ → ℤ
  | .error e => e
  | .ok e => e

theorem iterateLoop_visitAll {fuel pos : ℕ} {buf : Mem} {w : DirWalk σ} :
    (iterateLoop sbi dir false cb fuel pos buf w).map (fun r => (loopRet r.1, r.2.st)) =
      visitAll cb (dirEntriesLoop sbi dir fuel pos buf).1
        (dirEntriesLoop sbi dir fuel pos buf).2 w.st := by
  induction fuel generalizing pos buf w with
  | zero => rfl
  | succ fuel ih =>
      rw [iterateLoop, dirEntriesLoop]
      by_cases hpos : dir.iSize ≤ pos
      · rw [if_pos hpos, if_pos hpos]
        rfl
      rw [if_neg hpos, if_neg hpos]
      dsimp only
      cases dir.pread (min (dir.iSize - pos) sbi.blksz) pos with
      | error e => rfl
      | ok bytes =>
          dsimp only
          generalize fillBuf buf bytes (min (dir.iSize - pos) sbi.blksz) = b
          generalize min (dir.iSize - pos) sbi.blksz = maxsize
          by_cases hstop : Dirent.nameoff b 0 < 12 ∨ sbi.blksz ≤ Dirent.nameoff b 0
          · rw [if_pos hstop, if_pos hstop]
            rfl
          rw [if_neg hstop, if_neg hstop]
          have hseen : seen (traverseDirents sbi dir false cb b (Dirent.nameoff b 0) maxsize
              (w.look maxsize (List.range' 8 2))) = _ := traverseLoop_visitAll
          have hret : ∀ e w', traverseDirents sbi dir false cb b (Dirent.nameoff b 0) maxsize
              (w.look maxsize (List.range' 8 2)) = some (e, w') → e ≠ .done → e.ret ≠ 0 :=
            fun e w' h => traverseDirents_rule traverse_ret_rule trivial h
          rw [look_st] at hseen
          generalize traverseDirents sbi dir false cb b (Dirent.nameoff b 0) maxsize
            (w.look maxsize (List.range' 8 2)) = x at hseen hret
          cases hb : blockEntries b (Dirent.nameoff b 0) maxsize (Dirent.nameoff b 0) 0
              (Dirent.nameoff b 0) with
          | mk vs done =>
              rw [hb] at hseen
              cases done with
              | false =>
                  rw [if_neg Bool.false_ne_true] at hseen
                  dsimp only
                  rw [← hseen]
                  cases x with
                  | none => rfl
                  | some r =>
                      obtain ⟨e, w1⟩ := r
                      cases e with
                      | done => exact absurd rfl (visitAll_ne_zero (by decide) hseen.symm)
                      | fault e => rfl
                      | callback ret => rfl
              | true =>
                  rw [if_pos rfl] at hseen
                  dsimp only
                  rw [visitAll_append, ← hseen]
                  cases x with
                  | none => rfl
                  | some r =>
                      obtain ⟨e, w1⟩ := r
                      cases e with
                      | done => exact ih
                      | fault e => rfl
                      | callback ret =>
                          have hne := hret _ w1 rfl (by simp)
                          rw [DirEnd.ret] at hne
                          simp [seen, DirEnd.ret, hne, loopRet]

/-- An iteration that does not check is a walk of the callback over the directory's entries. -/
theorem erofsIterateDir_visitAll {buf : Mem} {marks : DirMarks} {st : σ} :
    (erofsIterateDir sbi dir false cb buf marks st).map (fun r => (r.1, r.2.st)) =
      visitAll cb (dirEntries sbi dir buf).1 (dirEntries sbi dir buf).2 st := by
  unfold erofsIterateDir dirEntries
  split
  · rfl
  · have hloop : (iterateLoop sbi dir false cb dir.iSize 0 buf (.start marks st)).map _ =
        visitAll cb _ _ st := iterateLoop_visitAll
    rw [← hloop]
    cases iterateLoop sbi dir false cb dir.iSize 0 buf (.start marks st) with
    | none => rfl
    | some r =>
        obtain ⟨r, w⟩ := r
        cases r with
        | error e => rfl
        | ok e => simp [loopRet]

end Iterate

end ErofsUtils
