import ErofsUtils.DirTurn

/-!
# The blocks of a directory

Both readers of directories go from block to block in the same buffer. The loops are put here
in terms of the index of a block, of the bytes that it has and of what the buffer holds once it
has been read.
-/

namespace ErofsUtils
open ByteMemory CString

section Blocks

variable (sbi : DirSb) (dir : DirInode)

def dirBlockSize (i : ℕ) : ℕ := min (dir.iSize - i * sbi.blksz) sbi.blksz

/-- The buffer after the first `i` blocks have been read. -/
def dirBufAt (buf : Mem) : ℕ → Mem
  | 0 => buf
  | i + 1 =>
    match dir.pread (dirBlockSize sbi dir i) (i * sbi.blksz) with
    | .ok bytes => fillBuf (dirBufAt buf i) bytes (dirBlockSize sbi dir i)
    | .error _ => dirBufAt buf i

def dirBlock (buf : Mem) (i : ℕ) : Mem := dirBufAt sbi dir buf (i + 1)

/-- The first offset of block `i`, which tells how many dirents there are. -/
def dirStop (buf : Mem) (i : ℕ) : ℕ := Dirent.nameoff (dirBlock sbi dir buf i) 0

def DirReadable (i : ℕ) : Prop :=
  ∃ bytes, dir.pread (dirBlockSize sbi dir i) (i * sbi.blksz) = .ok bytes

def DirStopOk (buf : Mem) (i : ℕ) : Prop :=
  12 ≤ dirStop sbi dir buf i ∧ dirStop sbi dir buf i < sbi.blksz

variable {sbi dir}

theorem dirBlockSize_le (i : ℕ) : dirBlockSize sbi dir i ≤ sbi.blksz := min_le_right _ _

theorem dirBlockSize_lt (i : ℕ) : dirBlockSize sbi dir i < 2 ^ 32 := by
  have h1 : dirBlockSize sbi dir i ≤ sbi.blksz := dirBlockSize_le i
  have h2 := sbi.blksz_le
  omega

/-- After a block the loop is at the next one, or past the end of the directory. -/
theorem dirBlockSize_add {i : ℕ} (h : i * sbi.blksz < dir.iSize) :
    i * sbi.blksz + dirBlockSize sbi dir i = (i + 1) * sbi.blksz ∨
      i * sbi.blksz + dirBlockSize sbi dir i = dir.iSize ∧ dir.iSize ≤ (i + 1) * sbi.blksz := by
  rw [dirBlockSize, Nat.succ_mul]
  by_cases hle : sbi.blksz ≤ dir.iSize - i * sbi.blksz
  · rw [min_eq_right hle]
    exact Or.inl rfl
  · rw [min_eq_left (by omega)]
    exact Or.inr ⟨by omega, by omega⟩

theorem dirBlock_of_ok (buf : Mem) {bytes : Mem} {i : ℕ}
    (h : dir.pread (dirBlockSize sbi dir i) (i * sbi.blksz) = .ok bytes) :
    fillBuf (dirBufAt sbi dir buf i) bytes (dirBlockSize sbi dir i) = dirBlock sbi dir buf i := by
  rw [dirBlock, dirBufAt, h]

end Blocks

section Iterate

variable {σ : Type*} {sbi : DirSb} {dir : DirInode} {fsck : Bool}
variable {cb : DirVisit → σ → Option (ℤ × σ)} {buf : Mem} {w : DirWalk σ} {fuel i : ℕ}

theorem iterateLoop_past {pos : ℕ} {b : Mem} (h : dir.iSize ≤ pos) :
    iterateLoop sbi dir fsck cb fuel pos b w = some (.ok 0, w) := by
  cases fuel with
  | zero => rfl
  | succ fuel => rw [iterateLoop, if_pos h]

theorem iterateLoop_error {e : ℤ} (h : i * sbi.blksz < dir.iSize)
    (hr : dir.pread (dirBlockSize sbi dir i) (i * sbi.blksz) = .error e) :
    iterateLoop sbi dir fsck cb (fuel + 1) (i * sbi.blksz) (dirBufAt sbi dir buf i) w =
      some (.error e, w) := by
  rw [dirBlockSize] at hr
  simp only [iterateLoop, if_neg (Nat.not_le.mpr h), hr]

theorem iterateLoop_stop (h : i * sbi.blksz < dir.iSize) (hr : DirReadable sbi dir i)
    (hs : ¬ DirStopOk sbi dir buf i) :
    iterateLoop sbi dir fsck cb (fuel + 1) (i * sbi.blksz) (dirBufAt sbi dir buf i) w =
      some (.error eFsCorrupted, w.look (dirBlockSize sbi dir i) (List.range' 8 2)) := by
  obtain ⟨bytes, hr⟩ := hr
  have hb := dirBlock_of_ok buf hr
  rw [DirStopOk, dirStop] at hs
  rw [dirBlockSize] at hr hb
  simp only [iterateLoop, if_neg (Nat.not_le.mpr h), hr, hb]
  rw [if_pos (by omega), dirBlockSize]

/-- A block with a valid first offset is traversed, and the next one follows if that is done. -/
theorem iterateLoop_block (h : i * sbi.blksz < dir.iSize) (hr : DirReadable sbi dir i)
    (hs : DirStopOk sbi dir buf i) :
    iterateLoop sbi dir fsck cb (fuel + 1) (i * sbi.blksz) (dirBufAt sbi dir buf i) w =
      match traverseDirents sbi dir fsck cb (dirBlock sbi dir buf i) (dirStop sbi dir buf i)
        (dirBlockSize sbi dir i) (w.look (dirBlockSize sbi dir i) (List.range' 8 2)) with
      | none => none
      | some (.done, w) =>
        iterateLoop sbi dir fsck cb fuel ((i + 1) * sbi.blksz) (dirBufAt sbi dir buf (i + 1)) w
      | some (e, w) => some (.ok e.ret, w) := by
  obtain ⟨bytes, hr⟩ := hr
  have hb := dirBlock_of_ok buf hr
  rw [DirStopOk, dirStop] at hs
  have hstep : ∀ w', iterateLoop sbi dir fsck cb fuel (i * sbi.blksz + dirBlockSize sbi dir i)
      (dirBlock sbi dir buf i) w' =
      iterateLoop sbi dir fsck cb fuel ((i + 1) * sbi.blksz) (dirBufAt sbi dir buf (i + 1)) w' := by
    intro w'
    cases dirBlockSize_add h with
    | inl he => rw [he, dirBlock]
    | inr he => rw [iterateLoop_past (by omega), iterateLoop_past he.2]
  rw [dirBlockSize] at hr
  simp only [iterateLoop, if_neg (Nat.not_le.mpr h), hr]
  rw [← dirBlockSize, hb, if_neg (by omega)]
  rw [dirStop]
  cases traverseDirents sbi dir fsck cb (dirBlock sbi dir buf i)
      (Dirent.nameoff (dirBlock sbi dir buf i) 0) (dirBlockSize sbi dir i)
      (w.look (dirBlockSize sbi dir i) (List.range' 8 2)) with
  | none => rfl
  | some r =>
      obtain ⟨e, w'⟩ := r
      cases e with
      | done => exact hstep w'
      | fault e => rfl
      | callback ret => rfl

/-- What an iteration needs to keep `I` from block to block and to end in `Q`. -/
structure IterateRule (sbi : DirSb) (dir : DirInode) (fsck : Bool)
    (cb : DirVisit → σ → Option (ℤ × σ)) (buf : Mem) (I : ℕ → DirWalk σ → Prop)
    (Q : Except ℤ ℤ → DirWalk σ → Prop) : Prop where
  past : ∀ i w, dir.iSize ≤ i * sbi.blksz → I i w → Q (.ok 0) w
  error : ∀ i w e, i * sbi.blksz < dir.iSize → I i w →
    dir.pread (dirBlockSize sbi dir i) (i * sbi.blksz) = .error e → Q (.error e) w
  stop : ∀ i w, i * sbi.blksz < dir.iSize → I i w → DirReadable sbi dir i →
    ¬ DirStopOk sbi dir buf i →
    Q (.error eFsCorrupted) (w.look (dirBlockSize sbi dir i) (List.range' 8 2))
  block : ∀ i w e w', i * sbi.blksz < dir.iSize → I i w → DirReadable sbi dir i →
    DirStopOk sbi dir buf i →
    traverseDirents sbi dir fsck cb (dirBlock sbi dir buf i) (dirStop sbi dir buf i)
      (dirBlockSize sbi dir i) (w.look (dirBlockSize sbi dir i) (List.range' 8 2)) =
        some (e, w') → (e = .done → I (i + 1) w') ∧ (e ≠ .done → Q (.ok e.ret) w')

theorem iterateLoop_rule {I : ℕ → DirWalk σ → Prop} {Q : Except ℤ ℤ → DirWalk σ → Prop}
    (hrule : IterateRule sbi dir fsck cb buf I Q) {w' : DirWalk σ} {r : Except ℤ ℤ}
    (hfuel : dir.iSize ≤ (i + fuel) * sbi.blksz) (hI : I i w)
    (h : iterateLoop sbi dir fsck cb fuel (i * sbi.blksz) (dirBufAt sbi dir buf i) w =
      some (r, w')) : Q r w' := by
  induction fuel generalizing i w with
  | zero =>
      rw [iterateLoop, Option.some.injEq, Prod.mk.injEq] at h
      rw [← h.1, ← h.2]
      exact hrule.past i w (by simpa using hfuel) hI
  | succ fuel ih =>
      by_cases hi : dir.iSize ≤ i * sbi.blksz
      · rw [iterateLoop_past hi, Option.some.injEq, Prod.mk.injEq] at h
        rw [← h.1, ← h.2]
        exact hrule.past i w hi hI
      rw [Nat.not_le] at hi
      cases hread : dir.pread (dirBlockSize sbi dir i) (i * sbi.blksz) with
      | error e =>
          rw [iterateLoop_error hi hread, Option.some.injEq, Prod.mk.injEq] at h
          rw [← h.1, ← h.2]
          exact hrule.error i w e hi hI hread
      | ok bytes =>
          have hr : DirReadable sbi dir i := ⟨bytes, hread⟩
          by_cases hs : DirStopOk sbi dir buf i
          · rw [iterateLoop_block hi hr hs] at h
            split at h
            · cases h
            · next w1 hw1 =>
                have hb := hrule.block i w .done w1 hi hI hr hs hw1
                apply ih _ (hb.1 rfl) h
                rwa [Nat.add_assoc, Nat.add_comm 1]
            · next e w1 hne hw1 =>
                rw [Option.some.injEq, Prod.mk.injEq] at h
                rw [← h.1, ← h.2]
                have hb := hrule.block i w e w1 hi hI hr hs hw1
                apply hb.2
                intro he
                subst he
                exact hne rfl
          · rw [iterateLoop_stop hi hr hs, Option.some.injEq, Prod.mk.injEq] at h
            rw [← h.1, ← h.2]
            exact hrule.stop i w hi hI hr hs

theorem iterateLoop_total {P : σ → Prop}
    (hcb : ∀ v st, v.dname ≠ [] → P st → ∃ ret st', cb v st = some (ret, st') ∧ P st')
    {pos : ℕ} {b : Mem} (hw : P w.st) :
    ∃ r w', iterateLoop sbi dir fsck cb fuel pos b w = some (r, w') ∧ P w'.st := by
  induction fuel generalizing pos b w with
  | zero => exact ⟨.ok 0, w, rfl, hw⟩
  | succ fuel ih =>
      rw [iterateLoop]
      split
      · exact ⟨.ok 0, w, rfl, hw⟩
      dsimp only
      split
      · exact ⟨_, w, rfl, hw⟩
      · next bytes _ =>
          split
          · exact ⟨_, _, rfl, hw⟩
          · obtain ⟨e, w1, hrun, hP⟩ := traverseDirents_total sbi dir fsck hcb
              (fillBuf b bytes (min (dir.iSize - pos) sbi.blksz))
              (Dirent.nameoff (fillBuf b bytes (min (dir.iSize - pos) sbi.blksz)) 0)
              (min (dir.iSize - pos) sbi.blksz)
              (w.look (min (dir.iSize - pos) sbi.blksz) (List.range' 8 2)) hw
            rw [hrun]
            cases e with
            | done => exact ih hP
            | fault e => exact ⟨_, w1, rfl, hP⟩
            | callback ret => exact ⟨_, w1, rfl, hP⟩

/-- An iteration returns when the callback does so on every name that is not empty, as long as
what it keeps satisfies `P`. -/
theorem erofsIterateDir_total (sbi : DirSb) (dir : DirInode) (fsck : Bool) (buf : Mem)
    {P : σ → Prop}
    (hcb : ∀ v st, v.dname ≠ [] → P st → ∃ ret st', cb v st = some (ret, st') ∧ P st')
    (marks : DirMarks) {st : σ} (hst : P st) :
    ∃ ret w', erofsIterateDir sbi dir fsck cb buf marks st = some (ret, w') ∧ P w'.st := by
  unfold erofsIterateDir
  split
  · exact ⟨_, _, rfl, hst⟩
  · have htotal : ∃ r w', iterateLoop sbi dir fsck cb dir.iSize 0 buf (.start marks st) =
        some (r, w') ∧ P w'.st := iterateLoop_total hcb hst
    obtain ⟨r, w', hrun, hP⟩ := htotal
    rw [hrun]
    cases r with
    | error e => exact ⟨e, w', rfl, hP⟩
    | ok err =>
        dsimp only
        split
        · exact ⟨_, w', rfl, hP⟩
        · exact ⟨_, w', rfl, hP⟩

theorem iterateLoop_start_rule {I : ℕ → DirWalk σ → Prop} {Q : Except ℤ ℤ → DirWalk σ → Prop}
    (hrule : IterateRule sbi dir fsck cb buf I Q) {w' : DirWalk σ} {r : Except ℤ ℤ} (hI : I 0 w)
    (h : iterateLoop sbi dir fsck cb dir.iSize 0 buf w = some (r, w')) : Q r w' := by
  have hpos := sbi.blksz_pos
  apply iterateLoop_rule hrule (i := 0) (w := w) _ hI
  · rw [Nat.zero_mul]
    exact h
  · rw [Nat.zero_add]
    exact Nat.le_mul_of_pos_right _ hpos

end Iterate

section Namei

variable {sbi : DirSb} {dir : DirInode} {name : FileName} {buf : Mem} {fuel i : ℕ}

theorem nameiLoop_past {pos : ℕ} {b : Mem} (h : dir.iSize ≤ pos) :
    nameiLoop sbi dir name fuel pos b = ⟨.error eNoEnt, [], none⟩ := by
  cases fuel with
  | zero => rfl
  | succ fuel => rw [nameiLoop, if_pos h]

theorem nameiLoop_error {e : ℤ} (h : i * sbi.blksz < dir.iSize)
    (hr : dir.pread (dirBlockSize sbi dir i) (i * sbi.blksz) = .error e) :
    nameiLoop sbi dir name (fuel + 1) (i * sbi.blksz) (dirBufAt sbi dir buf i) =
      ⟨.error e, [], none⟩ := by
  rw [dirBlockSize] at hr
  simp only [nameiLoop, if_neg (Nat.not_le.mpr h), hr]

theorem nameiLoop_stop (h : i * sbi.blksz < dir.iSize) (hr : DirReadable sbi dir i)
    (hs : ¬ DirStopOk sbi dir buf i) :
    nameiLoop sbi dir name (fuel + 1) (i * sbi.blksz) (dirBufAt sbi dir buf i) =
      NameiEnd.look ⟨.error eFsCorrupted, [], none⟩ (dirBlockSize sbi dir i)
        (List.range' 8 2) := by
  obtain ⟨bytes, hr⟩ := hr
  have hb := dirBlock_of_ok buf hr
  rw [DirStopOk, dirStop] at hs
  rw [dirBlockSize] at hr hb
  simp only [nameiLoop, if_neg (Nat.not_le.mpr h), hr, hb]
  rw [if_pos (by omega), dirBlockSize]

theorem nameiLoop_block (h : i * sbi.blksz < dir.iSize) (hr : DirReadable sbi dir i)
    (hs : DirStopOk sbi dir buf i) :
    nameiLoop sbi dir name (fuel + 1) (i * sbi.blksz) (dirBufAt sbi dir buf i) =
      match findTargetDirent name (dirBlock sbi dir buf i) (dirStop sbi dir buf i)
        (dirBlockSize sbi dir i) with
      | (.error e, reads) =>
        NameiEnd.look ⟨.error e, [], none⟩ (dirBlockSize sbi dir i) (List.range' 8 2 ++ reads)
      | (.ok (some k), reads) =>
        NameiEnd.look
          ⟨.ok (Dirent.nid (dirBlock sbi dir buf i) k), [],
            some (dirBlockSize sbi dir i, Dirent.nameoff (dirBlock sbi dir buf i) k,
              Dirent.namelen (dirBlock sbi dir buf i) (dirStop sbi dir buf i)
                (dirBlockSize sbi dir i) k)⟩
          (dirBlockSize sbi dir i) (List.range' 8 2 ++ reads ++ List.range' (12 * k) 8)
      | (.ok none, reads) =>
        (nameiLoop sbi dir name fuel ((i + 1) * sbi.blksz) (dirBufAt sbi dir buf (i + 1))).look
          (dirBlockSize sbi dir i) (List.range' 8 2 ++ reads) := by
  obtain ⟨bytes, hr⟩ := hr
  have hb := dirBlock_of_ok buf hr
  rw [DirStopOk, dirStop] at hs
  have hstep : nameiLoop sbi dir name fuel (i * sbi.blksz + dirBlockSize sbi dir i)
      (dirBlock sbi dir buf i) =
      nameiLoop sbi dir name fuel ((i + 1) * sbi.blksz) (dirBufAt sbi dir buf (i + 1)) := by
    cases dirBlockSize_add h with
    | inl he => rw [he, dirBlock]
    | inr he => rw [nameiLoop_past (by omega), nameiLoop_past he.2]
  rw [dirBlockSize] at hr
  simp only [nameiLoop, if_neg (Nat.not_le.mpr h), hr]
  rw [← dirBlockSize, hb, if_neg (by omega)]
  rw [dirStop]
  cases findTargetDirent name (dirBlock sbi dir buf i) (Dirent.nameoff (dirBlock sbi dir buf i) 0)
      (dirBlockSize sbi dir i) with
  | mk found reads =>
      cases found with
      | error e => rfl
      | ok k =>
          cases k with
          | none =>
              dsimp only
              rw [hstep]
          | some k => rfl

end Namei

end ErofsUtils
