import ErofsUtils.CompactLayout
import Mathlib.Data.List.Induction

/-!
# Block addresses in the packs

A pack stores one block address. The converter takes it from its running address, the
reader counts the blocks of the heads in front of the one it wants. Both agree because the
running address at an extent's head is the sum of the block counts in front of it.
-/

namespace ErofsUtils
open ByteMemory BitPacking

def cvAt (vi : Inode) (es : List InmemExtent) (lcn : ℕ) : CompressindexVec :=
  match (fileSlots vi.sbi.blksz 0 es)[lcn]? with
  | some s => .ofIndex (s.index vi)
  | none => .zero

def totalBlocks (es : List InmemExtent) : ℕ := (es.map InmemExtent.compressedblks).sum

@[simp] theorem totalBlocks_nil : totalBlocks [] = 0 := rfl

theorem totalBlocks_concat (es : List InmemExtent) (e : InmemExtent) :
    totalBlocks (es ++ [e]) = totalBlocks es + e.compressedblks := by simp [totalBlocks]

theorem totalLength_concat (es : List InmemExtent) (e : InmemExtent) :
    totalLength (es ++ [e]) = totalLength es + e.length := by simp

/-- An extent whose blocks the packs count: the indexes of a big pcluster that reaches the
end of two lclusters carry its count, any other extent counts as one block. -/
structure Counted (vi : Inode) (pos : ℕ) (e : InmemExtent) : Prop where
  span_pos : 0 < extentSpan vi.sbi.blksz pos e
  single : ¬ (vi.sbi.bigPcluster = true ∧ 2 ≤ extentSpan vi.sbi.blksz pos e) →
    e.compressedblks = 1
  lt : e.compressedblks < d0Cblkcnt

def AllCounted (vi : Inode) (pre : List InmemExtent) : Prop :=
  ∀ pre' e post', pre = pre' ++ e :: post' → Counted vi (totalLength pre') e

theorem AllCounted.concat {vi : Inode} {pre : List InmemExtent} {e : InmemExtent}
    (h : AllCounted vi (pre ++ [e])) : AllCounted vi pre ∧ Counted vi (totalLength pre) e := by
  refine ⟨?_, h pre e [] rfl⟩
  rintro pre' e' post' rfl
  exact h pre' e' (post' ++ [e]) (by simp)

section Entry

variable {vi : Inode} (e : InmemExtent) (clusterofs d0 d1 : ℕ)

theorem ofIndex_head :
    (CompressindexVec.ofIndex (extentIndex vi e clusterofs 0 d1)).clustertype = e.headtype ∧
      (CompressindexVec.ofIndex (extentIndex vi e clusterofs 0 d1)).clusterofs =
        u16 clusterofs := by
  have h := legacyDecodeIndex_head vi .init e clusterofs d1
  unfold legacyDecodeIndex at h
  unfold CompressindexVec.ofIndex
  split at h
  · split_ifs at h
    all_goals
      simp only [Except.ok.injEq, Maprecorder.mk.injEq] at h
      have := e.headtype_cases
      rw [← h.2.1] at this
      simp at this
  · simp only [Except.ok.injEq, Maprecorder.mk.injEq] at h
    exact ⟨h.2.1, h.2.2.2.1⟩
  · simp only [Except.ok.injEq, Maprecorder.mk.injEq] at h
    exact ⟨h.2.1, h.2.2.2.1⟩
  · cases h

theorem ofIndex_cblkcnt (hb : vi.sbi.bigPcluster = true) :
    CompressindexVec.ofIndex (extentIndex vi e clusterofs 1 d1) =
      ⟨LclusterIndex.deltas (e.compressedblks ||| d0Cblkcnt) d1, u16 clusterofs,
        .nonhead⟩ := by
  simp [CompressindexVec.ofIndex, extentIndex, hb, LclusterIndex.type]

theorem ofIndex_nonhead (h0 : d0 ≠ 0) (h1 : ¬ (d0 = 1 ∧ vi.sbi.bigPcluster = true)) :
    CompressindexVec.ofIndex (extentIndex vi e clusterofs d0 d1) =
      ⟨LclusterIndex.deltas (min d0 (d0Cblkcnt - 1)) d1, u16 clusterofs, .nonhead⟩ := by
  have hmin : (if d0Cblkcnt ≤ d0 then d0Cblkcnt - 1 else d0) = min d0 (d0Cblkcnt - 1) := by
    unfold d0Cblkcnt
    split_ifs <;> omega
  simp [CompressindexVec.ofIndex, extentIndex, h0, h1, LclusterIndex.type, hmin]

@[simp] theorem delta0_mk_deltas (a b c : ℕ) (t : LclusterType) :
    CompressindexVec.delta0 ⟨LclusterIndex.deltas a b, c, t⟩ = u16 a :=
  LclusterIndex.delta0_deltas 0 0 a b

@[simp] theorem delta1_mk_deltas (a b c : ℕ) (t : LclusterType) :
    CompressindexVec.delta1 ⟨LclusterIndex.deltas a b, c, t⟩ = u16 b :=
  LclusterIndex.delta1_deltas 0 0 a b

end Entry

section Slot

variable {vi : Inode} {pre post : List InmemExtent} {e : InmemExtent}

theorem cvAt_head (hs : Spans vi.sbi.blksz 0 (pre ++ e :: post)) :
    (cvAt vi (pre ++ e :: post) (totalLength pre / vi.sbi.blksz)).clustertype = e.headtype ∧
      (cvAt vi (pre ++ e :: post) (totalLength pre / vi.sbi.blksz)).clusterofs =
        u16 (totalLength pre % vi.sbi.blksz) := by
  obtain ⟨p, d1, hslot⟩ := slot_head vi.sbi.blksz_pos hs
  rw [cvAt, hslot]
  exact ofIndex_head { e with partialRef := p } _ d1

theorem cvAt_cblkcnt (hs : Spans vi.sbi.blksz 0 (pre ++ e :: post))
    (hb : vi.sbi.bigPcluster = true)
    (h2 : 2 ≤ extentSpan vi.sbi.blksz (totalLength pre) e) :
    cvAt vi (pre ++ e :: post) (totalLength pre / vi.sbi.blksz + 1) =
      ⟨LclusterIndex.deltas (e.compressedblks ||| d0Cblkcnt)
        (extentSpan vi.sbi.blksz (totalLength pre) e - 1),
        u16 (totalLength pre % vi.sbi.blksz), .nonhead⟩ := by
  rw [cvAt, slot_of_lt_span vi.sbi.blksz_pos hs (show 1 < _ by omega)]
  exact ofIndex_cblkcnt e _ _ hb

theorem cvAt_nonhead (hs : Spans vi.sbi.blksz 0 (pre ++ e :: post)) {i : ℕ} (h0 : i ≠ 0)
    (hi : i < extentSpan vi.sbi.blksz (totalLength pre) e)
    (h1 : ¬ (i = 1 ∧ vi.sbi.bigPcluster = true)) :
    cvAt vi (pre ++ e :: post) (totalLength pre / vi.sbi.blksz + i) =
      ⟨LclusterIndex.deltas (min i (d0Cblkcnt - 1))
        (extentSpan vi.sbi.blksz (totalLength pre) e - i),
        u16 (totalLength pre % vi.sbi.blksz), .nonhead⟩ := by
  rw [cvAt, slot_of_lt_span vi.sbi.blksz_pos hs hi]
  exact ofIndex_nonhead e _ _ _ h0 h1

theorem u16_min_d0Cblkcnt (i : ℕ) :
    u16 (min i (d0Cblkcnt - 1)) = min i (d0Cblkcnt - 1) ∧
      min i (d0Cblkcnt - 1) &&& d0Cblkcnt = 0 := by
  refine ⟨u16_of_lt ?_, and_d0Cblkcnt_of_lt ?_⟩
  all_goals
    unfold d0Cblkcnt
    omega

theorem u16_or_of_lt {n : ℕ} (h : n < d0Cblkcnt) :
    u16 (n ||| d0Cblkcnt) = n + d0Cblkcnt := by
  rw [or_d0Cblkcnt_of_lt h, u16_of_lt (by unfold d0Cblkcnt at *; omega)]

end Slot

section Carry

variable {cv : CompressindexVec}

theorem carryStep_head (c : ℕ × Bool) (h : cv.clustertype ≠ .nonhead) :
    carryStep c cv = (if c.2 then u32 (c.1 + 1) else c.1, true) := by
  unfold carryStep AddrState.step
  simp only [if_neg h]
  split_ifs <;> rfl

theorem carryStep_cblkcnt (c : ℕ × Bool) (h : cv.clustertype = .nonhead)
    (hd : cv.delta0 &&& d0Cblkcnt ≠ 0) :
    carryStep c cv = (u32 (c.1 + (cv.delta0 - d0Cblkcnt)), false) := by
  unfold carryStep AddrState.step
  simp only [if_pos h, if_pos hd]

theorem carryStep_nonhead (c : ℕ × Bool) (h : cv.clustertype = .nonhead)
    (hd : cv.delta0 &&& d0Cblkcnt = 0) : carryStep c cv = c := by
  unfold carryStep AddrState.step
  simp only [if_pos h, hd, ne_eq, not_true, if_false]

def AddrState.Settled (s : AddrState) : Prop := s.dummyHead = false ∨ s.updateBlkaddr = false

theorem AddrState.Settled.step {s : AddrState} (h : s.Settled) (cv : CompressindexVec) :
    (s.step cv).Settled ∧ (s.step cv).blkaddrRet = s.blkaddrRet := by
  unfold AddrState.step Settled
  rcases h with h | h
  · simp only [h]
    split_ifs <;> simp_all
  · simp only [h]
    split_ifs <;> simp_all

theorem AddrState.Settled.foldl {s : AddrState} (h : s.Settled) (cvs : List CompressindexVec) :
    (cvs.foldl AddrState.step s).blkaddrRet = s.blkaddrRet := by
  induction cvs generalizing s with
  | nil => rfl
  | cons cv cvs ih =>
      obtain ⟨hs, hret⟩ := h.step cv
      rw [List.foldl_cons, ih hs, hret]

theorem packAddr_cons {big : Bool} {c : ℕ × Bool} (cvs : List CompressindexVec)
    (h : big = true → cv.clustertype = .nonhead → cv.delta0 &&& d0Cblkcnt = 0 → c.2 = false) :
    packAddr big c (cv :: cvs) =
      if cv.clustertype ≠ .nonhead ∧ c.2 = true ∧ big = true then u32 (c.1 + 1) else c.1 := by
  rw [packAddr, List.foldl_cons, AddrState.Settled.foldl]
  · unfold AddrState.step
    split_ifs <;> simp_all
  · unfold AddrState.step AddrState.Settled
    cases big with
    | false => split_ifs <;> simp
    | true =>
        split_ifs with ht hd <;> simp_all

end Carry

section Running

variable {vi : Inode} {blkaddr : ℕ}

/-- The converter's state in front of lcluster `lcn` of a file. -/
def runningCarry (vi : Inode) (blkaddr : ℕ) (es : List InmemExtent) (lcn : ℕ) : ℕ × Bool :=
  carryAt (cvAt vi es) (startCarry vi.sbi.bigPcluster blkaddr) lcn

/-- The state in front of the slot at distance `i ≠ 0` from the head of an extent, whose
address is `a` and whose block count is `n`. -/
def InnerCarry (vi : Inode) (a n i : ℕ) (c : ℕ × Bool) : Prop :=
  if vi.sbi.bigPcluster = true ∧ 2 ≤ i then
    c.1 % 2 ^ 32 = (a + n) % 2 ^ 32 ∧ c.2 = false
  else c.1 % 2 ^ 32 = a % 2 ^ 32 ∧ c.2 = true

/-- The state in front of the head of an extent with address `a`. -/
def HeadCarry (vi : Inode) (a : ℕ) (c : ℕ × Bool) : Prop :=
  (c.1 + c.2.toNat) % 2 ^ 32 = a % 2 ^ 32 ∧ (vi.sbi.bigPcluster = false → c.2 = true)

theorem headCarry_start (vi : Inode) (blkaddr : ℕ) :
    HeadCarry vi blkaddr (startCarry vi.sbi.bigPcluster blkaddr) := by
  unfold HeadCarry startCarry
  cases vi.sbi.bigPcluster with
  | false =>
      simp only [Bool.false_eq_true, if_false, Bool.not_false, Bool.toNat_true, dec32,
        implies_true, and_true]
      omega
  | true => simp

variable {pre post : List InmemExtent} {e : InmemExtent}

theorem innerCarry (hs : Spans vi.sbi.blksz 0 (pre ++ e :: post))
    (he : Counted vi (totalLength pre) e) {a : ℕ}
    (hhead : HeadCarry vi a (runningCarry vi blkaddr (pre ++ e :: post)
      (totalLength pre / vi.sbi.blksz))) {i : ℕ} (h0 : i ≠ 0)
    (hi : i ≤ extentSpan vi.sbi.blksz (totalLength pre) e) :
    InnerCarry vi a e.compressedblks i (runningCarry vi blkaddr (pre ++ e :: post)
      (totalLength pre / vi.sbi.blksz + i)) := by
  induction i with
  | zero => exact absurd rfl h0
  | succ i ih =>
      have hstep : runningCarry vi blkaddr (pre ++ e :: post)
          (totalLength pre / vi.sbi.blksz + (i + 1)) =
        carryStep (runningCarry vi blkaddr (pre ++ e :: post)
          (totalLength pre / vi.sbi.blksz + i))
          (cvAt vi (pre ++ e :: post) (totalLength pre / vi.sbi.blksz + i)) := rfl
      rw [hstep]
      rcases Nat.eq_zero_or_pos i with hz | hpos
      · subst hz
        obtain ⟨htype, -⟩ := cvAt_head hs
        have hne : (cvAt vi (pre ++ e :: post) (totalLength pre / vi.sbi.blksz)).clustertype ≠
            .nonhead := by
          rw [htype]
          rcases e.headtype_cases with h | h <;> simp [h]
        simp only [Nat.add_zero, carryStep_head _ hne]
        unfold InnerCarry
        rw [if_neg (by omega)]
        refine ⟨?_, rfl⟩
        have h := hhead.1
        generalize runningCarry vi blkaddr (pre ++ e :: post)
          (totalLength pre / vi.sbi.blksz) = c at h ⊢
        cases hd : c.2 with
        | false =>
            simp only [hd, Bool.toNat_false] at h
            simp only [Bool.false_eq_true, if_false]
            omega
        | true =>
            simp only [hd, Bool.toNat_true] at h
            simp only [if_true, u32]
            omega
      · have hprev := ih (by omega) (by omega)
        generalize runningCarry vi blkaddr (pre ++ e :: post)
          (totalLength pre / vi.sbi.blksz + i) = c at hprev
        unfold InnerCarry at hprev ⊢
        by_cases hc : i = 1 ∧ vi.sbi.bigPcluster = true
        · -- the entry that stores the block count
          obtain ⟨rfl, hb⟩ := hc
          rw [cvAt_cblkcnt hs hb hi]
          rw [carryStep_cblkcnt _ rfl (by
            rw [delta0_mk_deltas]
            exact u16_or_d0Cblkcnt _), delta0_mk_deltas, u16_or_of_lt he.lt,
            Nat.add_sub_cancel]
          rw [if_neg (by omega)] at hprev
          rw [if_pos ⟨hb, le_rfl⟩]
          refine ⟨?_, rfl⟩
          simp only [u32]
          omega
        · rw [cvAt_nonhead hs (by omega) (by omega) hc,
            carryStep_nonhead _ rfl (by
              rw [delta0_mk_deltas, (u16_min_d0Cblkcnt i).1, (u16_min_d0Cblkcnt i).2])]
          by_cases hb : vi.sbi.bigPcluster = true
          · have h1 : i ≠ 1 := fun h => hc ⟨h, hb⟩
            rw [if_pos ⟨hb, by omega⟩] at hprev ⊢
            exact hprev
          · rw [if_neg (fun h => hb h.1)] at hprev ⊢
            exact hprev

theorem InnerCarry.headCarry {a : ℕ} {c : ℕ × Bool} (he : Counted vi (totalLength pre) e)
    (h : InnerCarry vi a e.compressedblks (extentSpan vi.sbi.blksz (totalLength pre) e) c) :
    HeadCarry vi (a + e.compressedblks) c := by
  unfold InnerCarry at h
  unfold HeadCarry
  split_ifs at h with hb
  · obtain ⟨h₁, h₂⟩ := h
    rw [h₂]
    exact ⟨by simpa using h₁, fun hf => by simp [hf] at hb⟩
  · obtain ⟨h₁, h₂⟩ := h
    rw [h₂, he.single hb]
    refine ⟨?_, fun _ => rfl⟩
    simp only [Bool.toNat_true]
    omega

theorem headCarry (vi : Inode) (blkaddr : ℕ) {pre rest : List InmemExtent}
    (hs : Spans vi.sbi.blksz 0 (pre ++ rest)) (hc : AllCounted vi pre) :
    HeadCarry vi (blkaddr + totalBlocks pre)
      (runningCarry vi blkaddr (pre ++ rest) (totalLength pre / vi.sbi.blksz)) := by
  induction pre using List.reverseRecOn generalizing rest with
  | nil =>
      rw [totalLength_nil, Nat.zero_div]
      exact headCarry_start vi blkaddr
  | append_singleton pre e ih =>
      obtain ⟨hpre, he⟩ := hc.concat
      rw [List.append_assoc, List.singleton_append] at hs ⊢
      have hinner := innerCarry hs he (ih hs hpre) (Nat.pos_iff_ne_zero.mp he.span_pos) le_rfl
      rw [totalLength_concat, div_add_extentSpan vi.sbi.blksz_pos, totalBlocks_concat,
        ← Nat.add_assoc]
      exact hinner.headCarry he

end Running

end ErofsUtils
