import ErofsUtils.BufMgrPlace

/-!
# Revoking a data buffer

A compressed file takes an empty data buffer, has it mapped, and lets it grow as its clusters are
written. When the file turns out not to compress the buffer is dropped with `tryrevoke`, and the
manager is as it was before: the uncompressed data get the same blocks. It is not when the buffer
has grown beyond the last block number, since the tail has wrapped by then.
-/

namespace ErofsUtils
namespace BufMgr

/-- `erofs_bh_balloon` on one head for one size after the other. -/
def ballooned (s : BufMgr) (bid hid : ℕ) (incrs : List ℕ) : BufMgr :=
  incrs.foldl (fun s incr => (s.erofsBhBalloon bid hid incr).1) s

/-- The tail, the last mapped block and the block list come back, and none of the earlier blocks
that wait for an address has got one. -/
def Revokes (s : BufMgr) (incrs : List ℕ) : Prop :=
  ∃ s₁ bid hid, s.erofsBalloc .data 0 0 0 = (s₁, .ok (bid, hid)) ∧
    (∀ b ∈ s.blocks, b ∈ (s₁.erofsMapbh (some bid)).blocks) ∧
    let s₂ := ((s₁.erofsMapbh (some bid)).ballooned bid hid incrs).erofsBdrop bid hid true
    s₂.tailBlkaddr = s.tailBlkaddr ∧ s₂.lastMapped = s.lastMapped ∧ s₂.blocks = s.blocks

/-- `n` bytes at the tail do not end at a block number any more, and nothing keeps the buffer from
growing to them. -/
def TailOverrun (s : BufMgr) (n : ℕ) : Prop :=
  s.tailBlkaddr ≠ nullAddr ∧ nextAddr (s.behindNew .data) = nullAddr ∧
    2 ^ 32 ≤ s.tailBlkaddr + s.sb.blocksOf n

section Revoke

variable {s s' : BufMgr} {p q : List BufferBlock}

def dataBlock (s : BufMgr) (addr off len : ℕ) : BufferBlock :=
  ⟨s.fresh, .data, addr, off, [⟨s.fresh + 1, 0, len⟩]⟩

structure Growing (s s' : BufMgr) (p q : List BufferBlock) (off : ℕ) : Prop where
  sb : s'.sb = s.sb
  blocks : ∃ len, s'.blocks = p ++ s.dataBlock s.tailBlkaddr off len :: q
  last : s'.lastMapped = some s.fresh

theorem Named.fresh_notMem (h : s.Named) (hs : s.blocks = p ++ q) :
    s.fresh ∉ p.map BufferBlock.id := by
  intro hin
  apply lt_irrefl s.fresh
  apply h.fresh
  rw [hs, List.map_append]
  exact List.mem_append_left _ hin

theorem split_dataBlock (hp : s.fresh ∉ p.map BufferBlock.id) (addr off len : ℕ) :
    splitAtBlock s.fresh (p ++ s.dataBlock addr off len :: q) =
      some (p, s.dataBlock addr off len, q) :=
  splitAtBlock_append (b := s.dataBlock addr off len) hp

theorem Named.balloc_empty (h : s.Named) : ∃ s₁ : BufMgr, s.erofsBalloc .data 0 0 0 =
    (s₁, .ok (s.fresh, s.fresh + 1)) ∧ s₁.sb = s.sb ∧ s₁.tailBlkaddr = s.tailBlkaddr ∧
      s₁.lastMapped = s.lastMapped ∧
      s₁.blocks = s.splitLastMapped.1 ++ s.dataBlock nullAddr 0 0 :: s.splitLastMapped.2 := by
  have hbehind := behindNew_data h.last
  obtain ⟨p, hs, hs'⟩ := s.newBlock_blocks .data
  have hp : p = s.splitLastMapped.1 := by
    have hsame : p ++ s.behindNew .data = s.splitLastMapped.1 ++ s.behindNew .data := by
      rw [← hs, hbehind]
      exact s.splitLastMapped_append
    exact List.append_cancel_right hsame
  rw [hbehind, hp] at hs'
  have hpos := s.sb.size_pos
  have hmax := s.sb.size_le
  have hfind : s.erofsBfindForAttach .data 0 0 0 s.sb.size = .ok none := by
    simp [erofsBfindForAttach, u32, u64]
  have hsplit : splitAtBlock s.fresh (s.newBlock .data).blocks = some (s.splitLastMapped.1,
      ⟨s.fresh, .data, nullAddr, 0, []⟩, s.splitLastMapped.2) :=
    splitAtBlock_mid (h.newBlock .data).nodup hs'
  have hroom : battachRoom s.sb ⟨s.fresh, .data, nullAddr, 0, []⟩ 0 s.sb.size 0 = s.sb.size := by
    rw [battachRoom_empty hpos dvd_rfl (by rw [roundUp_zero hpos]; omega) rfl]
    rfl
  have hcheck : battachCheck (s.newBlock .data).sb (s.newBlock .data).tailBlkaddr
      (nextAddr s.splitLastMapped.2) ⟨s.fresh, .data, nullAddr, 0, []⟩ 0 s.sb.size 0 =
        some false := by
    rw [battachCheck_new rfl, if_neg]
    rintro ⟨-, hlt⟩
    change s.sb.size < battachRoom s.sb _ _ _ _ at hlt
    rw [hroom] at hlt
    exact lt_irrefl _ hlt
  have hzero : BlockSize.roundup 0 s.sb.size = 0 := by
    rw [BlockSize.roundup_eq (by omega), roundUp_zero hpos]
  have hrun : s.erofsBalloc .data 0 0 0 = ((s.newBlock .data).attached s.splitLastMapped.1
      ⟨s.fresh, .data, nullAddr, 0, []⟩ s.splitLastMapped.2 0 s.sb.size false,
        .ok (s.fresh, s.fresh + 1)) := by
    rw [erofsBalloc, getAlignsize]
    dsimp only
    rw [hfind]
    exact ballocIn_eq hsplit hcheck
  refine ⟨_, hrun, rfl, rfl, rfl, ?_⟩
  change s.splitLastMapped.1 ++ battachBlock ⟨s.fresh, .data, nullAddr, 0, []⟩ 0 s.sb.size
    (some (s.fresh + 1)) :: s.splitLastMapped.2 = _
  rw [battachBlock]
  dsimp only
  rw [hzero]
  rfl

theorem Named.splitLastMapped_insert (h : s.Named) {s₁ : BufMgr} {b : BufferBlock}
    (hlast : s₁.lastMapped = s.lastMapped)
    (hblocks : s₁.blocks = s.splitLastMapped.1 ++ b :: s.splitLastMapped.2) :
    s₁.splitLastMapped = (s.splitLastMapped.1, b :: s.splitLastMapped.2) := by
  rw [splitLastMapped, hlast]
  cases hl : s.lastMapped with
  | none =>
      rw [hblocks]
      simp [splitLastMapped, hl]
  | some id =>
      obtain ⟨⟨p, c, q⟩, hsplit⟩ := splitAtBlock_of_mem (h.last id hl)
      have hs : s.splitLastMapped = (p ++ [c], q) := by
        rw [splitLastMapped, hl]
        simp only [hsplit]
      obtain ⟨hs', hc⟩ := splitAtBlock_some hsplit
      have hnodup := h.nodup
      rw [hs', List.map_append, List.map_cons, List.nodup_append] at hnodup
      have hsplit' : splitAtBlock id s₁.blocks = some (p, c, b :: q) := by
        rw [hblocks, hs, List.append_assoc, List.singleton_append, ← hc]
        exact splitAtBlock_append fun hin => hnodup.2.2 _ hin _ List.mem_cons_self rfl
      simp only [hsplit', hs]

theorem Named.mapbh_empty (h : s.Named) {s₁ : BufMgr} (hsb : s₁.sb = s.sb)
    (htail : s₁.tailBlkaddr = s.tailBlkaddr) (hlast : s₁.lastMapped = s.lastMapped)
    (hblocks : s₁.blocks =
      s.splitLastMapped.1 ++ s.dataBlock nullAddr 0 0 :: s.splitLastMapped.2)
    (hlt : s.tailBlkaddr < 2 ^ 32) :
    Growing s (s₁.erofsMapbh (some s.fresh)) s.splitLastMapped.1 s.splitLastMapped.2 0 ∧
      (s₁.erofsMapbh (some s.fresh)).tailBlkaddr = s.tailBlkaddr := by
  have hsplit : splitAtBlock s.fresh s₁.blocks = some (s.splitLastMapped.1,
      s.dataBlock nullAddr 0 0, s.splitLastMapped.2) := by
    rw [hblocks]
    exact split_dataBlock (h.fresh_notMem s.splitLastMapped_append) _ _ _
  have hmapped : s₁.isMapped (some s.fresh) = false := by
    rw [isMapped, Option.bind_some, hsplit]
    rfl
  have hrun : s₁.erofsMapbh (some s.fresh) =
      s₁.mapBlock s.splitLastMapped.1 (s.dataBlock nullAddr 0 0) s.splitLastMapped.2 := by
    rw [BufMgr.erofsMapbh, hmapped, if_neg Bool.false_ne_true,
      h.splitLastMapped_insert hlast hblocks, BufMgr.mapbhLoop]
    exact if_pos rfl
  have haddr : s₁.mapped (s.dataBlock nullAddr 0 0) = s.dataBlock s.tailBlkaddr 0 0 := by
    rw [mapped, htail]
    exact if_pos rfl
  rw [hrun]
  refine ⟨⟨hsb, ⟨0, ?_⟩, rfl⟩, ?_⟩
  · change s.splitLastMapped.1 ++ s₁.mapped _ :: _ = _
    rw [haddr]
  · change max s₁.tailBlkaddr (s₁.mappedEnd _) = _
    rw [mappedEnd, haddr]
    change max s₁.tailBlkaddr (u32 (s.tailBlkaddr + s₁.sb.blkRoundUp 0)) = _
    have hmax := s₁.sb.size_le
    rw [s₁.sb.blkRoundUp_eq (by omega), BlockSize.blocksOf_zero, Nat.add_zero, htail,
      u32_of_lt hlt, max_self]

/-- One balloon: it is refused, or the buffer grows. -/
theorem Growing.balloon {off incr : ℕ} (h : Growing s s' p q off)
    (hp : s.fresh ∉ p.map BufferBlock.id) (hbytes : off + incr + s.sb.size < 2 ^ 64) :
    ∃ bb : BufferBlock, bb.off = off ∧ bb.blkaddr = s.tailBlkaddr ∧
      ((battachCheck s.sb s'.tailBlkaddr (nextAddr q) bb incr 1 0 = none ∧
          (s'.erofsBhBalloon s.fresh (s.fresh + 1) incr).1 = s') ∨
        ∃ up, battachCheck s.sb s'.tailBlkaddr (nextAddr q) bb incr 1 0 = some up ∧
          Growing s (s'.erofsBhBalloon s.fresh (s.fresh + 1) incr).1 p q (off + incr) ∧
          (s'.erofsBhBalloon s.fresh (s.fresh + 1) incr).1.tailBlkaddr =
            if up then u32 (s.tailBlkaddr + s.sb.blocksOf (off + incr)) else s'.tailBlkaddr) := by
  obtain ⟨len, hblocks⟩ := h.blocks
  refine ⟨s.dataBlock s.tailBlkaddr off len, rfl, rfl, ?_⟩
  have hsplit : splitAtBlock s.fresh s'.blocks =
      some (p, s.dataBlock s.tailBlkaddr off len, q) := by
    rw [hblocks]
    exact split_dataBlock hp _ _ _
  have htail : s'.isTail s.fresh (s.fresh + 1) = true := by
    rw [isTail, hsplit]
    simp [dataBlock]
  have hoff : (battachBlock (s.dataBlock s.tailBlkaddr off len) incr 1 none).off = off + incr := by
    have hup : roundUp (s.dataBlock s.tailBlkaddr off len).off 1 = off :=
      roundUp_one off
    rw [battachBlock_off_of_bytes one_pos s.sb.size_pos (by rw [hup]; exact hbytes), hup]
  cases hcheck : battachCheck s.sb s'.tailBlkaddr (nextAddr q)
      (s.dataBlock s.tailBlkaddr off len) incr 1 0 with
  | none =>
      have hnone : s'.attach s.fresh none incr 1 0 = none := by
        rw [BufMgr.attach, hsplit]
        dsimp only
        rw [h.sb, hcheck]
      rw [erofsBhBalloon, if_pos htail, hnone]
      exact Or.inl ⟨rfl, rfl⟩
  | some up =>
      have hsome : ∃ s₂ ret, s'.attach s.fresh none incr 1 0 = some (s₂, ret) ∧
          s₂.sb = s'.sb ∧ s₂.lastMapped = s'.lastMapped ∧
          s₂.blocks = p ++ battachBlock (s.dataBlock s.tailBlkaddr off len) incr 1 none :: q ∧
          s₂.tailBlkaddr = if up then u32 (s.tailBlkaddr + s.sb.blkRoundUp
            (battachBlock (s.dataBlock s.tailBlkaddr off len) incr 1 none).off)
            else s'.tailBlkaddr := by
        rw [BufMgr.attach, hsplit]
        dsimp only
        rw [h.sb, hcheck]
        exact ⟨_, _, rfl, rfl, rfl, rfl, rfl⟩
      obtain ⟨s₂, ret, hs₂, hsb, hlast, hblocks₂, htail₂⟩ := hsome
      rw [erofsBhBalloon, if_pos htail, hs₂]
      refine Or.inr ⟨up, rfl, ⟨hsb.trans h.sb, ⟨off + incr, ?_⟩, hlast.trans h.last⟩, ?_⟩
      · rw [hblocks₂]
        have hblock : battachBlock (s.dataBlock s.tailBlkaddr off len) incr 1 none =
            s.dataBlock s.tailBlkaddr (off + incr) (off + incr) := by
          rw [dataBlock, battachBlock] at *
          dsimp only at hoff ⊢
          rw [hoff]
          rfl
        rw [hblock]
      · rw [htail₂, hoff, s.sb.blkRoundUp_eq hbytes]

/-- How the tail stands to the buffer of `off` bytes after `n` bytes have been asked for: there
was no block number left for the buffer, the tail is its end, or the tail has wrapped. -/
inductive Phase (s : BufMgr) (next n off tail : ℕ) : Prop
  | noAddr (hnull : s.tailBlkaddr = nullAddr) (htail : tail = s.tailBlkaddr)
  | exact (hnull : s.tailBlkaddr ≠ nullAddr) (htail : tail = s.tailBlkaddr + s.sb.blocksOf off)
      (hlt : tail < 2 ^ 32) (hgrow : next = nullAddr → off = n) (hstuck : next ≠ nullAddr → off = 0)
  | overrun (hnull : s.tailBlkaddr ≠ nullAddr) (hnext : next = nullAddr) (hlt : tail < 2 ^ 32)
      (hover : 2 ^ 32 ≤ s.tailBlkaddr + s.sb.blocksOf off) (hne : tail ≠ s.tailBlkaddr)

section Step

variable {next n off incr tail : ℕ} {bb : BufferBlock}

/-- A refused balloon while the tail is the end of the buffer means that a mapped block follows. -/
theorem Phase.refused (h : Phase s next n off tail) (hoff : bb.off = off)
    (haddr : bb.blkaddr = s.tailBlkaddr) (hbytes : off + incr + s.sb.size < 2 ^ 64)
    (hcheck : battachCheck s.sb tail next bb incr 1 0 = none) :
    Phase s next (n + incr) off tail := by
  cases h with
  | noAddr hnull htail => exact .noAddr hnull htail
  | exact hnull htail hlt hgrow hstuck =>
      refine .exact hnull htail hlt ?_ hstuck
      intro hnext
      have hgrows : CanGrow s.sb tail next bb := by
        refine ⟨hnext, Or.inr ?_⟩
        rw [htail, haddr, hoff, s.sb.blkRoundUp_eq (by omega)]
      obtain ⟨up, hup⟩ : ∃ up, battachCheck s.sb tail next bb incr 1 0 = some up :=
        battachCheck_of_grow hgrows
      rw [hcheck] at hup
      cases hup
  | overrun hnull hnext hlt hover hne => exact .overrun hnull hnext hlt hover hne

/-- Bytes that stay in the last image block of the buffer. -/
theorem blocksOf_grown (hoff : bb.off = off) (hbytes : off + incr + s.sb.size < 2 ^ 64)
    (hroom : battachRoom s.sb bb incr 1 0 ≤ s.sb.size) :
    s.sb.blocksOf (off + incr) = s.sb.blocksOf off := by
  have hsame := blocksOf_battach one_pos (one_dvd s.sb.size)
    (by rw [roundUp_one, hoff]; exact hbytes) hroom
  rwa [roundUp_one, hoff] at hsame

theorem Phase.grown (h : Phase s next n off tail) (hstart : s.tailBlkaddr < 2 ^ 32)
    (hoff : bb.off = off) (haddr : bb.blkaddr = s.tailBlkaddr)
    (hbytes : off + incr + s.sb.size < 2 ^ 64) (hblocks : s.sb.blocksOf (off + incr) < 2 ^ 32)
    {up : Bool} (hcheck : battachCheck s.sb tail next bb incr 1 0 = some up) :
    Phase s next (n + incr) (off + incr)
      (if up then u32 (s.tailBlkaddr + s.sb.blocksOf (off + incr)) else tail) := by
  have hround : s.sb.blkRoundUp bb.off = s.sb.blocksOf off := by
    rw [hoff, s.sb.blkRoundUp_eq (by omega)]
  have hup : up = true → s.tailBlkaddr ≠ nullAddr ∧ tail = s.tailBlkaddr + s.sb.blocksOf off := by
    rintro rfl
    have htail := tail_of_battachCheck hcheck
    rwa [haddr, hround] at htail
  cases h with
  | noAddr hnull htail =>
      refine .noAddr hnull ?_
      cases up with
      | false => exact htail
      | true => exact absurd hnull (hup rfl).1
  | exact hnull htail hlt hgrow hstuck =>
      have hstay : next ≠ nullAddr → off + incr = 0 := by
        intro hne
        have hzero := hstuck hne
        have hroom : battachRoom s.sb bb incr 1 0 ≤ s.sb.size := by
          by_contra hgt
          obtain ⟨⟨hnext, -⟩, -⟩ := canGrow_of_battachCheck (Nat.lt_of_not_le hgt) hcheck
          exact hne hnext
        rw [battachRoom_empty one_pos (one_dvd s.sb.size)
          (by rw [roundUp_one, hoff]; exact hbytes) (hoff.trans hzero)] at hroom
        omega
      have hmore : next = nullAddr → off + incr = n + incr := fun hnext => by rw [hgrow hnext]
      cases up with
      | false =>
          -- only a test that leaves room lets a block at the tail keep the tail
          have hroom : battachRoom s.sb bb incr 1 0 ≤ s.sb.size := by
            by_contra hgt
            obtain ⟨-, hmoves⟩ := canGrow_of_battachCheck (Nat.lt_of_not_le hgt) hcheck
            exact Bool.false_ne_true (hmoves (by rw [haddr]; exact hnull))
          refine .exact hnull ?_ hlt hmore hstay
          rw [blocksOf_grown hoff hbytes hroom]
          exact htail
      | true =>
          rw [if_pos rfl]
          rcases Nat.lt_or_ge (s.tailBlkaddr + s.sb.blocksOf (off + incr)) (2 ^ 32) with hin | hout
          · rw [u32_of_lt hin]
            exact .exact hnull rfl hin hmore hstay
          · have hnext : next = nullAddr := by
              by_contra hne
              rw [hstay hne, BlockSize.blocksOf_zero] at hout
              omega
            refine .overrun hnull hnext (u32_lt _) hout ?_
            rw [u32]
            omega
  | overrun hnull hnext hlt hover hne =>
      have hroom : battachRoom s.sb bb incr 1 0 ≤ s.sb.size := by
        by_contra hgt
        obtain ⟨⟨-, hgrow⟩, -⟩ := canGrow_of_battachCheck (Nat.lt_of_not_le hgt) hcheck
        rw [haddr, hround] at hgrow
        have := hgrow.resolve_left hnull
        omega
      cases up with
      | false =>
          refine .overrun hnull hnext hlt ?_ hne
          rwa [blocksOf_grown hoff hbytes hroom]
      | true =>
          have := (hup rfl).2
          omega

end Step

theorem bytes_of_blocksOf {sb : BlockSize} {n : ℕ} (h : sb.blocksOf n < 2 ^ 32) :
    n + sb.size < 2 ^ 64 := by
  have hle := sb.le_blocksOf_mul n
  have hmax := sb.size_le
  have hmul := Nat.mul_le_mul h.le hmax
  omega

theorem Growing.ballooned {incrs : List ℕ} {n off : ℕ} (h : Growing s s' p q off)
    (hp : s.fresh ∉ p.map BufferBlock.id) (hstart : s.tailBlkaddr < 2 ^ 32) (hoff : off ≤ n)
    (hblocks : s.sb.blocksOf (n + incrs.sum) < 2 ^ 32)
    (hphase : Phase s (nextAddr q) n off s'.tailBlkaddr) :
    ∃ off', off' ≤ n + incrs.sum ∧ Growing s (s'.ballooned s.fresh (s.fresh + 1) incrs) p q off' ∧
      Phase s (nextAddr q) (n + incrs.sum) off'
        (s'.ballooned s.fresh (s.fresh + 1) incrs).tailBlkaddr := by
  induction incrs generalizing s' n off with
  | nil => exact ⟨off, hoff, h, hphase⟩
  | cons incr incrs ih =>
      rw [List.sum_cons, ← Nat.add_assoc] at hblocks ⊢
      have hmono : ∀ m, m ≤ n + incr + incrs.sum → s.sb.blocksOf m < 2 ^ 32 :=
        fun m hm => (s.sb.blocksOf_mono hm).trans_lt hblocks
      have hbytes := bytes_of_blocksOf (hmono (off + incr) (by omega))
      obtain ⟨bb, hbb, haddr, hcases⟩ := h.balloon hp hbytes
      change ∃ off', off' ≤ _ ∧ Growing s ((s'.erofsBhBalloon s.fresh (s.fresh + 1) incr).1.ballooned s.fresh
        (s.fresh + 1) incrs) p q off' ∧ _
      rcases hcases with ⟨hcheck, hsame⟩ | ⟨up, hcheck, hgrown, htail⟩
      · have hnext := hphase.refused hbb haddr hbytes hcheck
        rw [← hsame] at hnext
        exact ih (by rw [hsame]; exact h) (by omega) hblocks hnext
      · have hnext := hphase.grown hstart hbb haddr hbytes (hmono _ (by omega)) hcheck
        rw [← htail] at hnext
        exact ih hgrown (by omega) hblocks hnext

theorem Growing.bdrop {off : ℕ} (h : Growing s s' p q off) (hp : s.fresh ∉ p.map BufferBlock.id)
    (hbytes : off + s.sb.size < 2 ^ 64) :
    (s'.erofsBdrop s.fresh (s.fresh + 1) true).blocks = p ++ q ∧
      (s'.erofsBdrop s.fresh (s.fresh + 1) true).lastMapped =
        p.getLast?.map BufferBlock.id ∧
      (s'.erofsBdrop s.fresh (s.fresh + 1) true).tailBlkaddr =
        if s.tailBlkaddr ≠ nullAddr ∧ s'.tailBlkaddr = s.tailBlkaddr + s.sb.blocksOf off
          then s.tailBlkaddr else s'.tailBlkaddr := by
  obtain ⟨len, hblocks⟩ := h.blocks
  have hsplit : splitAtBlock s.fresh s'.blocks =
      some (p, s.dataBlock s.tailBlkaddr off len, q) := by
    rw [hblocks]
    exact split_dataBlock hp _ _ _
  have hempty : (s.dataBlock s.tailBlkaddr off len).buffers.filter
      (fun h => h.id ≠ s.fresh + 1) = [] := by
    simp [dataBlock]
  have hlast : s'.lastMapped = some (s.dataBlock s.tailBlkaddr off len).id := h.last
  rw [erofsBdrop, hsplit]
  dsimp only
  rw [hempty, if_neg (not_not.mpr rfl)]
  have hroll : (true = true ∧ (s.dataBlock s.tailBlkaddr off len).blkaddr ≠ nullAddr ∧
      s'.tailBlkaddr = (s.dataBlock s.tailBlkaddr off len).blkaddr +
        s'.sb.blkRoundUp (s.dataBlock s.tailBlkaddr off len).off) ↔
      s.tailBlkaddr ≠ nullAddr ∧ s'.tailBlkaddr = s.tailBlkaddr + s.sb.blocksOf off := by
    rw [h.sb, ← s.sb.blkRoundUp_eq hbytes]
    exact ⟨And.right, fun hc => ⟨rfl, hc⟩⟩
  by_cases hr : s.tailBlkaddr ≠ nullAddr ∧ s'.tailBlkaddr = s.tailBlkaddr + s.sb.blocksOf off
  · rw [if_pos (hroll.mpr hr), if_pos hr]
    refine ⟨rfl, ?_, rfl⟩
    rw [BufMgr.bfree]
    exact if_pos hlast
  · rw [if_neg (fun hc => hr (hroll.mp hc)), if_neg hr]
    refine ⟨rfl, ?_, rfl⟩
    rw [BufMgr.bfree]
    exact if_pos hlast

theorem Named.lastMapped_eq (h : s.Named) :
    s.lastMapped = s.splitLastMapped.1.getLast?.map BufferBlock.id := by
  rw [splitLastMapped]
  cases hl : s.lastMapped with
  | none => rfl
  | some id =>
      obtain ⟨⟨p, b, q⟩, hsplit⟩ := splitAtBlock_of_mem (h.last id hl)
      simp only [hsplit, List.getLast?_concat, Option.map_some]
      rw [(splitAtBlock_some hsplit).2]

/-- The end of the buffer's life, in terms of the tail alone. -/
theorem Named.revokes_iff_tail (h : s.Named) (hstart : s.tailBlkaddr < 2 ^ 32) (incrs : List ℕ)
    (hblocks : s.sb.blocksOf incrs.sum < 2 ^ 32) :
    ∃ off tail, off ≤ incrs.sum ∧ Phase s (nextAddr (s.behindNew .data)) incrs.sum off tail ∧
      (s.Revokes incrs ↔ (if s.tailBlkaddr ≠ nullAddr ∧
        tail = s.tailBlkaddr + s.sb.blocksOf off then s.tailBlkaddr else tail) =
          s.tailBlkaddr) := by
  obtain ⟨s₁, halloc, hsb, htail, hlast, hblk⟩ := h.balloc_empty
  have hp := h.fresh_notMem s.splitLastMapped_append
  obtain ⟨hgrow, htail₂⟩ := h.mapbh_empty hsb htail hlast hblk hstart
  have hphase : Phase s (nextAddr s.splitLastMapped.2) 0 0
      (s₁.erofsMapbh (some s.fresh)).tailBlkaddr := by
    rw [htail₂]
    by_cases hnull : s.tailBlkaddr = nullAddr
    · exact .noAddr hnull rfl
    · refine .exact hnull ?_ hstart (fun _ => rfl) (fun _ => rfl)
      rw [BlockSize.blocksOf_zero, Nat.add_zero]
  obtain ⟨off, hoff, hgrow', hphase'⟩ := hgrow.ballooned hp hstart (le_refl 0)
    (by rw [Nat.zero_add]; exact hblocks) hphase
  rw [Nat.zero_add] at hoff hphase'
  have hbytes := bytes_of_blocksOf ((s.sb.blocksOf_mono hoff).trans_lt hblocks)
  obtain ⟨hdblocks, hdlast, hdtail⟩ := hgrow'.bdrop hp hbytes
  refine ⟨off, ((s₁.erofsMapbh (some s.fresh)).ballooned s.fresh (s.fresh + 1) incrs).tailBlkaddr,
    hoff, ?_, ?_⟩
  · rw [behindNew_data h.last]
    exact hphase'
  · rw [← hdtail]
    constructor
    · rintro ⟨s₁', bid, hid, hrun, -, hrestored, -⟩
      rw [halloc, Prod.mk.injEq, Except.ok.injEq, Prod.mk.injEq] at hrun
      obtain ⟨rfl, rfl, rfl⟩ := hrun
      exact hrestored
    · intro hrestored
      refine ⟨s₁, s.fresh, s.fresh + 1, halloc, ?_, hrestored, ?_, ?_⟩
      · intro b hb
        obtain ⟨len, hgb⟩ := hgrow.blocks
        rw [s.splitLastMapped_append, List.mem_append] at hb
        rw [hgb, List.mem_append, List.mem_cons]
        exact hb.imp id Or.inr
      · rw [hdlast]
        exact h.lastMapped_eq.symm
      · rw [hdblocks]
        exact s.splitLastMapped_append.symm

/-- In every state of every run, whatever sizes a data buffer grows by: revoking it restores the
manager exactly when the buffer does not overrun the block numbers. -/
theorem revokes_iff (hs : Reach (fun _ _ => True) s) (hstart : s.tailBlkaddr < 2 ^ 32)
    (incrs : List ℕ) (hblocks : s.sb.blocksOf incrs.sum < 2 ^ 32) :
    s.Revokes incrs ↔ ¬ s.TailOverrun incrs.sum := by
  obtain ⟨off, tail, hoff, hphase, hiff⟩ := hs.named.revokes_iff_tail hstart incrs hblocks
  rw [hiff]
  cases hphase with
  | noAddr hnull htail =>
      rw [if_neg (fun hc => hc.1 hnull)]
      exact ⟨fun _ hover => hover.1 hnull, fun _ => htail⟩
  | exact hnull htail hlt hgrow hstuck =>
      rw [if_pos ⟨hnull, htail⟩]
      refine ⟨fun _ hover => ?_, fun _ => rfl⟩
      obtain ⟨-, hnext, hend⟩ := hover
      rw [← hgrow hnext] at hend
      omega
  | overrun hnull hnext hlt hover hne =>
      have hend := s.sb.blocksOf_mono hoff
      rw [if_neg (by omega)]
      refine ⟨fun hsame => absurd hsame hne, fun hnot => absurd ⟨hnull, hnext, ?_⟩ hnot⟩
      omega

/-- A file of ten thousand bytes behind one inode. -/
theorem revokes_tenThousand :
    ((fresh4k.step (.balloc .inode 32 0 0)).step (.mapbh none)).Revokes [8192, 1808] ↔
      ¬ ((fresh4k.step (.balloc .inode 32 0 0)).step (.mapbh none)).TailOverrun
        [8192, 1808].sum :=
  revokes_iff (.step _ (.step _ (.init _ 0 0) trivial) trivial) (by decide +kernel) [8192, 1808]
    (by decide +kernel)

end Revoke

def tailAfterRevoke (s : BufMgr) (incrs : List ℕ) : Option ℕ :=
  match s.erofsBalloc .data 0 0 0 with
  | (s₁, .ok (bid, hid)) =>
    some (((s₁.erofsMapbh (some bid)).ballooned bid hid incrs).erofsBdrop bid hid true).tailBlkaddr
  | (_, .error _) => none

/-- Two blocks where there is one number left. -/
theorem revokes_lastBlocks : ¬ ∀ s : BufMgr, Reach (fun _ _ => True) s → ∀ incrs : List ℕ,
    s.Revokes incrs := by
  intro h
  obtain ⟨s₁, bid, hid, halloc, -, htail, -⟩ :=
    h limit4k (.init _ _ 0) [8192]
  have hrun : limit4k.tailAfterRevoke [8192] = some 0 := by
    decide +kernel
  rw [tailAfterRevoke, halloc] at hrun
  dsimp only at hrun
  rw [htail, Option.some.injEq] at hrun
  exact absurd hrun (by decide)

end BufMgr
end ErofsUtils
