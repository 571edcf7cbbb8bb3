import Mathlib.Tactic.Ring
import Mathlib.Data.Nat.ModEq
import ErofsUtils.BufMgr

/-!
# Attaching bytes to a buffer block

The arithmetic of `__erofs_battach`: when its test lets an attachment through, the block keeps
its number of image blocks or is one that may grow. Byte offsets have 64 bits and block
addresses 32, and nobody checks that a sum fits, so the results come with the bound under
which nothing wraps.
-/

namespace ErofsUtils

namespace BlockSize

variable (sb : BlockSize)

theorem size_pos : 0 < sb.size := Nat.two_pow_pos _

theorem size_le : sb.size ≤ 2 ^ 31 := Nat.pow_le_pow_right (by omega) sb.high

def blocksOf (off : ℕ) : ℕ := (off + (sb.size - 1)) / sb.size

theorem blkRoundUp_eq {off : ℕ} (h : off + sb.size < 2 ^ 64) :
    sb.blkRoundUp off = sb.blocksOf off := by
  have hu : u64 (off + (sb.size - 1)) = off + (sb.size - 1) := Nat.mod_eq_of_lt (by omega)
  rw [blkRoundUp, hu, blocksOf]

@[simp] theorem blocksOf_zero : sb.blocksOf 0 = 0 := by
  have := sb.size_pos
  rw [blocksOf, Nat.div_eq_zero_iff_lt this]
  omega

theorem le_blocksOf_mul (off : ℕ) : off ≤ sb.blocksOf off * sb.size := by
  have hpos := sb.size_pos
  have h := Nat.lt_div_mul_add (a := off + (sb.size - 1)) hpos
  rw [blocksOf]
  omega

theorem blocksOf_mono {a b : ℕ} (h : a ≤ b) : sb.blocksOf a ≤ sb.blocksOf b :=
  Nat.div_le_div_right (by omega)

theorem blocksOf_pos {off : ℕ} : 0 < sb.blocksOf off ↔ 0 < off := by
  constructor
  · intro h
    rcases Nat.eq_zero_or_pos off with rfl | hoff
    · simp at h
    · exact hoff
  · intro h
    have := sb.le_blocksOf_mul off
    rcases Nat.eq_zero_or_pos (sb.blocksOf off) with h0 | h0
    · rw [h0] at this
      omega
    · exact h0

/-- A count of bytes in `(k * size, (k + 1) * size]` takes `k + 1` blocks. -/
theorem blocksOf_eq {off k : ℕ} (hlow : k * sb.size < off) (hhigh : off ≤ (k + 1) * sb.size) :
    sb.blocksOf off = k + 1 := by
  have hpos := sb.size_pos
  rw [Nat.add_mul, one_mul] at hhigh
  rw [blocksOf, Nat.div_eq_iff hpos, Nat.add_mul, one_mul]
  constructor <;> omega

theorem roundup_eq {x y : ℕ} (h : x + y < 2 ^ 64) : roundup x y = roundUp x y := by
  have hu : u64 (x + (y - 1)) = x + (y - 1) := Nat.mod_eq_of_lt (by omega)
  rw [roundup, hu, roundUp]

end BlockSize

theorem getAlignsize_dvd {sb : BlockSize} {type : BufType} {align : ℕ} {bt : BlockType}
    (h : getAlignsize sb type = some (align, bt)) : 0 < align ∧ align ∣ sb.size := by
  have hdvd : ∀ k, k ≤ 9 → 2 ^ k ∣ sb.size := fun k hk =>
    pow_dvd_pow 2 (hk.trans sb.low)
  cases type <;> simp only [getAlignsize, Option.some.injEq, Prod.mk.injEq, reduceCtorEq] at h
    <;> obtain ⟨rfl, -⟩ := h
  · exact ⟨sb.size_pos, dvd_rfl⟩
  · exact ⟨one_pos, one_dvd _⟩
  · exact ⟨by omega, hdvd 5 (by omega)⟩
  · exact ⟨sb.size_pos, dvd_rfl⟩
  · exact ⟨by omega, hdvd 2 (by omega)⟩
  · exact ⟨by omega, hdvd 7 (by omega)⟩

namespace BufferBlock

variable (sb : BlockSize)

def nblocks (b : BufferBlock) : ℕ := sb.blocksOf b.off

def stop (b : BufferBlock) : ℕ := b.blkaddr + b.nblocks sb

def IsMapped (b : BufferBlock) : Prop := b.blkaddr ≠ nullAddr

instance (b : BufferBlock) : Decidable b.IsMapped := inferInstanceAs (Decidable (_ ≠ _))

/-- The heads of a block are ordered and disjoint, and all end before `buffers.off`. -/
structure HeadsOk (b : BufferBlock) : Prop where
  ordered : b.buffers.Pairwise fun h k => h.off + h.len ≤ k.off
  inside : ∀ h ∈ b.buffers, h.off + h.len ≤ b.off

/-- Two mapped blocks that are not empty have no block address in common. -/
def Apart (b c : BufferBlock) : Prop :=
  b.IsMapped → c.IsMapped → 0 < b.nblocks sb → 0 < c.nblocks sb →
    b.stop sb ≤ c.blkaddr ∨ c.stop sb ≤ b.blkaddr

theorem Apart.symm {b c : BufferBlock} (h : Apart sb b c) : Apart sb c b :=
  fun hc hb hc0 hb0 => (h hb hc hb0 hc0).symm

/-- Attaching `incr` bytes to this block with an alignment and a reserve wraps neither a byte
offset nor, when the block is mapped, its end. -/
structure AttachFits (b : BufferBlock) (incr align extra : ℕ) : Prop where
  bytes : roundUp b.off align + incr + extra + sb.size < 2 ^ 64
  addr : b.IsMapped →
    b.blkaddr + sb.blocksOf (roundUp b.off align + incr) < nullAddr

end BufferBlock

section Attach

variable {sb : BlockSize} {tail next incr align extra : ℕ} {bb : BufferBlock}

/-- The room test in terms of the last block of the buffer block. -/
theorem battachRoom_eq (halign : 0 < align) (hdvd : align ∣ sb.size)
    (hbytes : roundUp bb.off align + incr + extra + sb.size < 2 ^ 64)
    (hoff : 0 < bb.off) :
    battachRoom sb bb incr align extra =
      roundUp ((bb.off - 1) % sb.size + 1) align + incr + extra := by
  have hpos := sb.size_pos
  have hmax := sb.size_le
  have hmod := Nat.mod_lt (bb.off - 1) hpos
  have hle : align ≤ sb.size := Nat.le_of_dvd hpos hdvd
  have hup : roundUp ((bb.off - 1) % sb.size + 1) align ≤ sb.size :=
    roundUp_le_of_dvd halign hdvd (by omega)
  have hge : bb.off ≤ roundUp bb.off align := le_roundUp halign
  have hu : BlockSize.pred64 bb.off = bb.off - 1 := if_neg (by omega)
  have hround : BlockSize.roundup ((bb.off - 1) % sb.size + 1) align =
      roundUp ((bb.off - 1) % sb.size + 1) align :=
    BlockSize.roundup_eq (by omega)
  rw [battachRoom, hu, hround]
  rw [u64, u64, Nat.mod_eq_of_lt (by omega), Nat.mod_eq_of_lt (by omega)]

/-- An empty block counts as full in the room test. -/
theorem battachRoom_empty (halign : 0 < align) (hdvd : align ∣ sb.size)
    (hbytes : roundUp bb.off align + incr + extra + sb.size < 2 ^ 64)
    (hoff : bb.off = 0) :
    battachRoom sb bb incr align extra = sb.size + incr + extra := by
  have hpos := sb.size_pos
  have hmax := sb.size_le
  have hle : align ≤ sb.size := Nat.le_of_dvd hpos hdvd
  rw [hoff, roundUp_zero halign] at hbytes
  have hsize : sb.size ∣ 2 ^ 64 := pow_dvd_pow 2 (sb.high.trans (by omega))
  have hmask : (2 ^ 64 - 1) % sb.size = sb.size - 1 := by
    obtain ⟨c, hc⟩ := hsize
    have hc0 : 0 < c := by
      rcases Nat.eq_zero_or_pos c with rfl | h
      · simp at hc
      · exact h
    obtain ⟨d, rfl⟩ : ∃ d, c = d + 1 := ⟨c - 1, by omega⟩
    have heq : 2 ^ 64 - 1 = sb.size * d + (sb.size - 1) := by
      rw [hc, Nat.mul_add, Nat.mul_one]
      omega
    rw [heq, Nat.mul_add_mod, Nat.mod_eq_of_lt (by omega)]
  have hfull : roundUp sb.size align = sb.size :=
    le_antisymm (roundUp_le_of_dvd halign hdvd le_rfl) (le_roundUp halign)
  have hu : BlockSize.pred64 0 = 2 ^ 64 - 1 := if_pos rfl
  have hsucc : sb.size - 1 + 1 = sb.size := by omega
  rw [battachRoom, hoff, hu, hmask, hsucc, BlockSize.roundup_eq (by omega), hfull]
  rw [u64, u64, Nat.mod_eq_of_lt (by omega), Nat.mod_eq_of_lt (by omega)]

/-- An attachment that stays inside the last block does not change the number of blocks. -/
theorem blocksOf_battach (halign : 0 < align) (hdvd : align ∣ sb.size)
    (hbytes : roundUp bb.off align + incr + extra + sb.size < 2 ^ 64)
    (hroom : battachRoom sb bb incr align extra ≤ sb.size) :
    sb.blocksOf (roundUp bb.off align + incr) = sb.blocksOf bb.off := by
  have hpos := sb.size_pos
  rcases Nat.eq_zero_or_pos bb.off with hoff | hoff
  · rw [battachRoom_empty halign hdvd hbytes hoff] at hroom
    have hincr : incr = 0 := by omega
    rw [hoff, hincr, roundUp_zero halign]
  · rw [battachRoom_eq halign hdvd hbytes hoff] at hroom
    have hdiv : sb.size * ((bb.off - 1) / sb.size) + ((bb.off - 1) % sb.size + 1) = bb.off := by
      have := Nat.div_add_mod (bb.off - 1) sb.size
      omega
    have hmod := Nat.mod_lt (bb.off - 1) hpos
    have hadd : roundUp bb.off align =
        sb.size * ((bb.off - 1) / sb.size) +
          roundUp ((bb.off - 1) % sb.size + 1) align := by
      conv_lhs => rw [← hdiv]
      exact roundUp_add halign (Dvd.dvd.mul_right hdvd _)
    have hge : (bb.off - 1) % sb.size + 1 ≤
        roundUp ((bb.off - 1) % sb.size + 1) align := le_roundUp halign
    rw [Nat.mul_comm] at hdiv hadd
    have hsucc : ((bb.off - 1) / sb.size + 1) * sb.size =
        (bb.off - 1) / sb.size * sb.size + sb.size := by
      rw [Nat.add_mul, one_mul]
    have hold : sb.blocksOf bb.off = (bb.off - 1) / sb.size + 1 :=
      sb.blocksOf_eq (by omega) (by omega)
    have hnew : sb.blocksOf (roundUp bb.off align + incr) =
        (bb.off - 1) / sb.size + 1 :=
      sb.blocksOf_eq (by omega) (by omega)
    rw [hold, hnew]

@[simp] theorem battachBlock_id {bh : Option ℕ} : (battachBlock bb incr align bh).id = bb.id := rfl

@[simp] theorem battachBlock_blkaddr {bh : Option ℕ} :
    (battachBlock bb incr align bh).blkaddr = bb.blkaddr := rfl

theorem isMapped_battachBlock {bh : Option ℕ} :
    (battachBlock bb incr align bh).IsMapped ↔ bb.IsMapped := Iff.rfl

/-- The block after an attachment holds what the unbounded arithmetic says. -/
theorem battachBlock_off_of_bytes (halign : 0 < align) (hle : align ≤ sb.size)
    (hbytes : roundUp bb.off align + incr + sb.size < 2 ^ 64) (bh : Option ℕ) :
    (battachBlock bb incr align bh).off = roundUp bb.off align + incr := by
  have hge : bb.off ≤ roundUp bb.off align := le_roundUp halign
  have hlt : roundUp bb.off align + incr < 2 ^ 64 := by omega
  simp only [battachBlock]
  rw [BlockSize.roundup_eq (by omega), u64, Nat.mod_eq_of_lt hlt]

theorem battachBlock_off (halign : 0 < align) (hle : align ≤ sb.size)
    (hfit : bb.AttachFits sb incr align extra) (bh : Option ℕ) :
    (battachBlock bb incr align bh).off = roundUp bb.off align + incr := by
  have hbytes := hfit.bytes
  exact battachBlock_off_of_bytes halign hle (by omega) bh

/-- What an accepted attachment means: the number of blocks stays, or the block is the last one
that can grow and is either not mapped or ends at the tail. -/
theorem battachCheck_cases {up : Bool} (halign : 0 < align) (hdvd : align ∣ sb.size)
    (hfit : bb.AttachFits sb incr align extra)
    (h : battachCheck sb tail next bb incr align extra = some up) :
    (sb.blocksOf (roundUp bb.off align + incr) = bb.nblocks sb ∧
      (up = true → bb.IsMapped ∧ tail = bb.stop sb)) ∨
    (next = nullAddr ∧ ¬ bb.IsMapped ∧ up = false) ∨
    (next = nullAddr ∧ bb.IsMapped ∧ tail = bb.stop sb ∧ up = true) := by
  have hbytes := hfit.bytes
  have hge : bb.off ≤ roundUp bb.off align := le_roundUp halign
  have hround : sb.blkRoundUp bb.off = bb.nblocks sb := sb.blkRoundUp_eq (by omega)
  rw [battachCheck, hround] at h
  by_cases hlt : battachRoom sb bb incr align extra < sb.size
  · rw [if_pos hlt, Option.some.injEq] at h
    subst h
    exact .inl ⟨blocksOf_battach halign hdvd hfit.bytes hlt.le, by simp⟩
  rw [if_neg hlt] at h
  by_cases hgt : sb.size < battachRoom sb bb incr align extra
  · -- the attachment needs further blocks
    by_cases hnext : next = nullAddr
    · rw [if_neg (fun hc => hc.2 hnext)] at h
      by_cases hnull : bb.blkaddr = nullAddr
      · rw [if_pos hnull, Option.some.injEq] at h
        exact .inr (.inl ⟨hnext, fun hm => hm hnull, h.symm⟩)
      · rw [if_neg hnull] at h
        by_cases htail : tail = bb.blkaddr + bb.nblocks sb
        · rw [if_pos htail, Option.some.injEq] at h
          exact .inr (.inr ⟨hnext, hnull, htail, h.symm⟩)
        · rw [if_neg htail, if_pos hgt] at h
          cases h
    · rw [if_pos ⟨hgt, hnext⟩] at h
      cases h
  · -- exactly full
    rw [if_neg (fun hc => hgt hc.1)] at h
    refine .inl ⟨blocksOf_battach halign hdvd hfit.bytes (Nat.le_of_not_lt hgt), fun hup => ?_⟩
    by_cases hnull : bb.blkaddr = nullAddr
    · rw [if_pos hnull, Option.some.injEq] at h
      rw [← h] at hup
      cases hup
    · rw [if_neg hnull] at h
      by_cases htail : tail = bb.blkaddr + bb.nblocks sb
      · exact ⟨hnull, htail⟩
      · rw [if_neg htail, if_neg hgt, Option.some.injEq] at h
        rw [← h] at hup
        cases hup

theorem battachCheck_of_room (h : battachRoom sb bb incr align extra ≤ sb.size) :
    ∃ up, battachCheck sb tail next bb incr align extra = some up := by
  have hnot : ¬ sb.size < battachRoom sb bb incr align extra := Nat.not_lt.mpr h
  rw [battachCheck, if_neg hnot]
  split
  · exact ⟨_, rfl⟩
  rw [if_neg (fun hc => hnot hc.1)]
  split
  · exact ⟨_, rfl⟩
  split <;> exact ⟨_, rfl⟩

/-- A block that can grow: it stands in front of no mapped one, and is not mapped itself or ends
at the tail. -/
def CanGrow (sb : BlockSize) (tail next : ℕ) (bb : BufferBlock) : Prop :=
  next = nullAddr ∧ (bb.blkaddr = nullAddr ∨ tail = bb.blkaddr + sb.blkRoundUp bb.off)

theorem battachCheck_of_grow (h : CanGrow sb tail next bb) :
    ∃ up, battachCheck sb tail next bb incr align extra = some up := by
  obtain ⟨hnext, haddr⟩ := h
  rw [battachCheck]
  split
  · exact ⟨_, rfl⟩
  rw [if_neg (fun hc => hc.2 hnext)]
  split
  · exact ⟨_, rfl⟩
  next hnull =>
  rw [if_pos (haddr.resolve_left hnull)]
  exact ⟨_, rfl⟩

/-- Only such a block is given more than its last image block has room for. -/
theorem canGrow_of_battachCheck {up : Bool} (hroom : sb.size < battachRoom sb bb incr align extra)
    (h : battachCheck sb tail next bb incr align extra = some up) :
    CanGrow sb tail next bb ∧ (bb.blkaddr ≠ nullAddr → up = true) := by
  rw [battachCheck, if_neg (Nat.lt_asymm hroom)] at h
  by_cases hnext : next = nullAddr
  · rw [if_neg (fun hc => hc.2 hnext)] at h
    by_cases hnull : bb.blkaddr = nullAddr
    · exact ⟨⟨hnext, Or.inl hnull⟩, fun hne => absurd hnull hne⟩
    · rw [if_neg hnull] at h
      by_cases htail : tail = bb.blkaddr + sb.blkRoundUp bb.off
      · rw [if_pos htail, Option.some.injEq] at h
        exact ⟨⟨hnext, Or.inr htail⟩, fun _ => h.symm⟩
      · rw [if_neg htail, if_pos hroom] at h
        cases h
  · rw [if_pos ⟨hroom, hnext⟩] at h
    cases h

/-- The tail moves with a mapped block that ends there. -/
theorem tail_of_battachCheck (h : battachCheck sb tail next bb incr align extra = some true) :
    bb.blkaddr ≠ nullAddr ∧ tail = bb.blkaddr + sb.blkRoundUp bb.off := by
  rw [battachCheck] at h
  split at h
  · cases h
  split at h
  · cases h
  split at h
  · cases h
  next hnull =>
  split at h
  · next htail => exact ⟨hnull, htail⟩
  · split at h <;> cases h

theorem map_off_stretchLast (off : ℕ) (hs : List BufferHead) :
    (stretchLast off hs).map BufferHead.off = hs.map BufferHead.off := by
  induction hs with
  | nil => rfl
  | cons h hs ih =>
    cases hs with
    | nil => rfl
    | cons k ks => simpa [stretchLast] using ih

/-- Stretching the last head to the end of the block keeps the heads in order. -/
theorem stretchLast_ok {off : ℕ} {hs : List BufferHead}
    (hord : hs.Pairwise fun h k => h.off + h.len ≤ k.off)
    (hin : ∀ h ∈ hs, h.off + h.len ≤ off) :
    (stretchLast off hs).Pairwise (fun h k => h.off + h.len ≤ k.off) ∧
      ∀ h ∈ stretchLast off hs, h.off + h.len ≤ off := by
  induction hs with
  | nil => exact ⟨.nil, by simp [stretchLast]⟩
  | cons h hs ih =>
    cases hs with
    | nil =>
      have := hin h (List.mem_singleton_self h)
      refine ⟨List.pairwise_singleton _ _, ?_⟩
      simp only [stretchLast, List.mem_singleton, forall_eq]
      omega
    | cons k ks =>
      obtain ⟨hord', hin'⟩ := ih hord.of_cons fun x hx => hin x (List.mem_cons_of_mem h hx)
      have hhead : ∀ x ∈ stretchLast off (k :: ks), h.off + h.len ≤ x.off := by
        intro x hx
        have hx' : x.off ∈ (k :: ks).map BufferHead.off := by
          rw [← map_off_stretchLast off]
          exact List.mem_map_of_mem hx
        obtain ⟨y, hy, hyx⟩ := List.mem_map.mp hx'
        rw [← hyx]
        exact List.rel_of_pairwise_cons hord hy
      refine ⟨List.pairwise_cons.mpr ⟨hhead, hord'⟩, ?_⟩
      intro x hx
      rcases List.mem_cons.mp hx with rfl | hx
      · exact hin x List.mem_cons_self
      · exact hin' x hx

theorem BufferBlock.HeadsOk.attach (halign : 0 < align) (hle : align ≤ sb.size)
    (hfit : bb.AttachFits sb incr align extra) (h : bb.HeadsOk) (bh : Option ℕ) :
    (battachBlock bb incr align bh).HeadsOk := by
  have hoff := battachBlock_off halign hle hfit bh
  have hbytes := hfit.bytes
  have hge : bb.off ≤ roundUp bb.off align := le_roundUp halign
  have hround : BlockSize.roundup bb.off align = roundUp bb.off align :=
    BlockSize.roundup_eq (by omega)
  cases bh with
  | none =>
    have hin : ∀ x ∈ bb.buffers, x.off + x.len ≤ (battachBlock bb incr align none).off := by
      intro x hx
      have := h.inside x hx
      omega
    obtain ⟨hord, hin⟩ := stretchLast_ok h.ordered hin
    exact ⟨hord, hin⟩
  | some id =>
    have hmem : ∀ x ∈ bb.buffers, x.off + x.len ≤ BlockSize.roundup bb.off align := by
      intro x hx
      have := h.inside x hx
      omega
    constructor
    · refine List.pairwise_append.mpr ⟨h.ordered, List.pairwise_singleton _ _, ?_⟩
      intro x hx y hy
      rw [List.mem_singleton.mp hy]
      exact hmem x hx
    · intro x hx
      rw [hoff]
      rcases List.mem_append.mp hx with hx | hx
      · have := hmem x hx
        omega
      · rw [List.mem_singleton.mp hx]
        exact (congrArg (· + incr) hround).le

end Attach

end ErofsUtils
