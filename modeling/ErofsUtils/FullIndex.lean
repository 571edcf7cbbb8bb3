import ErofsUtils.IndexSlots
import ErofsUtils.ZmapBlocks
import Mathlib.Data.Nat.Bitwise

/-!
# Loading the indexes of the FULL layout

The device holds the indexes of a file as consecutive 8-byte records. Loading an lcluster
then decodes the slot that was written for it: a head with its block address, the block
count in the first NONHEAD slot of a big pcluster, or the distance to the head.
-/

namespace ErofsUtils
open ByteMemory

/-- Byte `pos` of a device whose blocks can be read. -/
def image (sbi : SbInfo) (blk : BlkRead) : Mem := fun pos =>
  match blk (sbi.blknr pos) with
  | some kaddr => kaddr (sbi.blkoff pos)
  | none => 0

structure DeviceHolds (sbi : SbInfo) (blk : BlkRead) (pos : ℕ) (bs : List UInt8) : Prop where
  readable : ∀ i < bs.length, (blk (sbi.blknr (pos + i))).isSome
  holds : Holds (image sbi blk) pos bs

theorem blknr_blkoff_add {sbi : SbInfo} {k pos i : ℕ} (hk : k ∣ sbi.blksz) (hp : k ∣ pos)
    (hi : i < k) :
    sbi.blknr (pos + i) = sbi.blknr pos ∧ sbi.blkoff (pos + i) = sbi.blkoff pos + i := by
  obtain ⟨c, hc⟩ := hk
  obtain ⟨q, rfl⟩ := hp
  have hdiv : (k * q + i) / k = q := by
    rw [Nat.mul_add_div (by omega), Nat.div_eq_of_lt hi, Nat.add_zero]
  have hnr : sbi.blknr (k * q + i) = sbi.blknr (k * q) := by
    unfold SbInfo.blknr
    rw [hc, ← Nat.div_div_eq_div_mul, hdiv, ← Nat.div_div_eq_div_mul,
      Nat.mul_div_cancel_left _ (by omega)]
  refine ⟨hnr, ?_⟩
  have h₁ := sbi.blknr_add_blkoff (k * q + i)
  have h₂ := sbi.blknr_add_blkoff (k * q)
  rw [hnr] at h₁
  omega

theorem DeviceHolds.block {sbi : SbInfo} {blk : BlkRead} {k pos : ℕ} {bs : List UInt8}
    (hd : DeviceHolds sbi blk pos bs) (hk : k ∣ sbi.blksz) (hp : k ∣ pos)
    (hlen : bs.length ≤ k) (hne : 0 < bs.length) :
    ∃ kaddr, blk (sbi.blknr pos) = some kaddr ∧ Holds kaddr (sbi.blkoff pos) bs := by
  obtain ⟨kaddr, hkaddr⟩ := Option.isSome_iff_exists.mp (hd.readable 0 hne)
  rw [Nat.add_zero] at hkaddr
  refine ⟨kaddr, hkaddr, ?_⟩
  intro i b hi
  have hlt : i < bs.length := (List.getElem?_eq_some_iff.mp hi).1
  obtain ⟨hnr, hoff⟩ := blknr_blkoff_add hk hp (show i < k by omega)
  have hb := hd.holds i b hi
  rwa [image, hnr, hkaddr, hoff] at hb

theorem DeviceHolds.record {sbi : SbInfo} {blk : BlkRead} {α : Type*} {enc : α → List UInt8}
    {k pos : ℕ} (henc : ∀ a, (enc a).length = k) {rs : List α}
    (hd : DeviceHolds sbi blk pos (rs.flatMap enc)) {i : ℕ} {r : α} (hi : rs[i]? = some r) :
    DeviceHolds sbi blk (pos + k * i) (enc r) := by
  have hlt : i < rs.length := (List.getElem?_eq_some_iff.mp hi).1
  refine ⟨?_, holds_record henc hd.holds hi⟩
  intro j hj
  rw [Nat.add_assoc]
  apply hd.readable
  have hmul : k * i + k ≤ k * rs.length := by
    rw [← Nat.mul_succ]
    exact Nat.mul_le_mul_left k hlt
  rw [length_flatMap_records henc]
  rw [henc] at hj
  omega

/-- An inode of the FULL layout whose indexes describe `es`. The writer keeps the size of the
indexes as an `unsigned int`. -/
structure FullInode (vi : Inode) (blk : BlkRead) (es : List InmemExtent) : Prop where
  layout : vi.datalayout = .compressedFull
  blksz_ge : 9 ≤ vi.sbi.blkszbits
  blksz_le : vi.sbi.blkszbits ≤ 16
  lclusterbits : vi.zLogicalClusterbits = vi.sbi.blkszbits
  big : vi.zAdvise.bigPcluster1 = vi.sbi.bigPcluster
  size : vi.iSize = totalLength es
  size_lt : vi.iSize < 2 ^ 63
  metasize_lt : 8 * vi.sbi.blkRoundUp vi.iSize < 2 ^ 32
  spans : Spans vi.sbi.blksz 0 es
  indexes : DeviceHolds vi.sbi blk
    (Inode.fullIndexAlign (vi.iloc + vi.inodeIsize + vi.xattrIsize))
    ((zErofsWriteIndexes vi es).flatMap LclusterIndex.encode)

theorem and_d0Cblkcnt_ne_zero (n : ℕ) : n &&& d0Cblkcnt ≠ 0 ↔ n.testBit 11 = true := by
  rw [show d0Cblkcnt = 2 ^ 11 from rfl, Nat.and_two_pow]
  cases n.testBit 11 <;> simp

theorem and_d0Cblkcnt_of_lt {n : ℕ} (h : n < d0Cblkcnt) : n &&& d0Cblkcnt = 0 := by
  by_contra hne
  have := (and_d0Cblkcnt_ne_zero n).mp hne
  rw [Nat.testBit_lt_two_pow h] at this
  cases this

/-- The block count a reader of the FULL layout finds for `cblks` blocks. -/
def storedCblkcnt (cblks : ℕ) : ℕ := u16 (cblks ||| d0Cblkcnt) - d0Cblkcnt

theorem u16_or_d0Cblkcnt (n : ℕ) : u16 (n ||| d0Cblkcnt) &&& d0Cblkcnt ≠ 0 := by
  rw [and_d0Cblkcnt_ne_zero, u16, Nat.testBit_mod_two_pow, Nat.testBit_or,
    show d0Cblkcnt.testBit 11 = true from rfl]
  simp

theorem or_d0Cblkcnt_of_lt {n : ℕ} (h : n < d0Cblkcnt) : n ||| d0Cblkcnt = n + d0Cblkcnt := by
  have := Nat.two_pow_add_eq_or_of_lt (i := 11) (b := n) h 1
  rw [Nat.or_comm, show d0Cblkcnt = 2 ^ 11 * 1 from rfl, ← this, Nat.add_comm]

theorem storedCblkcnt_of_lt {n : ℕ} (h : n < d0Cblkcnt) : storedCblkcnt n = n := by
  rw [storedCblkcnt, or_d0Cblkcnt_of_lt h, u16_of_lt (by unfold d0Cblkcnt at *; omega),
    Nat.add_sub_cancel]

theorem storedCblkcnt_d0Cblkcnt : storedCblkcnt d0Cblkcnt = 0 := by decide

namespace LclusterIndex

@[simp] theorem delta0_deltas (a c d0 d1 : ℕ) :
    delta0 ⟨a, c, deltas d0 d1⟩ = u16 d0 := by
  simp only [delta0, deltas, u16]
  omega

@[simp] theorem delta1_deltas (a c d0 d1 : ℕ) :
    delta1 ⟨a, c, deltas d0 d1⟩ = u16 d1 := by
  simp only [delta1, deltas, u16]
  omega

theorem deltas_lt (d0 d1 : ℕ) : deltas d0 d1 < 2 ^ 32 := by
  simp only [deltas, u16]
  omega

end LclusterIndex

def InmemExtent.headtype (e : InmemExtent) : LclusterType :=
  if e.raw then .plain else .head1

theorem InmemExtent.headtype_cases (e : InmemExtent) :
    e.headtype = .plain ∨ e.headtype = .head1 := by
  unfold headtype
  split_ifs <;> simp

theorem extentIndex_fits (vi : Inode) (e : InmemExtent) (clusterofs d0 d1 : ℕ) :
    (extentIndex vi e clusterofs d0 d1).Fits := by
  unfold extentIndex
  split_ifs
  all_goals refine ⟨?_, u16_lt _, ?_⟩
  all_goals first
    | exact LclusterIndex.deltas_lt _ _
    | exact u32_lt _
    | simp [LclusterType.toNat, liPartialRef]

theorem slotIndex_fits (vi : Inode) (s : Slot) : (s.index vi).Fits := by
  cases s with
  | extent e clusterofs d0 d1 => exact extentIndex_fits vi e clusterofs d0 d1
  | pad clusterofs =>
      exact ⟨by simp [Slot.index, LclusterType.toNat], u16_lt _,
        by simp [Slot.index]⟩

/-- The block address field of a head slot. -/
def InmemExtent.headBlkaddr (vi : Inode) (e : InmemExtent) : ℕ :=
  if vi.datalayout = .compressedFull ∧ e.compressedblks = 0
    then u32 (vi.fragmentoff / 2 ^ 32) else u32 e.blkaddr

theorem legacyDecodeIndex_head (vi : Inode) (m : Maprecorder) (e : InmemExtent)
    (clusterofs d1 : ℕ) :
    legacyDecodeIndex vi m (extentIndex vi e clusterofs 0 d1) = .ok { m with
      type := e.headtype
      partialref := m.partialref || e.partialRef
      clusterofs := u16 clusterofs
      pblk := e.headBlkaddr vi } := by
  obtain ⟨blkaddr, cblks, len, raw, part, inl⟩ := e
  have hidx : extentIndex vi ⟨blkaddr, cblks, len, raw, part, inl⟩ clusterofs 0 d1 =
      ⟨(if raw then LclusterType.plain else LclusterType.head1).toNat +
        (if part then liPartialRef else 0), u16 clusterofs,
        InmemExtent.headBlkaddr vi ⟨blkaddr, cblks, len, raw, part, inl⟩⟩ := by
    simp [extentIndex, InmemExtent.headBlkaddr]
  have h₁ : Nat.testBit 1 15 = false := by decide
  have h₂ : Nat.testBit 32769 15 = true := by decide
  have h₃ : Nat.testBit 32768 15 = true := by decide
  rw [hidx]
  cases raw <;> cases part <;>
    simp [legacyDecodeIndex, LclusterIndex.type, LclusterType.toNat, LclusterType.ofBits,
      InmemExtent.headtype, liPartialRef, h₁, h₂, h₃]

theorem legacyDecodeIndex_pad (vi : Inode) (m : Maprecorder) (clusterofs : ℕ) :
    legacyDecodeIndex vi m ((Slot.pad clusterofs).index vi) = .ok { m with
      type := .plain
      partialref := m.partialref
      clusterofs := u16 clusterofs
      pblk := 0 } := by
  cases h : m.partialref <;>
    simp [legacyDecodeIndex, Slot.index, LclusterIndex.type, LclusterType.toNat,
      LclusterType.ofBits, h]

theorem legacyDecodeIndex_cblkcnt (vi : Inode) (m : Maprecorder) (e : InmemExtent)
    (clusterofs d1 : ℕ) (hb : vi.sbi.bigPcluster = true)
    (ha : vi.zAdvise.bigPcluster1 = vi.sbi.bigPcluster) :
    legacyDecodeIndex vi m (extentIndex vi e clusterofs 1 d1) = .ok { m with
      clusterofs := u16 (2 ^ vi.zLogicalClusterbits)
      type := .nonhead
      compressedblks := storedCblkcnt e.compressedblks
      delta0 := 1
      delta1 := u16 d1 } := by
  have ht : LclusterIndex.type (extentIndex vi e clusterofs 1 d1) = .nonhead := by
    simp [extentIndex, hb, LclusterIndex.type]
  have hne := u16_or_d0Cblkcnt e.compressedblks
  unfold legacyDecodeIndex
  rw [ht]
  simp [extentIndex, hb, hne, ha, storedCblkcnt]

theorem legacyDecodeIndex_nonhead (vi : Inode) (m : Maprecorder) (e : InmemExtent)
    (clusterofs d0 d1 : ℕ) (h0 : d0 ≠ 0) (h1 : ¬ (d0 = 1 ∧ vi.sbi.bigPcluster)) :
    legacyDecodeIndex vi m (extentIndex vi e clusterofs d0 d1) = .ok { m with
      clusterofs := u16 (2 ^ vi.zLogicalClusterbits)
      type := .nonhead
      delta0 := min d0 (d0Cblkcnt - 1)
      delta1 := u16 d1 } := by
  have hmin : (if d0Cblkcnt ≤ d0 then d0Cblkcnt - 1 else d0) = min d0 (d0Cblkcnt - 1) := by
    unfold d0Cblkcnt
    split_ifs <;> omega
  have hlt : min d0 (d0Cblkcnt - 1) < d0Cblkcnt := by
    unfold d0Cblkcnt
    omega
  have ht : LclusterIndex.type (extentIndex vi e clusterofs d0 d1) = .nonhead := by
    simp [extentIndex, h0, h1, LclusterIndex.type]
  have hu : u16 (min d0 (d0Cblkcnt - 1)) = min d0 (d0Cblkcnt - 1) :=
    u16_of_lt (by unfold d0Cblkcnt at *; omega)
  unfold legacyDecodeIndex
  rw [ht]
  simp [extentIndex, h0, h1, hmin, hu, and_d0Cblkcnt_of_lt hlt]

end ErofsUtils
