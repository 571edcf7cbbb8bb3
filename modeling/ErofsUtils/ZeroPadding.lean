import ErofsUtils.KiteStart
import ErofsUtils.SuperLayout

/-!
# Zero padding

A pcluster whose stream does not fill its blocks starts with zero bytes, and the decompressors skip
them. The padding comes from the buffer in front of the stream in `__z_erofs_compress_one`, and
from `erofs_dev_fillzero` in `erofs_write_tail_end`.
-/

namespace ErofsUtils

open ByteMemory CString KiteMatchfinder

def zErofsFixupInsize : List UInt8 → ℕ
  | [] => 0
  | b :: padbuf => if b = 0 then zErofsFixupInsize padbuf + 1 else 0

/-- The zero bytes in front of a stream are counted exactly. -/
theorem zErofsFixupInsize_replicate (n : ℕ) {b : UInt8} (rest : List UInt8) (hb : b ≠ 0) :
    zErofsFixupInsize (List.replicate n 0 ++ b :: rest) = n := by
  induction n with
  | zero => exact if_neg hb
  | succ n ih =>
      rw [List.replicate_succ, List.cons_append, zErofsFixupInsize, if_pos rfl, ih]

/-- `Z_EROFS_COMPRESSION_DEFLATE`. -/
def compressionDeflate : ℕ := 2

/-- The feature `lz4_0padding` behind `z_erofs_compress_init`, for an image that had it before. -/
def zErofsZeroPadding (availableComprAlgs : ℕ) (legacyCompress : Bool) : Bool :=
  !(availableComprAlgs == 0 || (legacyCompress && availableComprAlgs == 1))

theorem zErofsZeroPadding_deflate {availableComprAlgs : ℕ}
    (h : availableComprAlgs &&& 2 ^ compressionDeflate ≠ 0) (legacyCompress : Bool) :
    zErofsZeroPadding availableComprAlgs legacyCompress = true := by
  have hzero : availableComprAlgs ≠ 0 := by
    rintro rfl
    exact h rfl
  have hone : availableComprAlgs ≠ 1 := by
    rintro rfl
    exact h rfl
  unfold zErofsZeroPadding
  simp [hzero, hone]

theorem holds_zeros {mem : Mem} {pos n : ℕ} (h : ∀ i < n, mem (pos + i) = 0) :
    Holds mem pos (List.replicate n 0) := by
  intro i b hb
  obtain ⟨hi, rfl⟩ := List.getElem?_eq_some_iff.mp hb
  rw [List.length_replicate] at hi
  rw [List.getElem_replicate]
  exact h i hi

section Writers

variable (sbi : SbInfo) (lz4ZeroPadding : Bool)

/-- The blocks of compressed data that `__z_erofs_compress_one` writes. `dstbuf` has a block in
front of the place `dst` of the stream. -/
def compressedBlocks (dstbuf : Mem) (compressedsize : ℕ) : List UInt8 :=
  let dst := sbi.blksz
  let compressedblks := sbi.blkRoundUp compressedsize
  let tailused := compressedsize &&& (sbi.blksz - 1)
  let padding := if tailused ≠ 0 then sbi.blksz - tailused else 0
  let (dstbuf, padding) := if lz4ZeroPadding then (dstbuf, padding)
    -- zero out garbage trailing data
    else (store dstbuf (dst + compressedsize) (List.replicate padding 0), 0)
  slice dstbuf (dst - padding) (compressedblks * sbi.blksz)

def erofsWriteTailEnd (compressedIdata : Bool) (dev : Mem) (pos : ℕ) (idata : List UInt8) : Mem :=
  let (zeroPos, pos) := if lz4ZeroPadding && compressedIdata
    then (pos, pos + (sbi.blksz - idata.length)) else (pos + idata.length, pos)
  let dev := store dev pos idata
  if idata.length < sbi.blksz then
    store dev zeroPos (List.replicate (sbi.blksz - idata.length) 0)
  else dev

variable {sbi}

/-- Zero bytes and a stream that fill the blocks exactly. -/
theorem compressedBlocks_padded {dstbuf : Mem} {stream : List UInt8}
    (hzero : ∀ i < sbi.blksz, dstbuf i = 0) (hstream : Holds dstbuf sbi.blksz stream) :
    compressedBlocks sbi true dstbuf stream.length =
      List.replicate (sbi.blkRoundUp stream.length * sbi.blksz - stream.length) 0 ++ stream := by
  have hpos := sbi.blksz_pos
  have hmod : stream.length &&& (sbi.blksz - 1) = stream.length % sbi.blksz :=
    Nat.and_two_pow_sub_one_eq_mod _ _
  obtain ⟨padding, hpad, hle, hsum⟩ : ∃ padding,
      (if stream.length % sbi.blksz ≠ 0 then sbi.blksz - stream.length % sbi.blksz else 0) =
        padding ∧ padding ≤ sbi.blksz ∧
      sbi.blkRoundUp stream.length * sbi.blksz = padding + stream.length := by
    refine ⟨_, rfl, ?_, ?_⟩
    · split_ifs <;> omega
    · have hdiv := Nat.div_add_mod stream.length sbi.blksz
      have hlt := Nat.mod_lt stream.length hpos
      unfold SbInfo.blkRoundUp
      split_ifs with htail
      · have hq : (stream.length + (sbi.blksz - 1)) / sbi.blksz =
            stream.length / sbi.blksz + 1 := by
          apply Nat.div_eq_of_lt_le
          · rw [Nat.add_mul, Nat.mul_comm]
            omega
          · rw [Nat.add_mul, Nat.add_mul, Nat.mul_comm]
            omega
        rw [hq, Nat.add_mul, Nat.mul_comm]
        omega
      · have hq : (stream.length + (sbi.blksz - 1)) / sbi.blksz = stream.length / sbi.blksz := by
          apply Nat.div_eq_of_lt_le
          · rw [Nat.mul_comm]
            omega
          · rw [Nat.add_mul, Nat.mul_comm]
            omega
        rw [hq, Nat.mul_comm]
        omega
  unfold compressedBlocks
  simp only [if_true, hmod, hpad, hsum]
  rw [slice_add, Nat.sub_add_cancel hle, slice_of_holds hstream rfl,
    Nat.add_sub_cancel]
  have hfront : Holds dstbuf (sbi.blksz - padding) (List.replicate padding 0) := by
    apply holds_zeros
    intro i hi
    exact hzero _ (by omega)
  rw [slice_of_holds hfront List.length_replicate]

/-- Zero bytes and a tail that fill the block exactly. -/
theorem erofsWriteTailEnd_padded (dev : Mem) (pos : ℕ) {idata : List UInt8}
    (hlen : idata.length ≤ sbi.blksz) :
    slice (erofsWriteTailEnd sbi true true dev pos idata) pos sbi.blksz =
      List.replicate (sbi.blksz - idata.length) 0 ++ idata := by
  apply slice_of_holds
  · unfold erofsWriteTailEnd
    simp only [Bool.and_self, if_true]
    split_ifs with hlt
    · apply holds_append.mpr
      refine ⟨holds_store _ _ _, ?_⟩
      rw [List.length_replicate]
      apply holds_congr _ (holds_store dev (pos + (sbi.blksz - idata.length)) idata)
      intro k hk _
      apply store_of_ge
      rw [List.length_replicate]
      exact hk
    · rw [show sbi.blksz - idata.length = 0 by omega]
      exact holds_store dev pos idata
  · rw [List.length_append, List.length_replicate]
    omega

end Writers

structure Unpads (stream pcluster : List UInt8) : Prop where
  margin : zErofsFixupInsize pcluster = pcluster.length - stream.length
  stream : pcluster.drop (zErofsFixupInsize pcluster) = stream

theorem unpads_replicate (n : ℕ) {b : UInt8} (rest : List UInt8) (hb : b ≠ 0) :
    Unpads (b :: rest) (List.replicate n 0 ++ b :: rest) := by
  refine ⟨?_, ?_⟩
  · rw [zErofsFixupInsize_replicate n rest hb, List.length_append, List.length_replicate,
      Nat.add_sub_cancel]
  · rw [zErofsFixupInsize_replicate n rest hb]
    exact List.drop_left' List.length_replicate

/-- The stream of a call starts with a byte other than zero, so that the padding in front of it can
be taken off, whichever function writes it. -/
theorem zeroPadding_removable {level : ℕ} {lazySearch : Bool} {s : KiteDeflate}
    {mf : KiteMatchfinder} (hreach : KiteReach level lazySearch s mf) (inp : ℕ → UInt8)
    {srcsize : ℕ} (hsrc : srcsize ≤ maxInput) (targetDstsize : ℕ) (sbi : SbInfo)
    {availableComprAlgs : ℕ} (halg : availableComprAlgs &&& 2 ^ compressionDeflate ≠ 0)
    (legacyCompress : Bool) :
    ∃ r, kiteDeflateDestsize inp lazySearch s mf srcsize targetDstsize = some r ∧
      (∃ b rest, r.out = b :: rest ∧ b ≠ 0) ∧
      (∀ dstbuf : Mem, (∀ i < sbi.blksz, dstbuf i = 0) → Holds dstbuf sbi.blksz r.out →
        Unpads r.out (compressedBlocks sbi (zErofsZeroPadding availableComprAlgs legacyCompress)
          dstbuf r.out.length)) ∧
      (∀ (dev : Mem) (pos : ℕ), r.out.length ≤ sbi.blksz →
        Unpads r.out (slice (erofsWriteTailEnd sbi
          (zErofsZeroPadding availableComprAlgs legacyCompress) true dev pos r.out) pos
          sbi.blksz)) := by
  obtain ⟨r, hr, b, rest, heq, hb⟩ := kiteDeflateDestsize_firstByte hreach inp hsrc targetDstsize
  refine ⟨r, hr, ⟨b, rest, heq, hb⟩, ?_, ?_⟩
  · intro dstbuf hzero hstream
    rw [zErofsZeroPadding_deflate halg, compressedBlocks_padded hzero hstream, heq]
    exact unpads_replicate _ rest hb
  · intro dev pos hlen
    rw [zErofsZeroPadding_deflate halg, erofsWriteTailEnd_padded dev pos hlen, heq]
    exact unpads_replicate _ rest hb

theorem zeroPadding_removable_five : ∃ mf, KiteReach 1 false .fresh mf ∧
    ∃ r, kiteDeflateDestsize (fun _ => 97) false .fresh mf 5 4096 = some r ∧
      ∃ b rest, r.out = b :: rest ∧ b ≠ 0 := by
  obtain ⟨mf, hreach⟩ := kiteReach_level_one
  obtain ⟨r, hr, hfirst, -⟩ := @zeroPadding_removable 1 false .fresh mf hreach (fun _ => 97) 5
    (by decide) 4096 ⟨12, 5, 0, false⟩ 4 (by decide) false
  exact ⟨mf, hreach, r, hr, hfirst⟩

end ErofsUtils
