import ErofsUtils.CompactCount
import ErofsUtils.FullIndexRoundTrip

/-!
# Loading the indexes of the COMPACT layout

An lcluster is loaded from the pack that was written for it. Each kind of slot decodes to
what its legacy index says, with one exception that the converter makes itself: the last
slot of a pack stores the distance to the next head instead of the one to its own, and the
reader takes the latter from the slot in front of it.
-/

namespace ErofsUtils
open ByteMemory BitPacking

/-- A file whose indexes are converted: its extents take consecutive blocks from `blkaddr`
on, and none but the last can be inlined or packed as a fragment. The size of the indexes is an
`unsigned int`. -/
structure CompactFile (vi : Inode) (blkaddr : ℕ) (es : List InmemExtent) : Prop where
  layout : vi.datalayout = .compressedCompact
  blksz_ge : 9 ≤ vi.sbi.blkszbits
  lclusterbits : vi.zLogicalClusterbits = vi.sbi.blkszbits
  lclusterbits_le : vi.zLogicalClusterbits ≤ 14
  two : vi.zAdvise.compacted2B = true → vi.zLogicalClusterbits ≤ 12
  big : vi.zAdvise.bigPcluster1 = vi.sbi.bigPcluster
  islotbits : vi.sbi.islotbits = 5
  size : vi.iSize = totalLength es
  metasize_lt : 8 * vi.sbi.blkRoundUp vi.iSize < 2 ^ 32
  spans : Spans vi.sbi.blksz 0 es
  blkaddr_lt : blkaddr < 2 ^ 32
  addrs : ∀ pre e post, es = pre ++ e :: post → e.blkaddr = blkaddr + totalBlocks pre
  built : ∀ pre e post, es = pre ++ e :: post → post ≠ [] → BuiltExtent vi e
  cblks_le : ∀ e ∈ es, e.compressedblks ≤ d0Cblkcnt

def Inode.mpos (vi : Inode) : ℕ := roundUp (vi.inodeIsize + vi.xattrIsize) 8 + 8

def Inode.ebase (vi : Inode) : ℕ := roundUp (vi.iloc + vi.inodeIsize + vi.xattrIsize) 8 + 8

def Inode.packPlace (vi : Inode) (lcn : ℕ) : PackPlace :=
  let counts := compactedCounts vi.zAdvise.compacted2B vi.mpos (vi.sbi.blkRoundUp vi.iSize)
  ErofsUtils.packPlace counts.1 counts.2.1 lcn

def Inode.EndsPack (vi : Inode) (lcn : ℕ) : Prop :=
  lcn + 1 = (vi.packPlace lcn).first + (vi.packPlace lcn).vcnt

/-- No pack ends with a NONHEAD entry whose stored distance shows the CBLKCNT bit. -/
def EndsClear (vi : Inode) (es : List InmemExtent) : Prop :=
  ∀ pre e post i, es = pre ++ e :: post → i ≠ 0 →
    i < extentSpan vi.sbi.blksz (totalLength pre) e → ¬ (i = 1 ∧ vi.sbi.bigPcluster = true) →
    vi.EndsPack (totalLength pre / vi.sbi.blksz + i) →
    min (u16 (extentSpan vi.sbi.blksz (totalLength pre) e - i))
      (2 ^ compactedLobits vi.zLogicalClusterbits - 1) &&& d0Cblkcnt = 0

def ExtentClear (vi : Inode) (pre : List InmemExtent) (e : InmemExtent) : Prop :=
  ∀ i, i ≠ 0 → i < extentSpan vi.sbi.blksz (totalLength pre) e →
    ¬ (i = 1 ∧ vi.sbi.bigPcluster = true) →
    vi.EndsPack (totalLength pre / vi.sbi.blksz + i) →
    min (u16 (extentSpan vi.sbi.blksz (totalLength pre) e - i))
      (2 ^ compactedLobits vi.zLogicalClusterbits - 1) &&& d0Cblkcnt = 0

theorem EndsClear.extent {vi : Inode} {pre post : List InmemExtent} {e : InmemExtent}
    (h : EndsClear vi (pre ++ e :: post)) : ExtentClear vi pre e :=
  fun i => h pre e post i rfl

/-- No extent with a successor takes `Z_EROFS_LI_D0_CBLKCNT` blocks. -/
def CountsCarried (es : List InmemExtent) : Prop :=
  ∀ pre e post, es = pre ++ e :: post → post ≠ [] → e.compressedblks ≠ d0Cblkcnt

/-- The device can be read at the `n` bytes from `pos` on, and holds the bytes of `mem` from
`start` on there. -/
structure DeviceCopies (sbi : SbInfo) (blk : BlkRead) (pos : ℕ) (mem : Mem) (start n : ℕ) :
    Prop where
  readable : ∀ i < n, (blk (sbi.blknr (pos + i))).isSome
  copied : ∀ i < n, image sbi blk (pos + i) = mem (start + i)

theorem DeviceCopies.block {sbi : SbInfo} {blk : BlkRead} {pos start n k ofs : ℕ} {mem : Mem}
    (hd : DeviceCopies sbi blk pos mem start n) (hk : k ∣ sbi.blksz) (hp : k ∣ pos + ofs)
    (hpos : 0 < k) (hlen : ofs + k ≤ n) :
    ∃ kaddr, blk (sbi.blknr (pos + ofs)) = some kaddr ∧
      ∀ i < k, kaddr (sbi.blkoff (pos + ofs) + i) = mem (start + ofs + i) := by
  obtain ⟨kaddr, hkaddr⟩ := Option.isSome_iff_exists.mp (hd.readable ofs (by omega))
  refine ⟨kaddr, hkaddr, ?_⟩
  intro i hi
  obtain ⟨hnr, hoff⟩ := blknr_blkoff_add hk hp hi
  have hb := hd.copied (ofs + i) (by omega)
  rw [← Nat.add_assoc, ← Nat.add_assoc] at hb
  rwa [image, hnr, hkaddr, hoff] at hb

section File

variable {vi : Inode} {blkaddr : ℕ} {es : List InmemExtent}

theorem CompactFile.length_slots (hf : CompactFile vi blkaddr es) :
    (fileSlots vi.sbi.blksz 0 es).length = vi.sbi.blkRoundUp vi.iSize := by
  have h := length_fileSlots vi.sbi.blksz_pos hf.spans
  rw [Nat.zero_div, Nat.zero_add, Nat.zero_add] at h
  rw [h, hf.size]
  rfl

theorem CompactFile.blksz_le (hf : CompactFile vi blkaddr es) : vi.sbi.blksz ≤ 2 ^ 14 :=
  Nat.pow_le_pow_right (by decide) (by rw [← hf.lclusterbits]; exact hf.lclusterbits_le)

theorem CompactFile.u16_mod (hf : CompactFile vi blkaddr es) (n : ℕ) :
    u16 (n % vi.sbi.blksz) = n % vi.sbi.blksz := by
  have := Nat.mod_lt n vi.sbi.blksz_pos
  have := hf.blksz_le
  exact u16_of_lt (by omega)

theorem CompactFile.pow_lclusterbits (hf : CompactFile vi blkaddr es) :
    2 ^ vi.zLogicalClusterbits = vi.sbi.blksz := by
  rw [hf.lclusterbits]
  rfl

/-- Inode slots are 32 bytes, so both sides see the same alignment. -/
theorem CompactFile.ebase_mod (hf : CompactFile vi blkaddr es) :
    vi.ebase % 32 = vi.mpos % 32 := by
  have hblk : 32 ∣ vi.sbi.blksz := pow_dvd_pow 2 (le_trans (by decide : 5 ≤ 9) hf.blksz_ge)
  have hiloc : 32 ∣ vi.iloc := by
    unfold Inode.iloc SbInfo.pos
    rw [hf.islotbits]
    exact Nat.dvd_add (Dvd.dvd.mul_left hblk _) (Nat.dvd_mul_left _ _)
  obtain ⟨q, hq⟩ := hiloc
  unfold Inode.ebase Inode.mpos roundUp
  rw [hq]
  omega

theorem CompactFile.allCounted (hf : CompactFile vi blkaddr es) (hc : CountsCarried es)
    {pre rest : List InmemExtent} (hes : es = pre ++ rest) (hrest : rest ≠ []) :
    AllCounted vi pre := by
  rintro pre' e post' rfl
  have hsplit : es = pre' ++ e :: (post' ++ rest) := by simp [hes]
  have hne : post' ++ rest ≠ [] := by simp [hrest]
  have hb := hf.built _ _ _ hsplit hne
  have hspans := hf.spans
  rw [hsplit] at hspans
  have hs := (spans_append hspans).2.2.1 hne
  rw [Nat.zero_add] at hs
  have hspan := extentSpan_pos vi.sbi.blksz_pos hs
  refine ⟨hspan, ?_, ?_⟩
  · intro hbig
    cases hraw : e.raw with
    | true => exact hb.raw_cblks hraw
    | false =>
        cases hbp : vi.sbi.bigPcluster with
        | false => exact hb.single hraw hbp
        | true =>
            have hlt : ¬ 2 ≤ extentSpan vi.sbi.blksz (totalLength pre') e :=
              fun h => hbig ⟨hbp, h⟩
            have h1 : extentSpan vi.sbi.blksz (totalLength pre') e = 1 := by omega
            exact (hb.laid _).cblks_of_span_one hraw h1
  · cases hraw : e.raw with
    | true =>
        rw [hb.raw_cblks hraw]
        decide
    | false =>
        exact lt_of_le_of_ne ((hb.laid 0).cblks_le_d0Cblkcnt hf.blksz_ge hraw)
          (hc _ _ _ hsplit hne)

theorem cvAt_fits (hf : CompactFile vi blkaddr es) (lcn : ℕ) :
    (cvAt vi es lcn).Fits vi.zLogicalClusterbits := by
  have hzero : CompressindexVec.Fits .zero vi.zLogicalClusterbits :=
    ⟨fun h => by simp [CompressindexVec.zero] at h, fun _ => Nat.two_pow_pos _⟩
  rcases Nat.lt_or_ge lcn (fileSlots vi.sbi.blksz 0 es).length with hlt | hge
  · rcases slot_cases vi.sbi.blksz_pos hf.spans hlt with ⟨pre, e, post, i, rfl, rfl, hi⟩ |
      ⟨hpad, -⟩
    · have hmod := Nat.mod_lt (totalLength pre) vi.sbi.blksz_pos
      rcases Nat.eq_zero_or_pos i with hz | hpos
      · subst hz
        obtain ⟨htype, hofs⟩ := cvAt_head hf.spans
        rw [Nat.add_zero]
        refine ⟨?_, ?_⟩
        · rw [htype]
          exact fun h => absurd h (headtype_ne_nonhead e)
        · rw [hofs, hf.u16_mod, hf.pow_lclusterbits]
          exact fun _ => hmod
      · by_cases h1 : i = 1 ∧ vi.sbi.bigPcluster = true
        · obtain ⟨rfl, hb⟩ := h1
          rw [cvAt_cblkcnt hf.spans hb (by omega)]
          refine ⟨fun _ => ?_, fun h => absurd rfl h⟩
          rw [delta0_mk_deltas]
          have hle : e.compressedblks < 2 ^ 12 :=
            lt_of_le_of_lt (hf.cblks_le e (by simp)) (by decide)
          exact lt_of_le_of_lt (Nat.mod_le _ _) (Nat.or_lt_two_pow hle (by decide))
        · rw [cvAt_nonhead hf.spans (by omega) (by omega) h1]
          refine ⟨fun _ => ?_, fun h => absurd rfl h⟩
          rw [delta0_mk_deltas, (u16_min_d0Cblkcnt i).1]
          unfold d0Cblkcnt
          omega
    · rw [cvAt, hpad]
      refine ⟨fun h => ?_, fun _ => ?_⟩
      · simp [CompressindexVec.ofIndex, Slot.index, LclusterIndex.type] at h
      · change u16 _ < _
        rw [hf.u16_mod, hf.pow_lclusterbits]
        exact Nat.mod_lt _ vi.sbi.blksz_pos
  · rw [cvAt, List.getElem?_eq_none hge]
    exact hzero

theorem CompactFile.convert (hf : CompactFile vi blkaddr es) {mem : Mem}
    (hmem : Holds mem legacyMapHeaderSize
      ((zErofsWriteIndexes vi es).flatMap LclusterIndex.encode)) :
    ∃ mem' isize,
      zErofsConvertToCompactedFormat vi blkaddr
        (legacyMapHeaderSize + 8 * (zErofsWriteIndexes vi es).length) mem =
          .ok (mem', isize) ∧
      ∀ lcn < vi.sbi.blkRoundUp vi.iSize,
        PackAt (cvAt vi es) (startCarry vi.sbi.bigPcluster blkaddr) vi.sbi.bigPcluster
          vi.zLogicalClusterbits (vi.packPlace lcn).destsize (vi.packPlace lcn).vcnt
          (vi.packPlace lcn).encodebits mem' (vi.packPlace lcn).first
          (8 + (vi.packPlace lcn).base) ∧
        8 + (vi.packPlace lcn).base + (vi.packPlace lcn).packsz ≤ isize ∧
        (lcn + 1 = vi.sbi.blkRoundUp vi.iSize →
          8 + (vi.packPlace lcn).base + (vi.packPlace lcn).packsz = isize) := by
  have hlen : (zErofsWriteIndexes vi es).length = vi.sbi.blkRoundUp vi.iSize := by
    rw [zErofsWriteIndexes_eq vi hf.spans, List.length_map, hf.length_slots]
  rw [hlen]
  apply zErofsConvertToCompactedFormat_spec hf.blkaddr_lt hf.lclusterbits.ge
    hf.lclusterbits_le hf.two rfl rfl (cvAt_fits hf)
  · intro j hj
    obtain ⟨s, hslot⟩ : ∃ s, (fileSlots vi.sbi.blksz 0 es)[j]? = some s :=
      ⟨_, List.getElem?_eq_getElem (by rwa [hf.length_slots])⟩
    rw [cvAt, hslot]
    rw [zErofsWriteIndexes_eq vi hf.spans] at hmem
    have hrec := holds_record LclusterIndex.length_encode hmem (i := j)
      (by rw [List.getElem?_map, hslot]; rfl)
    rw [LclusterIndex.decode_of_holds (slotIndex_fits vi _) hrec]
  · intro j hj
    rw [cvAt, List.getElem?_eq_none (by rwa [hf.length_slots])]

end File

end ErofsUtils
