import ErofsUtils.CompactLoad

/-!
# The COMPACT index round trip

The comparison of what the reader loads from the packs with the legacy index of the same
lcluster. The pad entry behind the last extent has no blocks: its legacy index holds address
zero, and the packs show the address behind the last extent.
-/

namespace ErofsUtils
open ByteMemory BitPacking

/-- The distance a legacy NONHEAD index leads back. -/
def LclusterIndex.distance (di : LclusterIndex) : ℕ :=
  if di.delta0 &&& d0Cblkcnt ≠ 0 then 1 else di.delta0

inductive LegacyLookback (dis : List LclusterIndex) : ℕ → ℕ → Prop
  | head {lcn : ℕ} {di : LclusterIndex} : dis[lcn]? = some di → di.type ≠ .nonhead →
      LegacyLookback dis lcn lcn
  | step {lcn h : ℕ} {di : LclusterIndex} : dis[lcn]? = some di → di.type = .nonhead →
      di.distance ≠ 0 → di.distance ≤ lcn → LegacyLookback dis (lcn - di.distance) h →
      LegacyLookback dis lcn h

def IsExtentHead (vi : Inode) (es : List InmemExtent) (lcn : ℕ) : Prop :=
  ∃ pre e post, es = pre ++ e :: post ∧ lcn = totalLength pre / vi.sbi.blksz

/-- What `ml` says of an lcluster through its legacy index, `mc` says through its pack. -/
structure SameIndex (vi : Inode) (blk : BlkRead) (es : List InmemExtent) (lcn : ℕ)
    (ml mc : Maprecorder) : Prop where
  type : mc.type = ml.type
  clusterofs : mc.clusterofs = ml.clusterofs
  compressedblks : mc.compressedblks = ml.compressedblks
  pblk : IsExtentHead vi es lcn → mc.pblk = ml.pblk
  lookback : mc.type = .nonhead → ∃ mh la, zErofsExtentLookback vi blk mc mc.delta0 =
    .ok (mh, la) ∧ LegacyLookback (zErofsWriteIndexes vi es) lcn mh.lcn

/-- The reader selects the pack whose entries include the one of `lcn`, and its slot. -/
structure SelectsSlot (vi : Inode) (blkaddr : ℕ) (es : List InmemExtent) (mem' : Mem)
    (lcn : ℕ) : Prop where
  first_le : (vi.packPlace lcn).first ≤ lcn
  lt_last : lcn < (vi.packPlace lcn).first + (vi.packPlace lcn).vcnt
  written : PackAt (cvAt vi es) (startCarry vi.sbi.bigPcluster blkaddr) vi.sbi.bigPcluster
    vi.zLogicalClusterbits (vi.packPlace lcn).destsize (vi.packPlace lcn).vcnt
    (vi.packPlace lcn).encodebits mem' (vi.packPlace lcn).first (8 + (vi.packPlace lcn).base)
  aligned : (vi.packPlace lcn).packsz ∣ vi.ebase + (vi.packPlace lcn).base
  selected : compactedIndexPos vi vi.ebase (vi.sbi.blkRoundUp vi.iSize) lcn =
    (vi.ebase + (vi.packPlace lcn).base +
      (vi.packPlace lcn).destsize * (lcn - (vi.packPlace lcn).first),
      (vi.packPlace lcn).amortizedshift)

section Legacy

variable {vi : Inode} {pre post : List InmemExtent} {e : InmemExtent}

theorem writeIndexes_head (hs : Spans vi.sbi.blksz 0 (pre ++ e :: post)) :
    ∃ p d1, (zErofsWriteIndexes vi (pre ++ e :: post))[totalLength pre / vi.sbi.blksz]? =
      some (extentIndex vi { e with partialRef := p } (totalLength pre % vi.sbi.blksz) 0
        d1) := by
  obtain ⟨p, d1, hslot⟩ := slot_head vi.sbi.blksz_pos hs
  refine ⟨p, d1, ?_⟩
  rw [zErofsWriteIndexes_eq vi hs, List.getElem?_map, hslot]
  rfl

theorem writeIndexes_nonhead (hs : Spans vi.sbi.blksz 0 (pre ++ e :: post)) {i : ℕ}
    (hi : i < extentSpan vi.sbi.blksz (totalLength pre) e) :
    (zErofsWriteIndexes vi (pre ++ e :: post))[totalLength pre / vi.sbi.blksz + i]? =
      some (extentIndex vi e (totalLength pre % vi.sbi.blksz) i
        (extentSpan vi.sbi.blksz (totalLength pre) e - i)) := by
  rw [zErofsWriteIndexes_eq vi hs, List.getElem?_map,
    slot_of_lt_span vi.sbi.blksz_pos hs hi]
  rfl

theorem distance_extentIndex {clusterofs i d1 : ℕ} (h0 : i ≠ 0) :
    (extentIndex vi e clusterofs i d1).type = .nonhead ∧
      (extentIndex vi e clusterofs i d1).distance ≠ 0 ∧
      (extentIndex vi e clusterofs i d1).distance ≤ i := by
  by_cases h1 : i = 1 ∧ vi.sbi.bigPcluster = true
  · obtain ⟨rfl, hb⟩ := h1
    have hcv := ofIndex_cblkcnt e clusterofs d1 hb
    have hd : (extentIndex vi e clusterofs 1 d1).delta0 = u16 (e.compressedblks ||| d0Cblkcnt) :=
      (congrArg CompressindexVec.delta0 hcv).trans (delta0_mk_deltas _ _ _ _)
    refine ⟨congrArg CompressindexVec.clustertype hcv, ?_⟩
    rw [LclusterIndex.distance, hd, if_pos (u16_or_d0Cblkcnt _)]
    omega
  · have hcv := ofIndex_nonhead e clusterofs i d1 h0 h1
    have hd : (extentIndex vi e clusterofs i d1).delta0 = min i (d0Cblkcnt - 1) :=
      (congrArg CompressindexVec.delta0 hcv).trans
        ((delta0_mk_deltas _ _ _ _).trans (u16_min_d0Cblkcnt i).1)
    refine ⟨congrArg CompressindexVec.clustertype hcv, ?_⟩
    rw [LclusterIndex.distance, hd, if_neg (not_not.mpr (u16_min_d0Cblkcnt i).2)]
    unfold d0Cblkcnt
    omega

theorem legacyLookback (hs : Spans vi.sbi.blksz 0 (pre ++ e :: post)) {i : ℕ}
    (hi : i < max (extentSpan vi.sbi.blksz (totalLength pre) e) 1) :
    LegacyLookback (zErofsWriteIndexes vi (pre ++ e :: post))
      (totalLength pre / vi.sbi.blksz + i) (totalLength pre / vi.sbi.blksz) := by
  induction i using Nat.strong_induction_on with
  | _ i ih =>
      by_cases h0 : i = 0
      · obtain ⟨p, d1, hidx⟩ := writeIndexes_head hs
        rw [h0, Nat.add_zero]
        refine .head hidx ?_
        have htype := (@ofIndex_head vi { e with partialRef := p }
          (totalLength pre % vi.sbi.blksz) d1).1
        intro hnon
        exact headtype_ne_nonhead { e with partialRef := p } (htype.symm.trans hnon)
      · obtain ⟨htype, hne, hle⟩ := distance_extentIndex (e := e) h0
        refine .step (writeIndexes_nonhead hs (by omega)) htype hne (le_add_left hle) ?_
        rw [Nat.add_sub_assoc hle]
        exact ih _ (by omega) (by omega)

end Legacy

section Compare

variable {vi : Inode} {blkaddr : ℕ} {es : List InmemExtent} {blk : BlkRead} {mem' : Mem}
  {isize : ℕ}

theorem CompactDevice.sameIndex (hd : CompactDevice vi blkaddr es blk mem' isize)
    (hclear : EndsClear vi es) (hcarried : CountsCarried es) {lcn : ℕ}
    (hlcn : lcn < vi.sbi.blkRoundUp vi.iSize) (m : Maprecorder) (lookahead : Bool) :
    ∃ di ml mc, (zErofsWriteIndexes vi es)[lcn]? = some di ∧
      legacyDecodeIndex vi m di = .ok ml ∧
      compactedLoadClusterFromDisk vi blk m lcn lookahead = .ok mc ∧
      SameIndex vi blk es lcn ml mc := by
  have hf := hd.file
  have hb := vi.sbi.blksz_pos
  have hdisp : compactedLoadClusterFromDisk vi blk m lcn lookahead =
      zErofsLoadClusterFromDisk vi blk m lcn lookahead := by
    have hlt := hf.metasize_lt
    rw [zErofsLoadClusterFromDisk, hf.layout]
    simp only [u32_of_lt (show lcn < 2 ^ 32 by omega)]
  rw [hdisp]
  rcases slot_cases hb hf.spans (by rwa [hf.length_slots]) with
    ⟨pre, e, post, i, rfl, rfl, hi⟩ | ⟨hpad, hmod⟩
  · rcases Nat.eq_zero_or_pos i with hz | hpos
    · subst hz
      rw [Nat.add_zero] at hlcn ⊢
      obtain ⟨mc, hload, -, htype, hofs, hc, -, hpblk⟩ := hd.load_head hlcn m lookahead
      obtain ⟨p, d1, hidx⟩ := writeIndexes_head hf.spans
      refine ⟨_, _, mc, hidx, legacyDecodeIndex_head vi m _ _ _, hload, htype, ?_, hc, ?_, ?_⟩
      · rw [hofs, hf.u16_mod]
      · intro _
        simp only [InmemExtent.headBlkaddr, hf.layout, reduceCtorEq, false_and, if_false]
        exact hpblk hcarried
      · intro hnon
        exact absurd (htype.symm.trans hnon) (headtype_ne_nonhead e)
    · obtain ⟨mc, hload, hlcn', htype, hofs, hd0, hdi, -, -, hcounts⟩ :=
        hd.load_nonhead (Or.inl hclear.extent) (i := i) (by omega) (by omega) hlcn m lookahead
      have hc := hcounts hclear.extent
      have hback : ∃ mh la, zErofsExtentLookback vi blk mc mc.delta0 = .ok (mh, la) ∧
          LegacyLookback (zErofsWriteIndexes vi (pre ++ e :: post))
            (totalLength pre / vi.sbi.blksz + i) mh.lcn := by
        have hnn := Nat.zero_le (totalLength pre / vi.sbi.blksz)
        obtain ⟨mh, hok, hmh, -⟩ := (hd.indexed (Or.inl hclear.extent)).lookback
          (i := i - mc.delta0) (by omega) (m := mc) (d := mc.delta0) (by omega)
        exact ⟨mh, _, hok, hmh ▸ legacyLookback hf.spans hi⟩
      have hnohead : ¬ IsExtentHead vi (pre ++ e :: post)
          (totalLength pre / vi.sbi.blksz + i) := by
        rintro ⟨pre', e', post', hes, hhead⟩
        have h₁ := writeIndexes_nonhead hf.spans (i := i) (by omega)
        rw [hes] at h₁
        obtain ⟨p, d1, h₂⟩ := writeIndexes_head (hes ▸ hf.spans)
        rw [← hhead, h₁] at h₂
        have htype₁ : (extentIndex vi e (totalLength pre % vi.sbi.blksz) i
            (extentSpan vi.sbi.blksz (totalLength pre) e - i)).type = .nonhead :=
          (distance_extentIndex (Nat.pos_iff_ne_zero.mp hpos)).1
        have htype₂ := (@ofIndex_head vi { e' with partialRef := p }
          (totalLength pre' % vi.sbi.blksz) d1).1
        rw [Option.some.inj h₂] at htype₁
        exact headtype_ne_nonhead _ (htype₂.symm.trans htype₁)
      have hidx := writeIndexes_nonhead hf.spans (i := i) (by omega)
      by_cases h1 : i = 1 ∧ vi.sbi.bigPcluster = true
      · rw [if_pos h1] at hc
        obtain ⟨rfl, hbig⟩ := h1
        exact ⟨_, _, mc, hidx, legacyDecodeIndex_cblkcnt vi m e _ _ hbig hf.big, hload, htype,
          hofs, hc, fun h => absurd h hnohead, fun _ => hback⟩
      · rw [if_neg h1] at hc
        exact ⟨_, _, mc, hidx, legacyDecodeIndex_nonhead vi m e _ _ _ (by omega) h1, hload,
          htype, hofs, hc, fun h => absurd h hnohead, fun _ => hback⟩
  · obtain ⟨mc, hload, -, htype, hofs, hc, -⟩ := hd.load_pad hpad m lookahead
    have hidx : (zErofsWriteIndexes vi es)[lcn]? =
        some ((Slot.pad (totalLength es % vi.sbi.blksz)).index vi) := by
      rw [zErofsWriteIndexes_eq vi hf.spans, List.getElem?_map, hpad]
      rfl
    refine ⟨_, _, mc, hidx, legacyDecodeIndex_pad vi m _, hload, htype, ?_, hc, ?_, ?_⟩
    · rw [hofs, hf.u16_mod]
    · rintro ⟨pre, e, post, rfl, rfl⟩
      obtain ⟨p, d1, hslot⟩ := slot_head hb hf.spans
      rw [hpad] at hslot
      simp at hslot
    · intro hnon
      rw [htype] at hnon
      cases hnon

/-- After the conversion, every lcluster is read from the slot that was written for it and
means what its legacy index means. -/
theorem compactIndex_roundTrip (hf : CompactFile vi blkaddr es) (hclear : EndsClear vi es)
    (hcarried : CountsCarried es) {mem : Mem}
    (hmem : Holds mem legacyMapHeaderSize
      ((zErofsWriteIndexes vi es).flatMap LclusterIndex.encode)) :
    ∃ mem' isize,
      zErofsConvertToCompactedFormat vi blkaddr
        (legacyMapHeaderSize + 8 * (zErofsWriteIndexes vi es).length) mem =
          .ok (mem', isize) ∧
      ∀ blk, DeviceCopies vi.sbi blk vi.ebase mem' 8 (isize - 8) →
        ∀ lcn < vi.sbi.blkRoundUp vi.iSize, SelectsSlot vi blkaddr es mem' lcn ∧
          ∀ m lookahead, ∃ di ml mc, (zErofsWriteIndexes vi es)[lcn]? = some di ∧
            legacyDecodeIndex vi m di = .ok ml ∧
            compactedLoadClusterFromDisk vi blk m lcn lookahead = .ok mc ∧
            SameIndex vi blk es lcn ml mc := by
  obtain ⟨mem', isize, hconv, hpacks⟩ := hf.convert hmem
  refine ⟨mem', isize, hconv, ?_⟩
  intro blk hdev lcn hlcn
  have hd : CompactDevice vi blkaddr es blk mem' isize :=
    ⟨hf, hpacks, hdev⟩
  obtain ⟨-, hfirst, hlast, hdvd, hpos⟩ := hf.place hlcn
  exact ⟨⟨hfirst, hlast, (hpacks lcn hlcn).1, hdvd, hpos⟩, hd.sameIndex hclear hcarried hlcn⟩

end Compare

section Instances

/-- Extents of at most `Z_EROFS_LI_D0_CBLKCNT` lclusters never show the bit. -/
theorem endsClear_of_span_le {vi : Inode} {es : List InmemExtent}
    (h : ∀ pre e post, es = pre ++ e :: post →
      extentSpan vi.sbi.blksz (totalLength pre) e ≤ d0Cblkcnt) : EndsClear vi es := by
  intro pre e post i hes h0 hi _ _
  have hle := h pre e post hes
  apply and_d0Cblkcnt_of_lt
  refine lt_of_le_of_lt (Nat.min_le_left _ _) ?_
  refine lt_of_le_of_lt (Nat.mod_le _ _) ?_
  omega

def legacyBuffer (vi : Inode) (es : List InmemExtent) : Mem :=
  store (fun _ => 0) legacyMapHeaderSize
    ((zErofsWriteIndexes vi es).flatMap LclusterIndex.encode)

/-- A device that holds a buffer from `start` on at `pos`. -/
def deviceCopy (sbi : SbInfo) (pos : ℕ) (mem : Mem) (start : ℕ) : BlkRead := fun blk =>
  some fun ofs => mem (start + (sbi.pos blk + ofs - pos))

theorem deviceCopies_deviceCopy (sbi : SbInfo) (pos : ℕ) (mem : Mem) (start n : ℕ) :
    DeviceCopies sbi (deviceCopy sbi pos mem start) pos mem start n := by
  refine ⟨fun _ _ => rfl, ?_⟩
  intro i _
  have hpos := sbi.blknr_add_blkoff (pos + i)
  rw [Nat.mul_comm] at hpos
  rw [image, deviceCopy]
  simp only [SbInfo.pos, hpos, Nat.add_sub_cancel_left]

/-- An inode of the COMPACT layout with 2-byte packs, for a file of `size` bytes. -/
def compactInode (size : ℕ) : Inode :=
  { plainInode 12 true size with
    datalayout := .compressedCompact
    zAdvise := ⟨true, true, true, false, false, false⟩ }

/-- One compressed extent that ends in the second lcluster. -/
def oneExtent : List InmemExtent := [⟨100, 1, 5000, false, false, false⟩]

theorem compactFile_oneExtent : CompactFile (compactInode 5000) 100 oneExtent where
  layout := rfl
  blksz_ge := by decide
  lclusterbits := rfl
  lclusterbits_le := by decide
  two := fun _ => by decide
  big := rfl
  islotbits := rfl
  size := rfl
  metasize_lt := by decide
  spans := ⟨by decide, by decide, fun h => absurd rfl h, trivial⟩
  blkaddr_lt := by decide
  addrs := by
    intro pre e post hes
    obtain ⟨rfl, rfl, rfl⟩ : pre = [] ∧ e = ⟨100, 1, 5000, false, false, false⟩ ∧ post = [] := by
      cases pre with
      | nil => simpa [oneExtent, eq_comm] using hes
      | cons x pre => simp [oneExtent] at hes
    rfl
  built := by
    intro pre e post hes hne
    cases pre with
    | nil => simp [oneExtent, hne.symm] at hes
    | cons x pre => simp [oneExtent] at hes
  cblks_le := by
    intro e he
    obtain rfl := List.mem_singleton.mp he
    decide

/-- The pad entry of a file has block address zero in its legacy index, and the address
behind the last extent in its pack. -/
theorem compactIndex_pad_pblk :
    CompactFile (compactInode 5000) 100 oneExtent ∧
    (∃ di, (zErofsWriteIndexes (compactInode 5000) oneExtent)[1]? = some di ∧
      di.type = .plain ∧ di.u = 0) ∧
    ∃ mem' isize,
      zErofsConvertToCompactedFormat (compactInode 5000) 100
        (legacyMapHeaderSize + 8 * (zErofsWriteIndexes (compactInode 5000) oneExtent).length)
        (legacyBuffer (compactInode 5000) oneExtent) = .ok (mem', isize) ∧
      ∃ mc, compactedLoadClusterFromDisk (compactInode 5000)
          (deviceCopy (compactInode 5000).sbi (compactInode 5000).ebase mem' 8) .init 1 false =
            .ok mc ∧ mc.type = .plain ∧ mc.pblk = 101 := by
  refine ⟨compactFile_oneExtent, ⟨_, rfl, rfl, rfl⟩, ?_⟩
  obtain ⟨mem', isize, hconv, hpacks⟩ :=
    compactFile_oneExtent.convert (holds_store (fun _ => 0) legacyMapHeaderSize _)
  refine ⟨mem', isize, hconv, ?_⟩
  have hd : CompactDevice (compactInode 5000) 100 (oneExtent ++ [])
      (deviceCopy (compactInode 5000).sbi (compactInode 5000).ebase mem' 8) mem' isize :=
    ⟨compactFile_oneExtent, hpacks, deviceCopies_deviceCopy _ _ _ _ _⟩
  have hcounted : AllCounted (compactInode 5000) oneExtent := by
    intro pre e post hes
    cases pre with
    | nil =>
        obtain ⟨rfl, rfl⟩ : e = ⟨100, 1, 5000, false, false, false⟩ ∧ post = [] := by
          simpa [oneExtent, eq_comm] using hes
        exact ⟨by decide, fun _ => rfl, by decide⟩
    | cons x pre => simp [oneExtent] at hes
  obtain ⟨mc, hload, -, htype, -, -, -, hpblk⟩ := hd.load_slot
    (show 1 < _ by decide) (by decide) .init false
  exact ⟨mc, hload, htype, hpblk oneExtent [] rfl hcounted rfl⟩

/-- An inode of 22 lclusters with large xattrs; 6 of the lclusters are in 4-byte slots. -/
def ztailInode (a : ℕ) : Inode :=
  { plainInode 12 true (86516 + a) with
    datalayout := .compressedCompact
    xattrIsize := 3584
    zAdvise := ⟨true, true, true, true, false, false⟩ }

/-- Its extents; the last one starts `a` bytes behind the start of the last lcluster. -/
def ztailFront (a : ℕ) : InmemExtent := ⟨100, 1, 86016 + a, false, false, false⟩

def ztailLast : InmemExtent := ⟨101, 1, 500, false, false, true⟩

theorem ztail_split {a : ℕ} {pre post : List InmemExtent} {e : InmemExtent}
    (h : [ztailFront a] ++ [ztailLast] = pre ++ e :: post) :
    (pre = [] ∧ e = ztailFront a ∧ post = [ztailLast]) ∨
      (pre = [ztailFront a] ∧ e = ztailLast ∧ post = []) := by
  cases pre with
  | nil =>
    obtain ⟨rfl, rfl⟩ := List.cons.inj h
    exact Or.inl ⟨rfl, rfl, rfl⟩
  | cons x pre =>
    obtain ⟨rfl, hrest⟩ := List.cons.inj h
    cases pre with
    | nil =>
      obtain ⟨rfl, rfl⟩ := List.cons.inj hrest
      exact Or.inr ⟨rfl, rfl, rfl⟩
    | cons y pre =>
      obtain ⟨-, hnil⟩ := List.cons.inj hrest
      exact absurd hnil.symm (by simp)

theorem compactFile_ztail {a : ℕ} (ha : a + 500 ≤ 4096) :
    CompactFile (ztailInode a) 100 ([ztailFront a] ++ [ztailLast]) where
  layout := rfl
  blksz_ge := (by decide : 9 ≤ 12)
  lclusterbits := rfl
  lclusterbits_le := (by decide : 12 ≤ 14)
  two := fun _ => (by decide : 12 ≤ 12)
  big := rfl
  islotbits := rfl
  size := by
    change 86516 + a = 86016 + a + (500 + 0)
    omega
  metasize_lt := by
    change 8 * ((86516 + a + (4096 - 1)) / 4096) < 2 ^ 32
    omega
  spans := by
    have hblk : (ztailInode a).sbi.blksz = 4096 := rfl
    rw [hblk]
    refine ⟨Nat.add_pos_left (by decide) a, ?_, fun _ => ?_, by decide, ?_, fun h => absurd rfl h,
      trivial⟩
    · change 0 % 4096 + (86016 + a) < 2 ^ 32
      omega
    · change 4096 ≤ 0 % 4096 + (86016 + a)
      omega
    · change (0 + (86016 + a)) % 4096 + 500 < 2 ^ 32
      omega
  blkaddr_lt := by decide
  addrs := by
    intro pre e post hes
    rcases ztail_split hes with ⟨rfl, rfl, rfl⟩ | ⟨rfl, rfl, rfl⟩
    · rfl
    · rfl
  built := by
    intro pre e post hes hne
    rcases ztail_split hes with ⟨rfl, rfl, rfl⟩ | ⟨rfl, rfl, rfl⟩
    · refine ⟨(by decide : 100 < 2 ^ 32), le_refl 1, fun _ => ?_, fun _ => ?_, fun _ hbig => ?_,
        fun hraw => ?_, fun _ => rfl⟩
      · change 1 * 4096 < 86016 + a
        omega
      · exact (by decide : 1 * 4096 ≤ pclusterMaxSize)
      · cases hbig
      · cases hraw
    · exact absurd rfl hne
  cblks_le := by
    intro e he
    simp only [List.cons_append, List.nil_append, List.mem_cons, List.not_mem_nil, or_false] at he
    rcases he with rfl | rfl
    · exact (by decide : 1 ≤ d0Cblkcnt)
    · decide

theorem ztail_of_split {P : List InmemExtent → InmemExtent → List InmemExtent → Prop} {a : ℕ}
    (hfront : P [] (ztailFront a) [ztailLast]) (hlast : P [ztailFront a] ztailLast []) :
    ∀ pre e post, [ztailFront a] ++ [ztailLast] = pre ++ e :: post → P pre e post := by
  intro pre e post hes
  rcases ztail_split hes with ⟨rfl, rfl, rfl⟩ | ⟨rfl, rfl, rfl⟩
  · exact hfront
  · exact hlast

/-- A file of 22 lclusters in packs of both kinds, with an inlined tail. -/
theorem compactIndex_roundTrip_ztail :
    ∃ mem' isize,
      zErofsConvertToCompactedFormat (ztailInode 100) 100
        (legacyMapHeaderSize +
          8 * (zErofsWriteIndexes (ztailInode 100) ([ztailFront 100] ++ [ztailLast])).length)
        (legacyBuffer (ztailInode 100) ([ztailFront 100] ++ [ztailLast])) = .ok (mem', isize) ∧
      ∀ blk, DeviceCopies (ztailInode 100).sbi blk (ztailInode 100).ebase mem' 8 (isize - 8) →
        ∀ lcn < 22,
          SelectsSlot (ztailInode 100) 100 ([ztailFront 100] ++ [ztailLast]) mem' lcn ∧
          ∀ m lookahead, ∃ di ml mc,
            (zErofsWriteIndexes (ztailInode 100) ([ztailFront 100] ++ [ztailLast]))[lcn]? =
              some di ∧
            legacyDecodeIndex (ztailInode 100) m di = .ok ml ∧
            compactedLoadClusterFromDisk (ztailInode 100) blk m lcn lookahead = .ok mc ∧
            SameIndex (ztailInode 100) blk ([ztailFront 100] ++ [ztailLast]) lcn ml mc :=
  compactIndex_roundTrip (compactFile_ztail (by decide))
    (endsClear_of_span_le (ztail_of_split (by decide) (by decide)))
    (ztail_of_split (fun _ => by decide) (fun h => absurd rfl h))
    (holds_store (fun _ => 0) legacyMapHeaderSize _)

end Instances

end ErofsUtils
