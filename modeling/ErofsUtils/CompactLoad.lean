import ErofsUtils.CompactIndex

/-!
# What the reader loads from the packs

The reader selects the pack and the slot that were written for an lcluster. A head shows
its extent's address, a NONHEAD slot a distance that stays inside its extent, so that the
lookback from any lcluster ends at the head of its extent.
-/

namespace ErofsUtils
open ByteMemory BitPacking

theorem PackShape.cases_shift {lclusterbits shift vcnt encodebits : ℕ}
    (hs : PackShape lclusterbits (2 ^ shift) vcnt encodebits) :
    (shift = 2 ∧ vcnt = 2 ∧ encodebits = 16 ∧ lclusterbits ≤ 14) ∨
      (shift = 1 ∧ vcnt = 16 ∧ encodebits = 14 ∧ lclusterbits ≤ 12) := by
  have hinj (n : ℕ) (h : 2 ^ shift = 2 ^ n) : shift = n := Nat.pow_right_injective le_rfl h
  generalize hd : 2 ^ shift = destsize at hs
  cases hs with
  | four h => exact Or.inl ⟨hinj 2 hd, rfl, rfl, h⟩
  | two h => exact Or.inr ⟨hinj 1 hd, rfl, rfl, h⟩

theorem unpackCompactedIndex_eq {vi : Inode} {shift vcnt encodebits q i : ℕ}
    (hs : PackShape vi.zLogicalClusterbits (2 ^ shift) vcnt encodebits) (hi : i < vcnt)
    (hq : 2 ^ shift * vcnt ∣ q) (hblk : 2 ^ shift * vcnt ∣ vi.sbi.blksz) (kaddr : Mem)
    (m : Maprecorder) (lookahead : Bool) :
    unpackCompactedIndex vi kaddr m shift (q + 2 ^ shift * i) lookahead =
      unpackCompactedSlot vi
        { m with
          nextpackoff := roundDown (q + 2 ^ shift * i) (vcnt * 2 ^ shift) + vcnt * 2 ^ shift }
        (fun k => decodeCompactedbits kaddr (compactedLobits vi.zLogicalClusterbits)
          (vi.sbi.blkoff q) (encodebits * k)) vcnt i
        (leNat kaddr (vi.sbi.blkoff q + 2 ^ shift * vcnt - 4) 4) lookahead := by
  have hlt : 2 ^ shift * i < 2 ^ shift * vcnt :=
    Nat.mul_lt_mul_of_pos_left hi (Nat.two_pow_pos _)
  obtain ⟨-, hoff⟩ := blknr_blkoff_add hblk hq hlt
  have hdvd : 2 ^ shift * vcnt ∣ vi.sbi.blkoff q := (Nat.dvd_mod_iff hblk).mpr hq
  have hround : roundDown (vi.sbi.blkoff q + 2 ^ shift * i) (vcnt * 2 ^ shift) =
      vi.sbi.blkoff q := by
    obtain ⟨t, ht⟩ := hdvd
    rw [roundDown, Nat.mul_comm vcnt, ht, Nat.mul_add_div (by omega), Nat.div_eq_of_lt hlt, Nat.add_zero,
      Nat.mul_comm]
  unfold unpackCompactedIndex
  rcases hs.cases_shift with ⟨rfl, rfl, rfl, h⟩ | ⟨rfl, rfl, rfl, h⟩
  · simp only [h, and_self, if_true]
    rw [if_neg (by decide), hoff, hround, Nat.add_sub_cancel_left,
      Nat.mul_div_cancel_left _ (by decide)]
    rfl
  · simp only [h, and_self, if_true, show ¬ (1 = 2) by decide, false_and, if_false]
    rw [if_neg (by decide), hoff, hround, Nat.add_sub_cancel_left,
      Nat.mul_div_cancel_left _ (by decide)]
    rfl

theorem zErofsLoadClusterFromDisk_compact {vi : Inode} {blk : BlkRead} {m : Maprecorder}
    {lcn pos shift : ℕ} {kaddr : Mem} {lookahead : Bool}
    (hl : vi.datalayout = .compressedCompact) (h32 : vi.sbi.blkRoundUp vi.iSize < 2 ^ 32)
    (hlcn : lcn < vi.sbi.blkRoundUp vi.iSize)
    (hpos : compactedIndexPos vi vi.ebase (vi.sbi.blkRoundUp vi.iSize) lcn = (pos, shift))
    (hblk : blk (vi.sbi.blknr pos) = some kaddr) :
    zErofsLoadClusterFromDisk vi blk m lcn lookahead =
      unpackCompactedIndex vi kaddr { m with lcn := lcn } shift pos lookahead := by
  have hebase : roundUp (vi.iloc + vi.inodeIsize + vi.xattrIsize) 8 + 8 = vi.ebase := rfl
  unfold zErofsLoadClusterFromDisk compactedLoadClusterFromDisk zErofsReloadIndexes
  simp only [hl, u32_of_lt h32, u32_of_lt (lt_trans hlcn h32), if_neg (Nat.not_le.mpr hlcn),
    hebase, hpos, hblk]

section Load

variable {vi : Inode} {blkaddr : ℕ} {es : List InmemExtent} {blk : BlkRead} {mem' : Mem}
  {isize : ℕ}

structure CompactDevice (vi : Inode) (blkaddr : ℕ) (es : List InmemExtent) (blk : BlkRead)
    (mem' : Mem) (isize : ℕ) : Prop where
  file : CompactFile vi blkaddr es
  packs : ∀ lcn < vi.sbi.blkRoundUp vi.iSize,
    PackAt (cvAt vi es) (startCarry vi.sbi.bigPcluster blkaddr) vi.sbi.bigPcluster
      vi.zLogicalClusterbits (vi.packPlace lcn).destsize (vi.packPlace lcn).vcnt
      (vi.packPlace lcn).encodebits mem' (vi.packPlace lcn).first
      (8 + (vi.packPlace lcn).base) ∧
    8 + (vi.packPlace lcn).base + (vi.packPlace lcn).packsz ≤ isize ∧
    (lcn + 1 = vi.sbi.blkRoundUp vi.iSize →
      8 + (vi.packPlace lcn).base + (vi.packPlace lcn).packsz = isize)
  device : DeviceCopies vi.sbi blk vi.ebase mem' 8 (isize - 8)

theorem CompactFile.place (hf : CompactFile vi blkaddr es) {lcn : ℕ}
    (hlcn : lcn < vi.sbi.blkRoundUp vi.iSize) :
    PackShape vi.zLogicalClusterbits (2 ^ (vi.packPlace lcn).amortizedshift)
        (vi.packPlace lcn).vcnt (vi.packPlace lcn).encodebits ∧
      (vi.packPlace lcn).first ≤ lcn ∧
      lcn < (vi.packPlace lcn).first + (vi.packPlace lcn).vcnt ∧
      (vi.packPlace lcn).packsz ∣ vi.ebase + (vi.packPlace lcn).base ∧
      compactedIndexPos vi vi.ebase (vi.sbi.blkRoundUp vi.iSize) lcn =
        (vi.ebase + (vi.packPlace lcn).base +
          (vi.packPlace lcn).destsize * (lcn - (vi.packPlace lcn).first),
          (vi.packPlace lcn).amortizedshift) := by
  have hmpos : vi.mpos % 8 = 0 := by
    unfold Inode.mpos roundUp
    omega
  have hebase : vi.ebase % 8 = 0 := by
    have := hf.ebase_mod
    omega
  obtain ⟨hcounts, -⟩ := counts_compactedCounts hmpos hf.two
  obtain ⟨hpos, h32⟩ := compactedIndexPos_eq hmpos hf.ebase_mod hlcn rfl rfl
  obtain ⟨hfirst, hlast⟩ := hcounts.first_le lcn
  exact ⟨hcounts.shape hf.lclusterbits_le lcn, hfirst, hlast,
    hcounts.aligned hebase h32 lcn, hpos⟩

theorem CompactDevice.load (hd : CompactDevice vi blkaddr es blk mem' isize) {lcn : ℕ}
    (hlcn : lcn < vi.sbi.blkRoundUp vi.iSize) (m : Maprecorder) (lookahead : Bool) :
    ∃ dec base,
      zErofsLoadClusterFromDisk vi blk m lcn lookahead =
        unpackCompactedSlot vi { m with
            lcn := lcn
            nextpackoff := vi.ebase + (vi.packPlace lcn).base + (vi.packPlace lcn).packsz } dec
          (vi.packPlace lcn).vcnt (lcn - (vi.packPlace lcn).first) base lookahead ∧
      SlotsDecoded vi es (compactedLobits vi.zLogicalClusterbits) (vi.packPlace lcn).vcnt
        (vi.packPlace lcn).first dec ∧
      BaseOk vi blkaddr es (vi.packPlace lcn).first base := by
  have hf := hd.file
  obtain ⟨hshape, hfirst, hlast, hdvd, hpos⟩ := hf.place hlcn
  obtain ⟨hpack, hisize, -⟩ := hd.packs lcn hlcn
  have hblk : (vi.packPlace lcn).packsz ∣ vi.sbi.blksz := by
    have h32 : 2 ^ 5 ∣ vi.sbi.blksz :=
      pow_dvd_pow 2 (le_trans (by decide : 5 ≤ 9) hf.blksz_ge)
    refine Nat.dvd_trans ?_ h32
    unfold PackPlace.packsz PackPlace.destsize
    rcases hshape.cases_shift with ⟨h₁, h₂, -, -⟩ | ⟨h₁, h₂, -, -⟩ <;> rw [h₁, h₂] <;> decide
  have hszpos : 0 < (vi.packPlace lcn).packsz :=
    Nat.mul_pos (Nat.two_pow_pos _) (by omega)
  obtain ⟨kaddr, hkaddr, hcopy⟩ := hd.device.block hblk hdvd hszpos (by omega)
  have hpack' : PackHolds kaddr (compactedLobits vi.zLogicalClusterbits)
      (2 ^ (vi.packPlace lcn).amortizedshift) (vi.packPlace lcn).vcnt
      (vi.packPlace lcn).encodebits (vi.sbi.blkoff (vi.ebase + (vi.packPlace lcn).base)) _ _ :=
    PackHolds.congr hshape hcopy hpack
  have hunpack := unpackCompactedIndex_eq hshape
    (i := lcn - (vi.packPlace lcn).first) (by omega) hdvd hblk kaddr { m with lcn := lcn }
    lookahead
  have hnext : roundDown (vi.ebase + (vi.packPlace lcn).base +
      2 ^ (vi.packPlace lcn).amortizedshift * (lcn - (vi.packPlace lcn).first))
        ((vi.packPlace lcn).vcnt * 2 ^ (vi.packPlace lcn).amortizedshift) +
      (vi.packPlace lcn).vcnt * 2 ^ (vi.packPlace lcn).amortizedshift =
        vi.ebase + (vi.packPlace lcn).base + (vi.packPlace lcn).packsz := by
    have hlt : 2 ^ (vi.packPlace lcn).amortizedshift * (lcn - (vi.packPlace lcn).first) <
        (vi.packPlace lcn).packsz :=
      Nat.mul_lt_mul_of_pos_left (by omega) (Nat.two_pow_pos _)
    obtain ⟨t, ht⟩ := hdvd
    rw [Nat.mul_comm (vi.packPlace lcn).vcnt]
    change roundDown _ (vi.packPlace lcn).packsz + (vi.packPlace lcn).packsz = _
    rw [roundDown, ht, Nat.mul_add_div hszpos, Nat.div_eq_of_lt hlt, Nat.add_zero, Nat.mul_comm]
  rw [hnext] at hunpack
  have hnr : vi.sbi.blknr (vi.ebase + (vi.packPlace lcn).base +
      (vi.packPlace lcn).destsize * (lcn - (vi.packPlace lcn).first)) =
      vi.sbi.blknr (vi.ebase + (vi.packPlace lcn).base) := by
    apply (blknr_blkoff_add hblk hdvd ?_).1
    exact Nat.mul_lt_mul_of_pos_left (by omega) (Nat.two_pow_pos _)
  refine ⟨_, leNat kaddr (vi.sbi.blkoff (vi.ebase + (vi.packPlace lcn).base) +
    2 ^ (vi.packPlace lcn).amortizedshift * (vi.packPlace lcn).vcnt - 4) 4, ?_,
    fun i hi => hpack'.fields i hi, ?_⟩
  · have h32 : vi.sbi.blkRoundUp vi.iSize < 2 ^ 32 := by
      have := hf.metasize_lt
      omega
    rw [zErofsLoadClusterFromDisk_compact hf.layout h32 hlcn hpos (by rw [hnr, hkaddr])]
    exact hunpack
  · rw [hpack'.addr_eq]
    obtain ⟨n, hn⟩ : ∃ n, (vi.packPlace lcn).vcnt = n + 1 :=
      Nat.exists_eq_succ_of_ne_zero (by omega)
    rw [hn]
    exact baseOk hf.spans blkaddr _ n

/-- The count of a pack never meets a distance that it rejects. -/
theorem compactedNblkBig_isOk {dec : ℕ → ℕ × LclusterType} {i : ℕ}
    (h : ∀ k < i, (dec k).2 = .nonhead → (dec k).1 &&& d0Cblkcnt = 0 → 2 ≤ (dec k).1)
    (n : ℕ) : ∃ r, compactedNblkBig dec i n = .ok r := by
  induction i using Nat.strong_induction_on generalizing n with
  | _ i ih =>
      cases i with
      | zero => exact ⟨n, by rw [compactedNblkBig]⟩
      | succ k =>
          rw [compactedNblkBig]
          split_ifs with ht hc hlo
          · exact ih _ (by omega) (fun j hj => h j (by omega)) _
          · have := h k (by omega) ht (not_not.mp hc)
            omega
          · exact ih _ (by omega) (fun j hj => h j (by omega)) _
          · exact ih _ (by omega) (fun j hj => h j (by omega)) _

theorem unpackCompactedSlot_head {m : Maprecorder} {dec : ℕ → ℕ × LclusterType}
    {vcnt i base ofs nblk : ℕ} {t : LclusterType} {lookahead : Bool} (hdec : dec i = (ofs, t))
    (ht : t ≠ .nonhead)
    (hn : if vi.zAdvise.bigPcluster1 = true then compactedNblkBig dec i 0 = .ok nblk
      else compactedNblk dec i 1 = nblk) :
    unpackCompactedSlot vi m dec vcnt i base lookahead = .ok { m with
      type := t, clusterofs := ofs, delta0 := 0, pblk := u32 (base + nblk) } := by
  unfold unpackCompactedSlot
  cases hb : vi.zAdvise.bigPcluster1 with
  | false =>
      rw [hb, if_neg (by simp)] at hn
      simp [hdec, ht, hn]
  | true =>
      rw [hb, if_pos rfl] at hn
      simp [hdec, ht, hn]

/-- The distances in the slots of a pack, in front of its last one, are at least two. -/
theorem SlotsDecoded.two_le {lobits vcnt first k : ℕ} {dec : ℕ → ℕ × LclusterType}
    (hdec : SlotsDecoded vi es lobits vcnt first dec) (hf : CompactFile vi blkaddr es)
    (hbig : vi.sbi.bigPcluster = true) (hk : k + 1 < vcnt)
    (hlt : first + k < vi.sbi.blkRoundUp vi.iSize) (htype : (dec k).2 = .nonhead)
    (hbit : (dec k).1 &&& d0Cblkcnt = 0) : 2 ≤ (dec k).1 := by
  rw [← hf.length_slots] at hlt
  rw [hdec k (by omega)] at htype hbit ⊢
  rcases slot_cases vi.sbi.blksz_pos hf.spans hlt with ⟨pre, e, post, i, rfl, hi, hlti⟩ |
    ⟨hpad, -⟩
  · rw [hi] at htype hbit ⊢
    rcases Nat.eq_zero_or_pos i with hz | hpos
    · rw [hz, Nat.add_zero] at htype
      exact absurd ((cvAt_head hf.spans).1.symm.trans htype) (headtype_ne_nonhead e)
    · by_cases h1 : i = 1
      · subst h1
        rw [cvAt_cblkcnt hf.spans hbig (by omega)] at hbit
        unfold CompressindexVec.field CompressindexVec.offset at hbit
        rw [delta0_mk_deltas, if_pos rfl, if_pos (u16_or_d0Cblkcnt _)] at hbit
        exact absurd hbit (u16_or_d0Cblkcnt _)
      · rw [cvAt_nonhead hf.spans (by omega) (by omega) (by omega)]
        unfold CompressindexVec.field CompressindexVec.offset
        rw [delta0_mk_deltas, (u16_min_d0Cblkcnt i).1, if_pos rfl,
          if_neg (not_not.mpr (u16_min_d0Cblkcnt i).2), if_neg (by omega)]
        simp only [show d0Cblkcnt = 2048 from rfl]
        omega
  · rw [cvAt, hpad] at htype
    simp [CompressindexVec.field, CompressindexVec.ofIndex, Slot.index,
      LclusterIndex.type] at htype

/-- A slot that is not NONHEAD is loaded as it was written. Where a part of the file starts, the
reader finds the address behind the blocks of all extents in front of it. -/
theorem CompactDevice.load_slot (hd : CompactDevice vi blkaddr es blk mem' isize) {lcn : ℕ}
    (hlcn : lcn < vi.sbi.blkRoundUp vi.iSize) (ht : (cvAt vi es lcn).clustertype ≠ .nonhead)
    (m : Maprecorder) (lookahead : Bool) :
    ∃ m', zErofsLoadClusterFromDisk vi blk m lcn lookahead = .ok m' ∧ m'.lcn = lcn ∧
      m'.type = (cvAt vi es lcn).clustertype ∧ m'.clusterofs = (cvAt vi es lcn).clusterofs ∧
      m'.compressedblks = m.compressedblks ∧ m'.headtype = m.headtype ∧
      ∀ pre rest, es = pre ++ rest → AllCounted vi pre → totalLength pre / vi.sbi.blksz = lcn →
        m'.pblk = u32 (blkaddr + totalBlocks pre) := by
  have hf := hd.file
  obtain ⟨hshape, hfirst, hlast, -, -⟩ := hf.place hlcn
  obtain ⟨dec, base, hload, hdec, hbase⟩ := hd.load hlcn m lookahead
  have hvcnt : (vi.packPlace lcn).vcnt ≤ 16 := by
    rcases hshape.cases_shift with ⟨-, h, -, -⟩ | ⟨-, h, -, -⟩ <;> omega
  generalize vi.packPlace lcn = p at *
  have hpos : p.first + (lcn - p.first) = lcn := by omega
  have hslot : dec (lcn - p.first) =
      ((cvAt vi es lcn).clusterofs, (cvAt vi es lcn).clustertype) := by
    rw [hdec _ (by omega), hpos]
    unfold CompressindexVec.field CompressindexVec.offset
    rw [if_neg ht]
  rw [hload]
  cases hb : vi.sbi.bigPcluster with
  | true =>
      have hdelta (k : ℕ) (hk : k < lcn - p.first) := hdec.two_le hf hb (k := k) (by omega)
        (by omega)
      obtain ⟨r, hr⟩ := compactedNblkBig_isOk hdelta 0
      rw [unpackCompactedSlot_head hslot ht (by rw [hf.big, hb, if_pos rfl]; exact hr)]
      refine ⟨_, rfl, rfl, rfl, rfl, rfl, rfl, ?_⟩
      rintro pre rest rfl hc rfl
      rw [← hf.length_slots] at hlcn
      obtain ⟨r', hr', hmod⟩ := compactedNblkBig_eq (n := 0) hdec hf.spans hb hbase hvcnt hc
        (by omega) hpos (by omega)
      rw [Nat.zero_add, hr] at hr'
      rw [← Except.ok.inj hr'] at hmod
      exact hmod
  | false =>
      have hn : if vi.zAdvise.bigPcluster1 = true then compactedNblkBig dec (lcn - p.first) 0 =
            .ok (compactedNblk dec (lcn - p.first) 1)
          else compactedNblk dec (lcn - p.first) 1 = compactedNblk dec (lcn - p.first) 1 := by
        rw [hf.big, hb, if_neg (by simp)]
      rw [unpackCompactedSlot_head hslot ht hn]
      refine ⟨_, rfl, rfl, rfl, rfl, rfl, rfl, ?_⟩
      rintro pre rest rfl hc rfl
      rw [← hf.length_slots] at hlcn
      obtain ⟨r, hr, hmod⟩ := compactedNblk_eq (n := 1) hdec hf.spans hb hbase hvcnt hc
        (by omega) hpos (by omega)
      rw [Nat.add_assoc, ← hr] at hmod
      exact hmod

theorem CompactDevice.load_head {pre post : List InmemExtent} {e : InmemExtent}
    (hd : CompactDevice vi blkaddr (pre ++ e :: post) blk mem' isize)
    (hlcn : totalLength pre / vi.sbi.blksz < vi.sbi.blkRoundUp vi.iSize) (m : Maprecorder)
    (lookahead : Bool) :
    ∃ m', zErofsLoadClusterFromDisk vi blk m (totalLength pre / vi.sbi.blksz) lookahead =
        .ok m' ∧
      m'.lcn = totalLength pre / vi.sbi.blksz ∧ m'.type = e.headtype ∧
      m'.clusterofs = totalLength pre % vi.sbi.blksz ∧
      m'.compressedblks = m.compressedblks ∧ m'.headtype = m.headtype ∧
      (CountsCarried (pre ++ e :: post) → m'.pblk = u32 e.blkaddr) := by
  have hf := hd.file
  obtain ⟨ht, ho⟩ := cvAt_head hf.spans
  obtain ⟨m', hload, hlcn', htype, hofs, hc, hkeep, hpblk⟩ :=
    hd.load_slot hlcn (by rw [ht]; exact headtype_ne_nonhead e) m lookahead
  rw [ht] at htype
  rw [ho, hf.u16_mod] at hofs
  refine ⟨m', hload, hlcn', htype, hofs, hc, hkeep, ?_⟩
  intro hcarried
  rw [hpblk pre (e :: post) rfl (hf.allCounted hcarried rfl (by simp)) rfl,
    hf.addrs pre e post rfl]

theorem unpackCompactedSlot_cblkcnt {m : Maprecorder} {dec : ℕ → ℕ × LclusterType}
    {vcnt i base lo : ℕ} {lookahead : Bool} (hdec : dec i = (lo, .nonhead))
    (hlo : lo &&& d0Cblkcnt ≠ 0) (hb : vi.zAdvise.bigPcluster1 = true) :
    ∃ delta1, unpackCompactedSlot vi m dec vcnt i base lookahead = .ok { m with
      type := .nonhead, clusterofs := u16 (2 ^ vi.zLogicalClusterbits), delta0 := 1
      delta1 := delta1, compressedblks := lo - d0Cblkcnt } := by
  unfold unpackCompactedSlot
  simp only [hdec, if_true, if_pos hlo, hb, not_true, if_false]
  exact ⟨_, rfl⟩

/-- The distance of the last slot of a pack, short by one, from the slot in front of it. -/
def prevDistance (prev : ℕ × LclusterType) : ℕ :=
  if prev.2 ≠ .nonhead then 0 else if prev.1 &&& d0Cblkcnt ≠ 0 then 1 else prev.1

theorem unpackCompactedSlot_nonhead {m : Maprecorder} {dec : ℕ → ℕ × LclusterType}
    {vcnt i base lo : ℕ} {lookahead : Bool} (hdec : dec i = (lo, .nonhead))
    (hlo : lo &&& d0Cblkcnt = 0) :
    ∃ delta1, unpackCompactedSlot vi m dec vcnt i base lookahead = .ok { m with
      type := .nonhead, clusterofs := u16 (2 ^ vi.zLogicalClusterbits)
      delta0 := if i + 1 = vcnt then u16 (prevDistance (dec (i - 1)) + 1) else lo
      delta1 := delta1 } := by
  unfold unpackCompactedSlot
  simp only [hdec, if_true, hlo, ne_eq, not_true, if_false]
  by_cases hi : i + 1 = vcnt
  · rw [if_neg (not_not.mpr hi), if_pos hi]
    exact ⟨_, rfl⟩
  · rw [if_pos hi, if_neg hi]
    exact ⟨_, rfl⟩

/-- The last slot of a pack stores the distance to the next head. -/
theorem SlotsDecoded.last {pre post : List InmemExtent} {e : InmemExtent} {lobits vcnt first k : ℕ}
    {dec : ℕ → ℕ × LclusterType} (hdec : SlotsDecoded vi (pre ++ e :: post) lobits vcnt first dec)
    (hs : Spans vi.sbi.blksz 0 (pre ++ e :: post)) {i : ℕ} (h0 : i ≠ 0)
    (hi : i < extentSpan vi.sbi.blksz (totalLength pre) e)
    (h1 : ¬ (i = 1 ∧ vi.sbi.bigPcluster = true)) (hk : k + 1 = vcnt)
    (hpos : first + k = totalLength pre / vi.sbi.blksz + i) :
    dec k = (min (u16 (extentSpan vi.sbi.blksz (totalLength pre) e - i)) (2 ^ lobits - 1),
      .nonhead) := by
  rw [hdec k (by omega), hpos, cvAt_nonhead hs h0 hi h1]
  unfold CompressindexVec.field CompressindexVec.offset
  rw [delta0_mk_deltas, (u16_min_d0Cblkcnt i).1, if_pos rfl,
    if_neg (not_not.mpr (u16_min_d0Cblkcnt i).2), if_pos hk, delta1_mk_deltas]

/-- The slot in front of lcluster `i` of an extent shows a distance that stays inside it. -/
theorem SlotsDecoded.prev {pre post : List InmemExtent} {e : InmemExtent} {lobits vcnt first k : ℕ}
    {dec : ℕ → ℕ × LclusterType} (hdec : SlotsDecoded vi (pre ++ e :: post) lobits vcnt first dec)
    (hs : Spans vi.sbi.blksz 0 (pre ++ e :: post)) {i : ℕ} (h0 : i ≠ 0)
    (hi : i < extentSpan vi.sbi.blksz (totalLength pre) e) (hk0 : k ≠ 0) (hk : k < vcnt)
    (hpos : first + k = totalLength pre / vi.sbi.blksz + i) :
    prevDistance (dec (k - 1)) + 1 ≤ i ∧ prevDistance (dec (k - 1)) < 2048 := by
  have hd0 : d0Cblkcnt = 2048 := rfl
  unfold prevDistance
  by_cases hi1 : i = 1
  · have hh := hdec.head hs (k := k - 1) (by omega) (by omega)
    rw [if_pos (by
      rw [hh]
      exact headtype_ne_nonhead e)]
    omega
  · by_cases hi2 : i - 1 = 1 ∧ vi.sbi.bigPcluster = true
    · have hc := hdec.cblkcnt hs hi2.2 (by omega) (k := k - 1) (by omega) (by omega)
      have hne := u16_or_d0Cblkcnt e.compressedblks
      rw [hc]
      simp only [ne_eq, not_true, if_false, if_pos hne]
      omega
    · have hn := hdec.nonhead hs (i := i - 1) (by omega) (by omega) hi2 (k := k - 1)
        (by omega) (by omega)
      rw [hn]
      simp only [ne_eq, not_true, if_false, (u16_min_d0Cblkcnt (i - 1)).2]
      rw [hd0]
      omega

theorem CompactDevice.load_nonhead {pre post : List InmemExtent} {e : InmemExtent}
    (hd : CompactDevice vi blkaddr (pre ++ e :: post) blk mem' isize)
    (hclear : ExtentClear vi pre e ∨ vi.sbi.bigPcluster = true) {i : ℕ} (h0 : i ≠ 0)
    (hi : i < extentSpan vi.sbi.blksz (totalLength pre) e)
    (hlcn : totalLength pre / vi.sbi.blksz + i < vi.sbi.blkRoundUp vi.iSize)
    (m : Maprecorder) (lookahead : Bool) :
    ∃ m', zErofsLoadClusterFromDisk vi blk m (totalLength pre / vi.sbi.blksz + i) lookahead =
        .ok m' ∧
      m'.lcn = totalLength pre / vi.sbi.blksz + i ∧ m'.type = .nonhead ∧
      m'.clusterofs = u16 (2 ^ vi.zLogicalClusterbits) ∧ m'.delta0 ≠ 0 ∧ m'.delta0 ≤ i ∧
      m'.headtype = m.headtype ∧
      (i = 1 → vi.sbi.bigPcluster = true → m'.delta0 = 1 ∧
        m'.compressedblks = storedCblkcnt e.compressedblks) ∧
      (ExtentClear vi pre e → m'.compressedblks = (if i = 1 ∧ vi.sbi.bigPcluster = true
        then storedCblkcnt e.compressedblks else m.compressedblks)) := by
  have hf := hd.file
  have hd0 : d0Cblkcnt = 2048 := rfl
  obtain ⟨hshape, hfirst, hlast, -, -⟩ := hf.place hlcn
  obtain ⟨dec, base, hload, hdec, -⟩ := hd.load hlcn m lookahead
  have hvcnt : 2 ≤ (vi.packPlace (totalLength pre / vi.sbi.blksz + i)).vcnt := by
    rcases hshape.cases_shift with ⟨-, h, -, -⟩ | ⟨-, h, -, -⟩ <;> omega
  have hends (hc : ExtentClear vi pre e) := hc i h0 hi
  unfold Inode.EndsPack at hends
  generalize vi.packPlace (totalLength pre / vi.sbi.blksz + i) = p at *
  generalize hk : totalLength pre / vi.sbi.blksz + i - p.first = k at *
  have hpos : p.first + k = totalLength pre / vi.sbi.blksz + i := by omega
  rw [hload]
  by_cases h1 : i = 1 ∧ vi.sbi.bigPcluster = true
  · obtain ⟨rfl, hb⟩ := h1
    obtain ⟨delta1, hslot⟩ := unpackCompactedSlot_cblkcnt
      (hdec.cblkcnt hf.spans hb hi (k := k) (by omega) hpos) (u16_or_d0Cblkcnt _)
      (by rw [hf.big, hb])
    rw [hslot]
    exact ⟨_, rfl, rfl, rfl, rfl, Nat.one_ne_zero, le_rfl, rfl, fun _ _ => ⟨rfl, rfl⟩,
      fun _ => by simp [hb, storedCblkcnt]⟩
  · rcases Nat.lt_or_ge (k + 1) p.vcnt with hk1 | hk1
    · obtain ⟨delta1, hslot⟩ := unpackCompactedSlot_nonhead
        (hdec.nonhead hf.spans h0 hi h1 hk1 hpos) (u16_min_d0Cblkcnt i).2
      rw [hslot, if_neg (by omega)]
      refine ⟨_, rfl, rfl, rfl, rfl, ?_, Nat.min_le_left _ _, rfl, fun h hb => absurd ⟨h, hb⟩ h1,
        fun _ => by rw [if_neg h1]⟩
      simp only [hd0]
      omega
    · -- the last slot of the pack: the distance comes from the slot in front of it
      have hkv : k + 1 = p.vcnt := by omega
      have hslotk := hdec.last hf.spans h0 hi h1 hkv hpos
      by_cases hbit : min (u16 (extentSpan vi.sbi.blksz (totalLength pre) e - i))
          (2 ^ compactedLobits vi.zLogicalClusterbits - 1) &&& d0Cblkcnt = 0
      · obtain ⟨delta1, hslot⟩ := unpackCompactedSlot_nonhead hslotk hbit
        have hprev := hdec.prev hf.spans h0 hi (k := k) (by omega) (by omega) hpos
        rw [hslot, if_pos hkv]
        refine ⟨_, rfl, rfl, rfl, rfl, ?_, ?_, rfl, fun h hb => absurd ⟨h, hb⟩ h1,
          fun _ => by rw [if_neg h1]⟩
        all_goals
          simp only
          rw [u16_of_lt (by omega)]
          omega
      · -- its bit 11 is taken for the mark of a count, which big pclusters let pass
        have hnot : ¬ ExtentClear vi pre e := fun h => hbit (hends h h1 (by omega))
        obtain ⟨delta1, hslot⟩ := unpackCompactedSlot_cblkcnt hslotk hbit
          (by rw [hf.big, hclear.resolve_left hnot])
        rw [hslot]
        exact ⟨_, rfl, rfl, rfl, rfl, Nat.one_ne_zero, Nat.one_le_iff_ne_zero.mpr h0, rfl,
          fun h hb => absurd ⟨h, hb⟩ h1, fun h => absurd h hnot⟩

theorem CompactDevice.load_pad (hd : CompactDevice vi blkaddr es blk mem' isize) {lcn : ℕ}
    (hpad : (fileSlots vi.sbi.blksz 0 es)[lcn]? = some (.pad (totalLength es % vi.sbi.blksz)))
    (m : Maprecorder) (lookahead : Bool) :
    ∃ m', zErofsLoadClusterFromDisk vi blk m lcn lookahead = .ok m' ∧
      m'.lcn = lcn ∧ m'.type = .plain ∧ m'.clusterofs = totalLength es % vi.sbi.blksz ∧
      m'.compressedblks = m.compressedblks ∧ m'.headtype = m.headtype := by
  have hf := hd.file
  have hlt := (List.getElem?_eq_some_iff.mp hpad).1
  rw [hf.length_slots] at hlt
  have hcv : (cvAt vi es lcn).clustertype = .plain ∧
      (cvAt vi es lcn).clusterofs = totalLength es % vi.sbi.blksz := by
    rw [cvAt, hpad]
    simp [CompressindexVec.ofIndex, Slot.index, LclusterIndex.type, hf.u16_mod]
  obtain ⟨m', hload, hlcn, htype, hofs, hc, hkeep, -⟩ :=
    hd.load_slot hlt (by rw [hcv.1]; decide) m lookahead
  exact ⟨m', hload, hlcn, htype.trans hcv.1, hofs.trans hcv.2, hc, hkeep⟩

theorem CompactFile.size_lt (hf : CompactFile vi blkaddr es) : vi.iSize < 2 ^ 63 := by
  have hlt := hf.metasize_lt
  have hsz := hf.blksz_le
  have hdiv := Nat.lt_mul_div_succ (vi.iSize + (vi.sbi.blksz - 1)) vi.sbi.blksz_pos
  change _ < _ * (vi.sbi.blkRoundUp vi.iSize + 1) at hdiv
  have hmul : vi.sbi.blksz * (vi.sbi.blkRoundUp vi.iSize + 1) ≤ 2 ^ 14 * 2 ^ 29 :=
    Nat.mul_le_mul hsz (by omega)
  omega

theorem CompactDevice.load_start (hd : CompactDevice vi blkaddr es blk mem' isize) {lcn n : ℕ}
    {s : Slot} (hs : (fileSlots vi.sbi.blksz 0 es)[lcn]? = some s)
    (hstart : s.StartsAt (n % vi.sbi.blksz)) (m : Maprecorder) (lookahead : Bool) :
    ∃ m', zErofsLoadClusterFromDisk vi blk m lcn lookahead = .ok m' ∧ m'.lcn = lcn ∧
      (m'.type = .plain ∨ m'.type = .head1) ∧ m'.clusterofs = n % vi.sbi.blksz ∧
      m'.compressedblks = m.compressedblks ∧ m'.headtype = m.headtype := by
  have hf := hd.file
  have hb := vi.sbi.blksz_pos
  have hlt := (List.getElem?_eq_some_iff.mp hs).1
  rcases slot_cases hb hf.spans hlt with ⟨pre, e, post, i, rfl, rfl, hi⟩ | ⟨hpad, -⟩
  · rcases Nat.eq_zero_or_pos i with rfl | hpos
    · rw [Nat.add_zero] at hs hlt ⊢
      rw [hf.length_slots] at hlt
      obtain ⟨p, d1, hslot⟩ := slot_head hb hf.spans
      obtain rfl := Option.some.inj (hs.symm.trans hslot)
      obtain ⟨m', hload, hlcn, htype, hofs, hc, hkeep, -⟩ := hd.load_head hlt m lookahead
      exact ⟨m', hload, hlcn, htype ▸ e.headtype_cases, hofs.trans hstart.2, hc, hkeep⟩
    · have hslot := slot_of_lt_span hb hf.spans (show i < extentSpan _ _ e by omega)
      obtain rfl := Option.some.inj (hs.symm.trans hslot)
      exact absurd hstart.1 (by omega)
  · obtain rfl := Option.some.inj (hs.symm.trans hpad)
    obtain ⟨m', hload, hlcn, htype, hofs, hc, hkeep⟩ := hd.load_pad hpad m lookahead
    exact ⟨m', hload, hlcn, Or.inl htype, hofs.trans hstart, hc, hkeep⟩

theorem CompactFile.lcn_lt {pre post : List InmemExtent} {e : InmemExtent}
    (hf : CompactFile vi blkaddr (pre ++ e :: post)) {i : ℕ}
    (hi : i < max (extentSpan vi.sbi.blksz (totalLength pre) e) 1) :
    totalLength pre / vi.sbi.blksz + i < vi.sbi.blkRoundUp vi.iSize := by
  have hb := vi.sbi.blksz_pos
  rw [← hf.length_slots]
  rcases Nat.eq_zero_or_pos i with rfl | hpos
  · obtain ⟨p, d1, hslot⟩ := slot_head hb hf.spans
    exact (List.getElem?_eq_some_iff.mp hslot).1
  · have hslot := slot_of_lt_span hb hf.spans (show i < extentSpan _ _ e by omega)
    exact (List.getElem?_eq_some_iff.mp hslot).1

/-- What the packs show of `e`: its block count as long as they keep bit 11 clear, and its address
as long as every count in front of it is carried. -/
def compactShown (vi : Inode) (pre : List InmemExtent) (e : InmemExtent)
    (post : List InmemExtent) : Shown where
  count := fun pos e' c => ExtentClear vi pre e → Recorded vi pos e' c
  addr := fun e' pblk => CountsCarried (pre ++ e :: post) → pblk = e'.headBlkaddr vi

variable {pre post : List InmemExtent} {e : InmemExtent}

/-- The index of either layout is seen in the same way. -/
theorem CompactDevice.indexed (hd : CompactDevice vi blkaddr (pre ++ e :: post) blk mem' isize)
    (hclear : ExtentClear vi pre e ∨ vi.sbi.bigPcluster = true) :
    Indexed vi blk pre e post (compactShown vi pre e post) where
  blksz_ge := hd.file.blksz_ge
  blksz_le := by
    rw [← hd.file.lclusterbits]
    exact le_trans hd.file.lclusterbits_le (by decide)
  lclusterbits := hd.file.lclusterbits
  big := hd.file.big
  size := hd.file.size
  size_lt := hd.file.size_lt
  spans := hd.file.spans
  head := by
    intro m lookahead
    have hlcn := hd.file.lcn_lt (i := 0) (Nat.lt_of_lt_of_le Nat.one_pos (Nat.le_max_right _ _))
    obtain ⟨m', hload, hm, htype, hofs, hc, -, hpblk⟩ := hd.load_head hlcn m lookahead
    refine ⟨m', hload, hm, htype, hofs, ?_, hc⟩
    intro hcarried
    simp only [InmemExtent.headBlkaddr, hd.file.layout, reduceCtorEq, false_and, if_false]
    exact hpblk hcarried
  nonhead := by
    intro i h0 hi m lookahead
    obtain ⟨m', hload, hm, htype, hofs, hd0, hdi, hkeep, hcount, hclr⟩ :=
      hd.load_nonhead hclear h0 hi (hd.file.lcn_lt (by omega)) m lookahead
    refine ⟨m', hload, hm, htype, hofs, hd0, hdi, hkeep, hcount, ?_⟩
    by_cases hends : ExtentClear vi pre e
    · have hc := hclr hends
      split_ifs at hc with h1
      · exact Or.inr fun _ => ⟨h1.2, by omega, hc⟩
      · exact Or.inl hc
    · exact Or.inr fun h => absurd h hends
  start := by
    intro lcn n s hs hstart
    exact hd.load_start hs hstart

end Load

end ErofsUtils
