import ErofsUtils.CompactRoundTrip
import ErofsUtils.RawExtent
import ErofsUtils.BufMgrPlace

/-!
# Dropping an inlined tail

When the compressed tail of a file finds no place behind the inode, its raw copy takes a block of
its own, and `z_erofs_drop_inline_pcluster` turns the index of the last lcluster into that of a
plain one. In the COMPACT layout it takes the last pack to be one of 4-byte slots; the main theorem
says when the patch is right.
-/

namespace ErofsUtils
namespace DropInline
open ByteMemory BitPacking

/-- `h_idata_size` and `h_advise` of `struct z_erofs_map_header`. -/
def hIdataSize (mem : Mem) : ℕ := leNat mem 2 2

def hAdvise (mem : Mem) : ℕ := leNat mem 4 2

/-- `~Z_EROFS_ADVISE_INLINE_PCLUSTER` in 16 bits. -/
def adviseMask : ℕ := 2 ^ 16 - 1 - 2 ^ 3

/-- What the function finds and leaves in `struct erofs_inode`; `eof_tailrawsize` is the length of
`eof_tailraw`. -/
structure TailState where
  compressmeta : Mem
  extentIsize : ℕ
  eofTailraw : Option (List UInt8)
  inlineData : InlineData

/-- `inodesize` of `erofs_prepare_inode_buffer`. -/
def inodesize (vi : Inode) (extentIsize : ℕ) : ℕ :=
  if extentIsize ≠ 0 then roundUp (vi.inodeIsize + vi.xattrIsize) 8 + extentIsize
  else vi.inodeIsize + vi.xattrIsize

/-- The map header without inline data. -/
def clearInline (mem : Mem) : Mem :=
  store (store mem 4 (leBytes 2 (hAdvise mem &&& adviseMask))) 2 (leBytes 2 0)

/-- Where the patch of a COMPACT inode goes: `pos / 8` behind `base`. -/
def patchPos (extentIsize n : ℕ) : ℕ :=
  let eofs := extentIsize - 4 * 2 ^ (n % 2)
  let base := roundDown eofs 8
  let pos := 16 * ((eofs - base) / 4)
  base + pos / 8

def patchSlot (sbi : SbInfo) (mem : Mem) (a : ℕ) : Mem :=
  let lo := sbi.blkoff (leNat mem a 4)
  store mem a (leBytes 2 (LclusterType.plain.toNat * 2 ^ sbi.blkszbits ||| lo))

def patchIndex (mem : Mem) (extentIsize : ℕ) : Mem :=
  store mem (extentIsize - 8) (leBytes 2 LclusterType.plain.toNat)

def zErofsDropInlinePcluster (vi : Inode) (s : TailState) : TailState :=
  let mem := clearInline s.compressmeta
  match s.eofTailraw with
  | none => { s with compressmeta := mem }
  | some tail =>
    if vi.datalayout = .compressedFull then
      { s with
        compressmeta := patchIndex mem s.extentIsize
        inlineData := s.inlineData.drop (some tail)
        eofTailraw := none }
    else if vi.datalayout = .compressedCompact then
      { s with
        compressmeta :=
          patchSlot vi.sbi mem (patchPos s.extentIsize (vi.sbi.blkRoundUp vi.iSize))
        inlineData := s.inlineData.drop (some tail)
        eofTailraw := none }
    else { s with compressmeta := mem }

def indexAt (mem : Mem) (lcn : ℕ) : LclusterIndex :=
  LclusterIndex.decode mem (legacyMapHeaderSize + 8 * lcn)

def slotAt (vi : Inode) (mem : Mem) (lcn : ℕ) : ℕ × LclusterType :=
  decodeCompactedbits mem (compactedLobits vi.zLogicalClusterbits) (8 + (vi.packPlace lcn).base)
    ((vi.packPlace lcn).encodebits * (lcn - (vi.packPlace lcn).first))

def packBlkaddrAt (vi : Inode) (mem : Mem) (lcn : ℕ) : ℕ :=
  leNat mem (8 + (vi.packPlace lcn).base + (vi.packPlace lcn).packsz - 4) 4

/-- From `mem` to `mem'` only the last lcluster has become a plain one. -/
structure DropsTail (vi : Inode) (mem mem' : Mem) : Prop where
  advise : Advise.ofNat (hAdvise mem') =
    { Advise.ofNat (hAdvise mem) with inlinePcluster := false }
  idataSize : hIdataSize mem' = 0
  index : vi.datalayout = .compressedFull → ∀ lcn < vi.sbi.blkRoundUp vi.iSize,
    if lcn + 1 = vi.sbi.blkRoundUp vi.iSize then
      (indexAt mem' lcn).type = .plain ∧ (indexAt mem' lcn).clusterofs =
        (indexAt mem lcn).clusterofs ∧ (indexAt mem' lcn).u = (indexAt mem lcn).u
    else indexAt mem' lcn = indexAt mem lcn
  slot : vi.datalayout = .compressedCompact → ∀ lcn < vi.sbi.blkRoundUp vi.iSize,
    if lcn + 1 = vi.sbi.blkRoundUp vi.iSize then
      slotAt vi mem' lcn = ((slotAt vi mem lcn).1, .plain)
    else slotAt vi mem' lcn = slotAt vi mem lcn
  packBlkaddr : vi.datalayout = .compressedCompact → ∀ lcn < vi.sbi.blkRoundUp vi.iSize,
    packBlkaddrAt vi mem' lcn = packBlkaddrAt vi mem lcn

/-- The indexes that `erofs_commit_compressed_file` leaves for the extents of a file, with their
`extent_isize`. -/
inductive Committed (vi : Inode) (es : List InmemExtent) : Mem → ℕ → Prop
  | full {mem : Mem} : vi.datalayout = .compressedFull → vi.iSize = totalLength es →
      Spans vi.sbi.blksz 0 es → legacyMapHeaderSize + 8 * vi.sbi.blkRoundUp vi.iSize < 2 ^ 32 →
      Holds mem legacyMapHeaderSize ((zErofsWriteIndexes vi es).flatMap LclusterIndex.encode) →
      Committed vi es mem (legacyMapHeaderSize + 8 * (zErofsWriteIndexes vi es).length)
  | compact {blkaddr isize : ℕ} {mem mem' : Mem} : CompactFile vi blkaddr es →
      Holds mem legacyMapHeaderSize ((zErofsWriteIndexes vi es).flatMap LclusterIndex.encode) →
      zErofsConvertToCompactedFormat vi blkaddr
        (legacyMapHeaderSize + 8 * (zErofsWriteIndexes vi es).length) mem = .ok (mem', isize) →
      Committed vi es mem' isize

/-- A compressed tail `e` behind the extents `pre` that was inlined with its raw copy: both are in
the last lcluster. -/
structure RawTail (vi : Inode) (pre : List InmemExtent) (e : InmemExtent) (tail : List UInt8) :
    Prop where
  raw : e.raw = false
  inlined : e.inlined = true
  inside : totalLength pre % vi.sbi.blksz + e.length ≤ vi.sbi.blksz
  tail : tail.length = e.length

/-- The last pack of the file has 2-byte slots. -/
def EndsIn2B (vi : Inode) : Prop :=
  0 < (compactedCounts vi.zAdvise.compacted2B vi.mpos (vi.sbi.blkRoundUp vi.iSize)).2.1 ∧
    (compactedCounts vi.zAdvise.compacted2B vi.mpos (vi.sbi.blkRoundUp vi.iSize)).2.2 = 0

instance (vi : Inode) : Decidable (EndsIn2B vi) := inferInstanceAs (Decidable (_ ∧ _))

/-! ## The bits of a slot -/

section Slot

variable {mem mem' : Mem} {lobits inp pos : ℕ}

theorem decodeCompactedbits_eq (mem : Mem) (lobits inp pos : ℕ) :
    decodeCompactedbits mem lobits inp pos = (bitField mem inp pos (lobits + 2) % 2 ^ lobits,
      LclusterType.ofBits (bitField mem inp pos (lobits + 2) / 2 ^ lobits)) := by
  have hmod (n : ℕ) : LclusterType.ofBits (n % 4) = LclusterType.ofBits n := by
    unfold LclusterType.ofBits
    rw [Nat.mod_mod]
  unfold decodeCompactedbits bitField
  rw [pow_add, Nat.mod_mul_right_mod, Nat.mod_mul_right_div_self]
  exact congrArg _ (hmod _).symm

theorem decodeCompactedbits_congr (hw : pos % 8 + (lobits + 2) ≤ 32)
    (h : ∀ j < lobits + 2, memBit mem' inp (pos + j) = memBit mem inp (pos + j)) :
    decodeCompactedbits mem' lobits inp pos = decodeCompactedbits mem lobits inp pos := by
  have hfield : bitField mem' inp pos (lobits + 2) = bitField mem inp pos (lobits + 2) := by
    apply Nat.eq_of_testBit_eq
    intro j
    rw [testBit_bitField hw, testBit_bitField hw]
    by_cases hj : j < lobits + 2
    · rw [h j hj]
    · simp [hj]
  rw [decodeCompactedbits_eq, decodeCompactedbits_eq, hfield]

/-- A slot that keeps its `c` lowest bits shows a plain lcluster. -/
theorem decodeCompactedbits_cut {c : ℕ} (hw : pos % 8 + (lobits + 2) ≤ 32) (hc : c ≤ lobits)
    (h : ∀ j < lobits + 2,
      memBit mem' inp (pos + j) = (decide (j < c) && memBit mem inp (pos + j))) :
    decodeCompactedbits mem' lobits inp pos =
      ((decodeCompactedbits mem lobits inp pos).1 % 2 ^ c, .plain) := by
  have hfield : bitField mem' inp pos (lobits + 2) = bitField mem inp pos (lobits + 2) % 2 ^ c := by
    apply Nat.eq_of_testBit_eq
    intro j
    rw [testBit_bitField hw, Nat.testBit_mod_two_pow, testBit_bitField hw]
    by_cases hj : j < lobits + 2
    · rw [h j hj, decide_eq_true hj, Bool.true_and, Bool.true_and]
    · simp [hj]
  have hlt : bitField mem inp pos (lobits + 2) % 2 ^ c < 2 ^ lobits :=
    (Nat.mod_lt _ (Nat.two_pow_pos c)).trans_le (Nat.pow_le_pow_right (by decide) hc)
  rw [decodeCompactedbits_eq, decodeCompactedbits_eq, hfield, Nat.div_eq_of_lt hlt,
    Nat.mod_eq_of_lt hlt, Nat.mod_mod_of_dvd _ (pow_dvd_pow 2 hc)]
  rfl

end Slot

/-! ## The patch -/

section Patch

variable {sbi : SbInfo} {mem : Mem} {base d k : ℕ}

theorem patchSlot_eq (sbi : SbInfo) (mem : Mem) (a : ℕ) :
    patchSlot sbi mem a = store mem a (leBytes 2 (sbi.blkoff (leNat mem a 4))) := by
  have hor (n m : ℕ) : LclusterType.plain.toNat * m ||| n = n := by
    rw [show LclusterType.plain.toNat = 0 from rfl, Nat.zero_mul, Nat.zero_or]
  unfold patchSlot
  simp only [hor]

theorem memBit_patchSlot (hin : k < 16) :
    memBit (patchSlot sbi mem (base + d)) base (8 * d + k) =
      (decide (k < sbi.blkszbits) && memBit mem base (8 * d + k)) := by
  rw [memBit_add, memBit_add, patchSlot_eq, memBit_store_leBytes _ _ _ hin, SbInfo.blkoff,
    SbInfo.blksz, Nat.testBit_mod_two_pow, testBit_leNat]
  by_cases hk : k < sbi.blkszbits
  · simp [hk, show k < 32 by omega]
  · simp [hk]

theorem patchSlot_of_out {a : ℕ} (h : a < base ∨ base + 2 ≤ a) :
    patchSlot sbi mem base a = mem a := by
  rw [patchSlot_eq]
  rcases h with h | h
  · exact store_of_lt _ h
  · exact store_of_ge _ (by rw [length_leBytes]; exact h)

theorem memBit_patchSlot_of_lt (h : k < 8 * d) :
    memBit (patchSlot sbi mem (base + d)) base k = memBit mem base k :=
  memBit_congr (patchSlot_of_out (Or.inl (by omega)))

theorem clearInline_of_le {a : ℕ} (h : 6 ≤ a) (mem : Mem) : clearInline mem a = mem a := by
  unfold clearInline
  rw [store_of_ge _ (by rw [length_leBytes]; omega), store_of_ge _ (by rw [length_leBytes]; omega)]

theorem hIdataSize_clearInline (mem : Mem) : hIdataSize (clearInline mem) = 0 :=
  leNat_of_holds (holds_store _ 2 (leBytes 2 0))

theorem hAdvise_clearInline (mem : Mem) :
    hAdvise (clearInline mem) = hAdvise mem &&& adviseMask := by
  have hword : hAdvise (clearInline mem) =
      leNat (store mem 4 (leBytes 2 (hAdvise mem &&& adviseMask))) 4 2 := by
    apply leNat_congr
    intro k _
    exact store_of_ge _ (by rw [length_leBytes]; omega)
  rw [hword]
  have hlt : hAdvise mem &&& adviseMask < 256 ^ 2 :=
    Nat.lt_of_le_of_lt Nat.and_le_right (by decide)
  exact leNat_of_holds_of_lt (holds_store _ _ _) hlt

theorem advise_clearInline (n : ℕ) :
    Advise.ofNat (n &&& adviseMask) = { Advise.ofNat n with inlinePcluster := false } := by
  have hbit (i : ℕ) (h : adviseMask.testBit i = true) :
      (n &&& adviseMask).testBit i = n.testBit i := by
    rw [Nat.testBit_and, h, Bool.and_true]
  have h3 : (n &&& adviseMask).testBit 3 = false := by
    rw [Nat.testBit_and, show adviseMask.testBit 3 = false by decide, Bool.and_false]
  unfold Advise.ofNat
  rw [hbit 0 (by decide), hbit 1 (by decide), hbit 2 (by decide), h3, hbit 4 (by decide),
    hbit 5 (by decide)]

end Patch

/-! ## The patched pack and the others -/

section Pack

variable {sbi : SbInfo} {mem : Mem} {lclusterbits destsize vcnt encodebits base d i δ : ℕ}

/-- The slot of the last lcluster, which the patch takes to start with its first bit. -/
theorem decode_patched (hs : PackShape lclusterbits destsize vcnt encodebits)
    (hb : sbi.blkszbits ≤ compactedLobits lclusterbits) (hpos : encodebits * i = 8 * d + δ)
    (hfit : δ + encodebits = 16) :
    decodeCompactedbits (patchSlot sbi mem (base + d)) (compactedLobits lclusterbits) base
        (encodebits * i) =
      ((decodeCompactedbits mem (compactedLobits lclusterbits) base (encodebits * i)).1 %
        2 ^ (sbi.blkszbits - δ), .plain) := by
  have hlobits := hs.lobits_le
  have hbits := hs.bits_le i
  apply decodeCompactedbits_cut (by omega) (by omega)
  intro j hj
  have hsum : encodebits * i + j = 8 * d + (δ + j) := by omega
  have hiff : δ + j < sbi.blkszbits ↔ j < sbi.blkszbits - δ := by omega
  rw [hsum, memBit_patchSlot (by omega), decide_eq_decide.mpr hiff]

theorem decode_patched_front (hs : PackShape lclusterbits destsize vcnt encodebits)
    (hb : δ ≤ sbi.blkszbits) (hpos : encodebits * i = 8 * d + δ)
    (hfit : δ + encodebits = 16) {k : ℕ} (hk : k < i) :
    decodeCompactedbits (patchSlot sbi mem (base + d)) (compactedLobits lclusterbits) base
        (encodebits * k) =
      decodeCompactedbits mem (compactedLobits lclusterbits) base (encodebits * k) := by
  have hlobits := hs.lobits_le
  have hbits := hs.bits_le k
  have hmul : encodebits * k + encodebits ≤ encodebits * i := Nat.mul_le_mul_left encodebits hk
  apply decodeCompactedbits_congr (by omega)
  intro j hj
  rcases Nat.lt_or_ge (encodebits * k + j) (8 * d) with hlt | hge
  · exact memBit_patchSlot_of_lt hlt
  · obtain ⟨t, ht⟩ := Nat.exists_eq_add_of_le hge
    rw [ht, memBit_patchSlot (by omega), decide_eq_true (by omega), Bool.true_and]

theorem addr_patched (hs : PackShape lclusterbits destsize vcnt encodebits)
    (hi : i < vcnt) (hpos : encodebits * i = 8 * d + δ) (hfit : δ + encodebits = 16) :
    leNat (patchSlot sbi mem (base + d)) (base + destsize * vcnt - 4) 4 =
      leNat mem (base + destsize * vcnt - 4) 4 := by
  have h4 := hs.four_le.1
  have hmul := hs.encodebits_mul
  have hle : encodebits * i + encodebits ≤ encodebits * vcnt := Nat.mul_le_mul_left encodebits hi
  apply leNat_congr
  intro k _
  exact patchSlot_of_out (Or.inr (by omega))

theorem pack_unpatched (hs : PackShape lclusterbits destsize vcnt encodebits) {a : ℕ}
    (hle : base + destsize * vcnt ≤ a) :
    (∀ k < vcnt, decodeCompactedbits (patchSlot sbi mem a) (compactedLobits lclusterbits) base
        (encodebits * k) =
      decodeCompactedbits mem (compactedLobits lclusterbits) base (encodebits * k)) ∧
    leNat (patchSlot sbi mem a) (base + destsize * vcnt - 4) 4 =
      leNat mem (base + destsize * vcnt - 4) 4 := by
  have h4 := hs.four_le.1
  have hmul := hs.encodebits_mul
  have hlobits := hs.lobits_le
  constructor
  · intro k hk
    have hbits := hs.bits_le k
    have hend : encodebits * k + encodebits ≤ encodebits * vcnt :=
      Nat.mul_le_mul_left encodebits hk
    apply decodeCompactedbits_congr (by omega)
    intro j hj
    exact memBit_congr (patchSlot_of_out (Or.inl (by omega)))
  · apply leNat_congr
    intro k hk
    exact patchSlot_of_out (Or.inl (by omega))

end Pack

section Place

variable {compacted2B : Bool} {lclusterbits n n4 n2 : ℕ}

theorem base_le_of_lt (hc : Counts compacted2B lclusterbits n n4 n2) {lcn l : ℕ}
    (h : lcn < (packPlace n4 n2 l).first) :
    (packPlace n4 n2 lcn).base + (packPlace n4 n2 lcn).packsz ≤ (packPlace n4 n2 l).base := by
  have heven := hc.even
  have hwhole := hc.whole
  unfold packPlace at *
  split_ifs at * with h₁ h₂ h₃ h₄ <;>
    simp only [PackPlace.packsz, PackPlace.destsize] at * <;> omega

/-- Where the patch comes to behind whole packs of 4 bytes a slot. -/
theorem patchPos_whole {n : ℕ} (hn : 0 < n) (k : ℕ) :
    patchPos (8 * k + 16) n = 8 * k + 8 + 2 * ((n - 1) % 2) := by
  unfold patchPos roundDown
  simp only
  rcases Nat.mod_two_eq_zero_or_one n with h | h
  · rw [h, show (n - 1) % 2 = 1 by omega, show 8 * k + 16 - 4 * 2 ^ 0 = 8 * (k + 1) + 4 by omega,
      show (8 * (k + 1) + 4) / 8 = k + 1 by omega, Nat.mul_comm (k + 1), Nat.add_sub_cancel_left]
    rfl
  · rw [h, show (n - 1) % 2 = 0 by omega, show 8 * k + 16 - 4 * 2 ^ 1 = 8 * (k + 1) by omega,
      show 8 * (k + 1) / 8 = k + 1 by omega, Nat.mul_comm (k + 1), Nat.sub_self]
    rfl

/-- The patch comes to the slot of the last lcluster if that has 4 bytes, and 2 bits in front of it
if it has 2. -/
theorem patchPos_eq (hc : Counts compacted2B lclusterbits n n4 n2) (hn : 0 < n) :
    ∃ d δ, patchPos (8 + (packPlace n4 n2 (n - 1)).base + (packPlace n4 n2 (n - 1)).packsz) n =
        8 + (packPlace n4 n2 (n - 1)).base + d ∧
      (packPlace n4 n2 (n - 1)).encodebits * (n - 1 - (packPlace n4 n2 (n - 1)).first) =
        8 * d + δ ∧
      δ + (packPlace n4 n2 (n - 1)).encodebits = 16 ∧
      δ = if 0 < n2 ∧ n - n4 - n2 = 0 then 2 else 0 := by
  have hle := hc.le
  obtain ⟨m, rfl⟩ : ∃ m, n4 = 2 * m := ⟨n4 / 2, by have := hc.even; omega⟩
  obtain ⟨p, rfl⟩ : ∃ p, n2 = 16 * p := ⟨n2 / 16, by have := hc.whole; omega⟩
  unfold packPlace
  by_cases h₁ : n - 1 < 2 * m
  · rw [if_pos h₁, if_neg (by omega)]
    simp only [PackPlace.packsz, PackPlace.destsize]
    set q := (n - 1) / 2
    refine ⟨2 * ((n - 1) % 2), 0, ?_, by omega, rfl, rfl⟩
    rw [show 8 + 8 * q + 2 ^ 2 * 2 = 8 * q + 16 by omega, patchPos_whole hn, Nat.add_comm (8 * q)]
  · rw [if_neg h₁]
    by_cases h₂ : n - 1 - 2 * m < 16 * p
    · rw [if_pos h₂, if_pos (by omega)]
      simp only [PackPlace.packsz, PackPlace.destsize]
      -- the counts are even, so the last of these slots has an odd number
      have hodd : (n - 1) % 2 = 1 := by omega
      have hlast : n - 1 - (2 * m + 16 * ((n - 1 - 2 * m) / 16)) = 15 := by omega
      refine ⟨26, 2, ?_, by rw [hlast], rfl, rfl⟩
      set q := (n - 1 - 2 * m) / 16
      rw [show 8 + (4 * (2 * m) + 32 * q) + 2 ^ 1 * 16 = 8 * (m + 4 * q + 3) + 16 by omega,
        patchPos_whole hn, hodd]
      omega
    · rw [if_neg h₂, if_neg (by omega)]
      simp only [PackPlace.packsz, PackPlace.destsize]
      have hodd : n - 1 - (2 * m + 16 * p + 2 * ((n - 1 - 2 * m - 16 * p) / 2)) = (n - 1) % 2 := by
        omega
      rw [hodd]
      refine ⟨2 * ((n - 1) % 2), 0, ?_, by omega, rfl, rfl⟩
      set q := (n - 1 - 2 * m - 16 * p) / 2
      rw [show 8 + (4 * (2 * m) + 2 * (16 * p) + 8 * q) + 2 ^ 2 * 2 =
        8 * (m + 4 * p + q) + 16 by omega, patchPos_whole hn]
      omega

end Place

section File

variable {vi : Inode} {es : List InmemExtent} {mem mem' : Mem} {isize : ℕ}

theorem packsz_ge (n4 n2 lcn : ℕ) : 8 ≤ (packPlace n4 n2 lcn).packsz := by
  unfold packPlace PackPlace.packsz PackPlace.destsize
  split_ifs
  · exact (by decide : 8 ≤ 2 ^ 2 * 2)
  · exact (by decide : 8 ≤ 2 ^ 1 * 16)
  · exact (by decide : 8 ≤ 2 ^ 2 * 2)

theorem slotAt_congr (h : ∀ a, 6 ≤ a → mem' a = mem a) (lcn : ℕ) :
    slotAt vi mem' lcn = slotAt vi mem lcn ∧
      packBlkaddrAt vi mem' lcn = packBlkaddrAt vi mem lcn := by
  have hsz : 8 ≤ (vi.packPlace lcn).packsz := packsz_ge _ _ _
  constructor
  · unfold slotAt decodeCompactedbits
    rw [leNat_congr fun k _ => h _ (by omega)]
  · exact leNat_congr fun k _ => h _ (by omega)

theorem slots_patched {blkaddr : ℕ} (hf : CompactFile vi blkaddr es)
    (hn : 0 < vi.sbi.blkRoundUp vi.iSize)
    (hsize : 8 + (vi.packPlace (vi.sbi.blkRoundUp vi.iSize - 1)).base +
      (vi.packPlace (vi.sbi.blkRoundUp vi.iSize - 1)).packsz = isize)
    (hmem' : mem' = patchSlot vi.sbi mem (patchPos isize (vi.sbi.blkRoundUp vi.iSize))) :
    (∃ δ, ((EndsIn2B vi ∧ δ = 2) ∨ (¬ EndsIn2B vi ∧ δ = 0)) ∧
      slotAt vi mem' (vi.sbi.blkRoundUp vi.iSize - 1) =
        ((slotAt vi mem (vi.sbi.blkRoundUp vi.iSize - 1)).1 % 2 ^ (vi.sbi.blkszbits - δ),
          .plain)) ∧
    (∀ lcn < vi.sbi.blkRoundUp vi.iSize,
      (lcn + 1 ≠ vi.sbi.blkRoundUp vi.iSize → slotAt vi mem' lcn = slotAt vi mem lcn) ∧
        packBlkaddrAt vi mem' lcn = packBlkaddrAt vi mem lcn) ∧
    ∀ a < 8, mem' a = mem a := by
  have hmpos : vi.mpos % 8 = 0 := by
    unfold Inode.mpos roundUp
    omega
  obtain ⟨hcounts, hlast⟩ := @counts_compactedCounts _ _ _ (vi.sbi.blkRoundUp vi.iSize) hmpos hf.two
  obtain ⟨d, δ, hpatch, hpos, hfit, hδ⟩ := patchPos_eq hcounts hn
  have hends : EndsIn2B vi ↔ δ = 2 := by
    unfold EndsIn2B
    rw [hlast, hδ]
    split_ifs with h
    · exact ⟨fun _ => rfl, fun _ => h⟩
    · exact ⟨fun h' => absurd h' h, fun h' => by cases h'⟩
  have hδ_le : δ = 2 ∨ δ = 0 := by
    rw [hδ]
    split_ifs
    · exact Or.inl rfl
    · exact Or.inr rfl
  have hblk := hf.blksz_ge
  have hlobits : vi.sbi.blkszbits ≤ compactedLobits vi.zLogicalClusterbits :=
    hf.lclusterbits ▸ Nat.le_max_left _ _
  have hlt : vi.sbi.blkRoundUp vi.iSize - 1 < vi.sbi.blkRoundUp vi.iSize := by omega
  obtain ⟨hshape, hfirst, hslot, -, -⟩ := hf.place hlt
  have haddr : patchPos isize (vi.sbi.blkRoundUp vi.iSize) =
      8 + (vi.packPlace (vi.sbi.blkRoundUp vi.iSize - 1)).base + d := by
    rw [← hsize]
    exact hpatch
  rw [haddr] at hmem'
  subst hmem'
  refine ⟨⟨δ, ?_, ?_⟩, ?_, fun a ha => patchSlot_of_out (Or.inl (by omega))⟩
  · rcases hδ_le with h | h
    · exact Or.inl ⟨hends.mpr h, h⟩
    · exact Or.inr ⟨fun h' => by have := hends.mp h'; omega, h⟩
  · exact decode_patched hshape hlobits hpos hfit
  · intro lcn hlcn
    by_cases hfront : lcn < (vi.packPlace (vi.sbi.blkRoundUp vi.iSize - 1)).first
    · obtain ⟨hshape', hfirst', hslot', -, -⟩ := hf.place hlcn
      have hbase : (vi.packPlace lcn).base + (vi.packPlace lcn).packsz ≤
          (vi.packPlace (vi.sbi.blkRoundUp vi.iSize - 1)).base := base_le_of_lt hcounts hfront
      have hle : 8 + (vi.packPlace lcn).base + (vi.packPlace lcn).packsz ≤
          8 + (vi.packPlace (vi.sbi.blkRoundUp vi.iSize - 1)).base + d := by omega
      obtain ⟨hslots, haddr'⟩ := @pack_unpatched vi.sbi mem _ _ _ _ _ hshape' _ hle
      exact ⟨fun _ => hslots _ (by omega), haddr'⟩
    · have hin : lcn < (vi.packPlace (vi.sbi.blkRoundUp vi.iSize - 1)).first +
          (vi.packPlace (vi.sbi.blkRoundUp vi.iSize - 1)).vcnt := by omega
      have hplace : vi.packPlace lcn = vi.packPlace (vi.sbi.blkRoundUp vi.iSize - 1) :=
        hcounts.same_pack (not_lt.mp hfront) hin
      have hi : vi.sbi.blkRoundUp vi.iSize - 1 -
          (vi.packPlace (vi.sbi.blkRoundUp vi.iSize - 1)).first <
            (vi.packPlace (vi.sbi.blkRoundUp vi.iSize - 1)).vcnt := by omega
      have hbits : δ ≤ vi.sbi.blkszbits := by omega
      unfold slotAt packBlkaddrAt
      rw [hplace]
      refine ⟨fun hne => ?_, addr_patched hshape hi hpos hfit⟩
      have hk : lcn - (vi.packPlace (vi.sbi.blkRoundUp vi.iSize - 1)).first <
          vi.sbi.blkRoundUp vi.iSize - 1 -
            (vi.packPlace (vi.sbi.blkRoundUp vi.iSize - 1)).first := by omega
      exact decode_patched_front hshape hbits hpos hfit hk

theorem last_eq {pre : List InmemExtent} {e : InmemExtent}
    (hsize : vi.iSize = totalLength (pre ++ [e])) (hpos : 0 < e.length) (hin : totalLength pre % vi.sbi.blksz + e.length ≤ vi.sbi.blksz) :
    vi.sbi.blkRoundUp vi.iSize = totalLength pre / vi.sbi.blksz + 1 := by
  rw [hsize, totalLength_concat]
  unfold SbInfo.blkRoundUp
  have hsplit := Nat.div_add_mod (totalLength pre) vi.sbi.blksz
  have hblk := vi.sbi.blksz_pos
  have hmul : (totalLength pre / vi.sbi.blksz + 1) * vi.sbi.blksz =
      vi.sbi.blksz * (totalLength pre / vi.sbi.blksz) + vi.sbi.blksz := by ring
  rw [Nat.div_eq_iff hblk, hmul]
  constructor
  · omega
  · omega

theorem index_patched {n : ℕ} (hn : 0 < n) {lcn : ℕ} (hlcn : lcn < n) :
    if lcn + 1 = n then
      indexAt (patchIndex mem (legacyMapHeaderSize + 8 * n)) lcn =
        { indexAt mem lcn with advise := LclusterType.plain.toNat }
    else indexAt (patchIndex mem (legacyMapHeaderSize + 8 * n)) lcn = indexAt mem lcn := by
  have hheader : legacyMapHeaderSize = 16 := rfl
  have hout (a : ℕ) (ha : a < legacyMapHeaderSize + 8 * n - 8 ∨
      legacyMapHeaderSize + 8 * n - 8 + 2 ≤ a) :
      patchIndex mem (legacyMapHeaderSize + 8 * n) a = mem a := by
    unfold patchIndex
    rcases ha with ha | ha
    · exact store_of_lt _ ha
    · exact store_of_ge _ (by rw [length_leBytes]; exact ha)
  have hrest : leNat (patchIndex mem (legacyMapHeaderSize + 8 * n))
        (legacyMapHeaderSize + 8 * lcn + 2) 2 =
      leNat mem (legacyMapHeaderSize + 8 * lcn + 2) 2 ∧
      leNat (patchIndex mem (legacyMapHeaderSize + 8 * n)) (legacyMapHeaderSize + 8 * lcn + 4) 4 =
        leNat mem (legacyMapHeaderSize + 8 * lcn + 4) 4 :=
    ⟨leNat_congr fun k hk => hout _ (by omega), leNat_congr fun k hk => hout _ (by omega)⟩
  unfold indexAt LclusterIndex.decode
  rw [hrest.1, hrest.2]
  split_ifs with hlast
  · have hpos : legacyMapHeaderSize + 8 * lcn = legacyMapHeaderSize + 8 * n - 8 := by omega
    have hword : leNat (patchIndex mem (legacyMapHeaderSize + 8 * n))
        (legacyMapHeaderSize + 8 * lcn) 2 = LclusterType.plain.toNat := by
      rw [hpos]
      exact leNat_of_holds_of_lt (holds_store _ _ _) (by decide)
    rw [hword]
  · rw [leNat_congr fun k hk => hout _ (by omega)]

theorem slotAt_tail {pre : List InmemExtent} {e : InmemExtent} {blkaddr : ℕ} {mem₀ : Mem}
    (hf : CompactFile vi blkaddr (pre ++ [e])) (hraw : e.raw = false)
    (hn : vi.sbi.blkRoundUp vi.iSize = totalLength pre / vi.sbi.blksz + 1)
    (hmem : Holds mem₀ legacyMapHeaderSize
      ((zErofsWriteIndexes vi (pre ++ [e])).flatMap LclusterIndex.encode))
    (hconv : zErofsConvertToCompactedFormat vi blkaddr
      (legacyMapHeaderSize + 8 * (zErofsWriteIndexes vi (pre ++ [e])).length) mem₀ =
        .ok (mem, isize)) :
    slotAt vi mem (vi.sbi.blkRoundUp vi.iSize - 1) =
        (totalLength pre % vi.sbi.blksz, .head1) ∧
      8 + (vi.packPlace (vi.sbi.blkRoundUp vi.iSize - 1)).base +
        (vi.packPlace (vi.sbi.blkRoundUp vi.iSize - 1)).packsz = isize := by
  obtain ⟨mem', isize', hconv', hpacks⟩ := hf.convert hmem
  obtain ⟨rfl, rfl⟩ := Prod.mk.inj (Except.ok.inj (hconv'.symm.trans hconv))
  have hpos : 0 < vi.sbi.blkRoundUp vi.iSize := hn ▸ Nat.succ_pos _
  have hlt : vi.sbi.blkRoundUp vi.iSize - 1 < vi.sbi.blkRoundUp vi.iSize := by omega
  obtain ⟨hpack, -, hend⟩ := hpacks _ hlt
  obtain ⟨-, hfirst, hslot, -, -⟩ := hf.place hlt
  refine ⟨?_, hend (by omega)⟩
  have hi : vi.sbi.blkRoundUp vi.iSize - 1 -
      (vi.packPlace (vi.sbi.blkRoundUp vi.iSize - 1)).first <
        (vi.packPlace (vi.sbi.blkRoundUp vi.iSize - 1)).vcnt := by omega
  have hfield := hpack.fields _ hi
  obtain ⟨htype, hofs⟩ := cvAt_head hf.spans
  have hhead : e.headtype = .head1 := by
    unfold InmemExtent.headtype
    rw [hraw, if_neg (by decide)]
  unfold slotAt
  rw [hfield]
  have hlcn : (vi.packPlace (vi.sbi.blkRoundUp vi.iSize - 1)).first +
      (vi.sbi.blkRoundUp vi.iSize - 1 - (vi.packPlace (vi.sbi.blkRoundUp vi.iSize - 1)).first) =
        totalLength pre / vi.sbi.blksz := by
    rw [Nat.add_sub_of_le hfirst, hn, Nat.add_sub_cancel]
  simp only [hlcn]
  unfold CompressindexVec.field CompressindexVec.offset
  rw [htype, hhead, if_neg (by decide), hofs, hf.u16_mod]

end File

/-! ## When the patch is right -/

section Drop

variable {vi : Inode} {mem mem' : Mem} {pre : List InmemExtent} {e : InmemExtent}

theorem header_dropped (h : ∀ a < 8, mem' a = clearInline mem a) :
    Advise.ofNat (hAdvise mem') = { Advise.ofNat (hAdvise mem) with inlinePcluster := false } ∧
      hIdataSize mem' = 0 := by
  have hadvise : hAdvise mem' = hAdvise (clearInline mem) := leNat_congr fun k _ => h _ (by omega)
  have hidata : hIdataSize mem' = hIdataSize (clearInline mem) :=
    leNat_congr fun k _ => h _ (by omega)
  rw [hadvise, hidata, hAdvise_clearInline, advise_clearInline, hIdataSize_clearInline]
  exact ⟨rfl, rfl⟩

theorem dropsTail_full (hlayout : vi.datalayout = .compressedFull)
    (hn : 0 < vi.sbi.blkRoundUp vi.iSize) :
    DropsTail vi mem (patchIndex (clearInline mem)
      (legacyMapHeaderSize + 8 * vi.sbi.blkRoundUp vi.iSize)) := by
  have hheader : legacyMapHeaderSize = 16 := rfl
  obtain ⟨hadvise, hidata⟩ := @header_dropped mem (patchIndex (clearInline mem)
    (legacyMapHeaderSize + 8 * vi.sbi.blkRoundUp vi.iSize)) fun a ha => store_of_lt _ (by omega)
  have hclear (lcn : ℕ) : indexAt (clearInline mem) lcn = indexAt mem lcn := by
    unfold indexAt LclusterIndex.decode
    rw [leNat_congr fun k _ => clearInline_of_le (by omega) mem,
      leNat_congr fun k _ => clearInline_of_le (by omega) mem,
      leNat_congr fun k _ => clearInline_of_le (by omega) mem]
  refine ⟨hadvise, hidata, fun _ lcn hlcn => ?_, fun hc => ?_, fun hc => ?_⟩
  · have hpatch := @index_patched (clearInline mem) _ hn lcn hlcn
    rw [hclear] at hpatch
    split_ifs with hlast
    · rw [if_pos hlast] at hpatch
      rw [hpatch]
      exact ⟨rfl, rfl, rfl⟩
    · rw [if_neg hlast] at hpatch
      exact hpatch
  · rw [hlayout] at hc
    cases hc
  · rw [hlayout] at hc
    cases hc

theorem dropsTail_compact_iff {blkaddr isize : ℕ} {mem₀ : Mem}
    (hf : CompactFile vi blkaddr (pre ++ [e])) (hraw : e.raw = false)
    (hn : vi.sbi.blkRoundUp vi.iSize = totalLength pre / vi.sbi.blksz + 1)
    (hmem : Holds mem₀ legacyMapHeaderSize
      ((zErofsWriteIndexes vi (pre ++ [e])).flatMap LclusterIndex.encode))
    (hconv : zErofsConvertToCompactedFormat vi blkaddr
      (legacyMapHeaderSize + 8 * (zErofsWriteIndexes vi (pre ++ [e])).length) mem₀ =
        .ok (mem, isize)) :
    DropsTail vi mem (patchSlot vi.sbi (clearInline mem)
        (patchPos isize (vi.sbi.blkRoundUp vi.iSize))) ↔
      (EndsIn2B vi → totalLength pre % vi.sbi.blksz < vi.sbi.blksz / 4) := by
  have hpos : 0 < vi.sbi.blkRoundUp vi.iSize := hn ▸ Nat.succ_pos _
  obtain ⟨htail, hsize⟩ := slotAt_tail hf hraw hn hmem hconv
  obtain ⟨⟨δ, hδ, hslot⟩, hrest, hlow⟩ :=
    @slots_patched vi _ (clearInline mem) _ isize _ hf hpos hsize rfl
  have hclear := @slotAt_congr vi mem (clearInline mem) fun a ha =>
    clearInline_of_le ha mem
  obtain ⟨hadvise, hidata⟩ := header_dropped hlow
  rw [(hclear _).1, htail] at hslot
  have hmod : totalLength pre % vi.sbi.blksz % 2 ^ (vi.sbi.blkszbits - δ) =
      totalLength pre % vi.sbi.blksz ↔
        (EndsIn2B vi → totalLength pre % vi.sbi.blksz < vi.sbi.blksz / 4) := by
    have hblk := hf.blksz_ge
    have hquarter : 2 ^ (vi.sbi.blkszbits - 2) = vi.sbi.blksz / 4 :=
      (Nat.pow_div (by omega) (by decide) : vi.sbi.blksz / 2 ^ 2 = _).symm
    rw [Nat.mod_eq_iff_lt (Nat.two_pow_pos _).ne']
    rcases hδ with ⟨h2B, rfl⟩ | ⟨h2B, rfl⟩
    · rw [hquarter]
      exact ⟨fun h _ => h, fun h => h h2B⟩
    · exact ⟨fun _ h => absurd h h2B, fun _ => Nat.mod_lt _ vi.sbi.blksz_pos⟩
  rw [← hmod]
  constructor
  · intro hdrops
    have heof := hdrops.slot hf.layout _ (Nat.sub_lt hpos Nat.one_pos)
    rw [if_pos (Nat.sub_add_cancel hpos), hslot, htail] at heof
    exact (Prod.mk.inj heof).1
  · intro hkept
    have hnotfull (hfull : vi.datalayout = .compressedFull) : False := by
      rw [hf.layout] at hfull
      cases hfull
    refine ⟨hadvise, hidata, fun hfull => (hnotfull hfull).elim, fun _ lcn hlcn => ?_,
      fun _ lcn hlcn => (hrest lcn hlcn).2.trans (hclear lcn).2⟩
    split_ifs with hlast
    · obtain rfl : lcn = vi.sbi.blkRoundUp vi.iSize - 1 := by omega
      rw [hslot, htail, hkept]
    · exact ((hrest lcn hlcn).1 hlast).trans (hclear lcn).1

end Drop

/-- After the drop only the last lcluster has become a plain one, with its `clusterofs`, exactly if
a COMPACT file whose last pack has 2-byte slots has its tail in the first quarter of a block. -/
theorem drop_iff {vi : Inode} {pre : List InmemExtent} {e : InmemExtent} {s : TailState}
    {tail : List UInt8} (hs : Committed vi (pre ++ [e]) s.compressmeta s.extentIsize)
    (htail : RawTail vi pre e tail) (hraw : s.eofTailraw = some tail) :
    DropsTail vi s.compressmeta (zErofsDropInlinePcluster vi s).compressmeta ↔
      (vi.datalayout = .compressedCompact → EndsIn2B vi →
        totalLength pre % vi.sbi.blksz < vi.sbi.blksz / 4) := by
  obtain ⟨compressmeta, extentIsize, eofTailraw, inlineData⟩ := s
  simp only at hs hraw ⊢
  subst hraw
  unfold zErofsDropInlinePcluster
  simp only
  cases hs with
  | full hlayout hsize hspans hlt hmem =>
    have hn := last_eq hsize (spans_append hspans).1 htail.inside
    have hpos : 0 < vi.sbi.blkRoundUp vi.iSize := hn ▸ Nat.succ_pos _
    have hlen := length_fileSlots vi.sbi.blksz_pos hspans
    rw [Nat.zero_div, Nat.zero_add, Nat.zero_add, ← hsize] at hlen
    rw [if_pos hlayout, zErofsWriteIndexes_eq vi hspans, List.length_map, hlen]
    exact iff_of_true (dropsTail_full hlayout hpos) fun hcompact => by
      rw [hlayout] at hcompact
      cases hcompact
  | compact hf hmem hconv =>
    have hn := last_eq hf.size (spans_append hf.spans).1 htail.inside
    have hne : ¬ vi.datalayout = .compressedFull := by
      rw [hf.layout]
      decide
    rw [if_neg hne, if_pos hf.layout]
    exact (dropsTail_compact_iff hf htail.raw hn hmem hconv).trans
      ⟨fun h _ => h, fun h => h hf.layout⟩

theorem rawTail_ztail {a : ℕ} (ha : a + 500 ≤ 4096) :
    RawTail (ztailInode a) [ztailFront a] ztailLast (List.replicate 500 0) where
  raw := rfl
  inlined := rfl
  inside := by
    change (86016 + a + 0) % 4096 + 500 ≤ 4096
    omega
  tail := List.length_replicate

theorem committed_ztail {a : ℕ} (ha : a + 500 ≤ 4096) :
    ∃ mem₀ mem isize,
      Holds mem₀ legacyMapHeaderSize
        ((zErofsWriteIndexes (ztailInode a) ([ztailFront a] ++ [ztailLast])).flatMap
          LclusterIndex.encode) ∧
      zErofsConvertToCompactedFormat (ztailInode a) 100 (legacyMapHeaderSize +
        8 * (zErofsWriteIndexes (ztailInode a) ([ztailFront a] ++ [ztailLast])).length) mem₀ =
          .ok (mem, isize) := by
  have hheld := holds_store (fun _ => 0) legacyMapHeaderSize
    ((zErofsWriteIndexes (ztailInode a) ([ztailFront a] ++ [ztailLast])).flatMap
      LclusterIndex.encode)
  obtain ⟨mem, isize, hconv, -⟩ := (compactFile_ztail ha).convert hheld
  exact ⟨_, mem, isize, hheld, hconv⟩

/-- `erofs_balloc` has no place for the inode with its inline data. -/
def NoPlace (vi : Inode) (s : TailState) : Prop :=
  ∀ mgr : BufMgr, mgr.sb.bits = vi.sbi.blkszbits →
    (mgr.erofsBalloc .inode (inodesize vi s.extentIsize) 0 s.inlineData.idata.length).2 =
      .error (-28)

theorem noPlace_of_lt {vi : Inode} {s : TailState} (hsize : inodesize vi s.extentIsize < 2 ^ 31)
    (hidata : s.inlineData.idata.length < 2 ^ 31)
    (h : vi.sbi.blksz <
      inodesize vi s.extentIsize % vi.sbi.blksz + s.inlineData.idata.length) : NoPlace vi s := by
  intro mgr hmgr
  have hblk : mgr.sb.size = vi.sbi.blksz := congrArg (2 ^ ·) hmgr
  have hmod : inodesize vi s.extentIsize % vi.sbi.blksz ≤ inodesize vi s.extentIsize :=
    Nat.mod_le _ _
  have hused : mgr.sb.size < u32 (u64 (inodesize vi s.extentIsize + 0) % mgr.sb.size +
      s.inlineData.idata.length) := by
    rw [Nat.add_zero, u64_of_lt (by omega), hblk, u32_of_lt (by omega)]
    exact h
  have hfind := (@BufMgr.bfind_error mgr .metadata (inodesize vi s.extentIsize) 0
    s.inlineData.idata.length 32 (-28)).mpr ⟨rfl, hused⟩
  unfold BufMgr.erofsBalloc
  rw [show getAlignsize mgr.sb .inode = some (32, .metadata) from rfl]
  simp only [hfind]

/-- The indexes of the file take 64 bytes, so that 450 bytes do not fit behind its inode. -/
theorem noPlace_ztail {a : ℕ} (ha : a + 500 ≤ 4096) {mem₀ mem : Mem} {isize : ℕ}
    (hheld : Holds mem₀ legacyMapHeaderSize
      ((zErofsWriteIndexes (ztailInode a) ([ztailFront a] ++ [ztailLast])).flatMap
        LclusterIndex.encode))
    (hconv : zErofsConvertToCompactedFormat (ztailInode a) 100 (legacyMapHeaderSize +
      8 * (zErofsWriteIndexes (ztailInode a) ([ztailFront a] ++ [ztailLast])).length) mem₀ =
        .ok (mem, isize)) :
    NoPlace (ztailInode a)
      ⟨mem, isize, some (List.replicate 500 0), ⟨List.replicate 450 1, true⟩⟩ := by
  have hblks : (ztailInode a).sbi.blkRoundUp (ztailInode a).iSize = 22 := by
    change (86516 + a + (4096 - 1)) / 4096 = 22
    omega
  have hn : (ztailInode a).sbi.blkRoundUp (ztailInode a).iSize =
      totalLength [ztailFront a] / (ztailInode a).sbi.blksz + 1 := by
    rw [hblks]
    change 22 = (86016 + a + 0) / 4096 + 1
    omega
  have hsize := (slotAt_tail (compactFile_ztail ha) rfl hn hheld hconv).2
  have hplace : (ztailInode a).packPlace 21 = (ztailInode 0).packPlace 21 := by
    have hmpos : (ztailInode a).mpos = (ztailInode 0).mpos := rfl
    unfold Inode.packPlace
    rw [hblks, hmpos]
    rfl
  rw [hblks, hplace] at hsize
  obtain rfl : isize = 64 := by
    rw [← hsize]
    decide
  have hinode : inodesize (ztailInode a) 64 = 3680 := by
    unfold inodesize
    rw [if_pos (by decide : 64 ≠ 0)]
    exact (by decide : roundUp (32 + 3584) 8 + 64 = 3680)
  have hlen : (List.replicate 450 (1 : UInt8)).length = 450 := List.length_replicate
  apply noPlace_of_lt
  · rw [hinode]
    decide
  · rw [hlen]
    decide
  · rw [hinode, hlen]
    exact (by decide : 4096 < 3680 % 4096 + 450)

/-- A tail that starts 100 bytes behind the start of the last lcluster. -/
theorem drop_iff_hundred :
    ∃ s : TailState, Committed (ztailInode 100) ([ztailFront 100] ++ [ztailLast]) s.compressmeta
        s.extentIsize ∧ NoPlace (ztailInode 100) s ∧
      DropsTail (ztailInode 100) s.compressmeta
        (zErofsDropInlinePcluster (ztailInode 100) s).compressmeta := by
  obtain ⟨mem₀, mem, isize, hheld, hconv⟩ := @committed_ztail 100 (by decide)
  have hcommitted := Committed.compact (compactFile_ztail (by decide)) hheld hconv
  exact ⟨⟨mem, isize, some (List.replicate 500 0), ⟨List.replicate 450 1, true⟩⟩, hcommitted,
    noPlace_ztail (by decide) hheld hconv,
    (drop_iff hcommitted (rawTail_ztail (by decide)) rfl).mpr fun _ _ => by decide⟩

/-- A tail that starts 3000 bytes behind it comes to start at 952. -/
theorem drop_not_dropsTail : ¬ ∀ (vi : Inode) (pre : List InmemExtent) (e : InmemExtent)
    (s : TailState) (tail : List UInt8), Committed vi (pre ++ [e]) s.compressmeta s.extentIsize →
      RawTail vi pre e tail → s.eofTailraw = some tail → NoPlace vi s →
        DropsTail vi s.compressmeta (zErofsDropInlinePcluster vi s).compressmeta := by
  intro hall
  have hfile : CompactFile (ztailInode 3000) 100 ([ztailFront 3000] ++ [ztailLast]) :=
    compactFile_ztail (by decide)
  obtain ⟨mem₀, mem, isize, hheld, hconv⟩ := @committed_ztail 3000 (by decide)
  have hdrops := hall _ _ _ ⟨mem, isize, some (List.replicate 500 0), ⟨List.replicate 450 1, true⟩⟩
    _ (Committed.compact hfile hheld hconv) (rawTail_ztail (by decide)) rfl
    (noPlace_ztail (by decide) hheld hconv)
  have hquarter := (dropsTail_compact_iff hfile rfl (by decide) hheld hconv).mp hdrops
  exact absurd (hquarter (by decide)) (by decide)

end DropInline
end ErofsUtils
