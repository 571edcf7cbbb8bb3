import ErofsUtils.CompactPacks
import ErofsUtils.FullIndex

/-!
# Where the packs are

The converter counts its packs from the inode on, the reader from the device position of
the inode. Both find the same place for every lcluster, and the pack a reader selects is
the one that was written with the lcluster's entry.
-/

namespace ErofsUtils
open ByteMemory BitPacking

/-- The pack of an lcluster: the size of a slot as a shift, the number of slots and their
bits, the first lcluster of the pack and the offset of the pack behind the map header. -/
structure PackPlace where
  amortizedshift : ℕ
  vcnt : ℕ
  encodebits : ℕ
  first : ℕ
  base : ℕ
  deriving DecidableEq, Repr

/-- The place of `lcn` with `n4` lclusters in 4-byte packs in front of `n2` in 2-byte
packs. -/
def packPlace (n4 n2 lcn : ℕ) : PackPlace :=
  if lcn < n4 then ⟨2, 2, 16, 2 * (lcn / 2), 8 * (lcn / 2)⟩
  else if lcn - n4 < n2 then
    ⟨1, 16, 14, n4 + 16 * ((lcn - n4) / 16), 4 * n4 + 32 * ((lcn - n4) / 16)⟩
  else ⟨2, 2, 16, n4 + n2 + 2 * ((lcn - n4 - n2) / 2),
    4 * n4 + 2 * n2 + 8 * ((lcn - n4 - n2) / 2)⟩

namespace PackPlace

def destsize (p : PackPlace) : ℕ := 2 ^ p.amortizedshift

def packsz (p : PackPlace) : ℕ := p.destsize * p.vcnt

end PackPlace

/-- The counts of a file with `totalidx` indexes: whole packs of each shape, and the odd
index of the last region. -/
structure Counts (compacted2B : Bool) (lclusterbits totalidx n4 n2 : ℕ) : Prop where
  even : n4 % 2 = 0
  whole : n2 % 16 = 0
  le : n4 + n2 ≤ totalidx
  two : 0 < n2 → lclusterbits ≤ 12

theorem counts_compactedCounts {compacted2B : Bool} {lclusterbits mpos totalidx : ℕ}
    (hm : mpos % 8 = 0) (h2 : compacted2B = true → lclusterbits ≤ 12) :
    Counts compacted2B lclusterbits totalidx (compactedCounts compacted2B mpos totalidx).1
        (compactedCounts compacted2B mpos totalidx).2.1 ∧
      (compactedCounts compacted2B mpos totalidx).2.2 = totalidx -
        (compactedCounts compacted2B mpos totalidx).1 -
        (compactedCounts compacted2B mpos totalidx).2.1 := by
  unfold compactedCounts roundDown
  cases compacted2B with
  | false => exact ⟨⟨rfl, rfl, by simp, by simp⟩, rfl⟩
  | true =>
      have h12 := h2 rfl
      simp only [if_true]
      split_ifs
      all_goals refine ⟨⟨?_, ?_, ?_, fun _ => h12⟩, ?_⟩
      all_goals simp only
      all_goals omega

section Place

variable {compacted2B : Bool} {lclusterbits totalidx n4 n2 lcn : ℕ}

theorem Counts.shape (hc : Counts compacted2B lclusterbits totalidx n4 n2)
    (h14 : lclusterbits ≤ 14) (lcn : ℕ) :
    PackShape lclusterbits (packPlace n4 n2 lcn).destsize (packPlace n4 n2 lcn).vcnt
      (packPlace n4 n2 lcn).encodebits := by
  unfold packPlace
  split_ifs with h₁ h₂
  · exact .four h14
  · exact .two (hc.two (by omega))
  · exact .four h14

theorem Counts.first_le (hc : Counts compacted2B lclusterbits totalidx n4 n2) (lcn : ℕ) :
    (packPlace n4 n2 lcn).first ≤ lcn ∧
      lcn < (packPlace n4 n2 lcn).first + (packPlace n4 n2 lcn).vcnt := by
  have := hc.even
  unfold packPlace
  split_ifs with h₁ h₂ <;> simp only <;> omega

theorem Counts.same_pack (hc : Counts compacted2B lclusterbits totalidx n4 n2) {l : ℕ}
    (hge : (packPlace n4 n2 lcn).first ≤ l)
    (hlt : l < (packPlace n4 n2 lcn).first + (packPlace n4 n2 lcn).vcnt) :
    packPlace n4 n2 l = packPlace n4 n2 lcn := by
  have heven := hc.even
  have hwhole := hc.whole
  unfold packPlace at *
  split_ifs at * with h₁ h₂ <;> simp only [PackPlace.mk.injEq, true_and] at * <;> omega

/-- Packs are aligned to their size when the first one is aligned to 8 bytes, and the 2-byte
packs start at a multiple of 32. -/
theorem Counts.aligned (hc : Counts compacted2B lclusterbits totalidx n4 n2) {ebase : ℕ}
    (h8 : ebase % 8 = 0) (h32 : 0 < n2 → (ebase + 4 * n4) % 32 = 0) (lcn : ℕ) :
    (packPlace n4 n2 lcn).packsz ∣ ebase + (packPlace n4 n2 lcn).base := by
  have he := hc.even
  have hw := hc.whole
  unfold packPlace
  split_ifs with h₁ h₂
  all_goals simp only [PackPlace.packsz, PackPlace.destsize]
  · exact Nat.dvd_of_mod_eq_zero (by omega)
  · have := h32 (by omega)
    exact Nat.dvd_of_mod_eq_zero (by omega)
  · exact Nat.dvd_of_mod_eq_zero (by omega)

theorem compactedIndexPos_eq {vi : Inode} {mpos ebase : ℕ} (hm : mpos % 8 = 0)
    (he : ebase % 32 = mpos % 32) (hlcn : lcn < totalidx)
    (hn4 : (compactedCounts vi.zAdvise.compacted2B mpos totalidx).1 = n4)
    (hn2 : (compactedCounts vi.zAdvise.compacted2B mpos totalidx).2.1 = n2) :
    compactedIndexPos vi ebase totalidx lcn =
      (ebase + (packPlace n4 n2 lcn).base +
        (packPlace n4 n2 lcn).destsize * (lcn - (packPlace n4 n2 lcn).first),
        (packPlace n4 n2 lcn).amortizedshift) ∧
      (0 < n2 → (ebase + 4 * n4) % 32 = 0) := by
  subst hn4 hn2
  -- the lclusters in front of the next 32-byte boundary: 0, 6, 4 or 2
  obtain ⟨initial, hini, hlt, hbound⟩ : ∃ initial,
      (if (32 - mpos % 32) / 4 = 32 / 4 then 0 else (32 - mpos % 32) / 4) = initial ∧
        initial % 2 = 0 ∧ (ebase + 4 * initial) % 32 = 0 := by
    refine ⟨_, rfl, ?_⟩
    split_ifs <;> omega
  unfold compactedIndexPos compactedCounts packPlace PackPlace.destsize roundDown
  rw [he, hini]
  cases vi.zAdvise.compacted2B with
  | false =>
      simp only [Bool.false_eq_true, false_and, if_false, Nat.not_lt_zero, Nat.sub_zero]
      refine ⟨?_, by simp⟩
      split_ifs <;> simp only [Prod.mk.injEq, and_true] <;> omega
  | true =>
      simp only [if_true, true_and]
      rcases Nat.lt_or_ge totalidx initial with h | h
      · simp only [if_pos h, if_neg (show ¬ initial < totalidx by omega),
          if_pos (show lcn < initial by omega), Nat.not_lt_zero, if_false, Nat.sub_zero,
          Prod.mk.injEq, and_true]
        refine ⟨?_, by simp⟩
        omega
      · simp only [if_neg (Nat.not_lt.mpr h)]
        have hzero : (if initial < totalidx then (totalidx - initial) / 16 * 16 else 0) =
            (totalidx - initial) / 16 * 16 := by
          split_ifs <;> omega
        rw [hzero]
        refine ⟨?_, fun _ => hbound⟩
        split_ifs <;> simp only [Prod.mk.injEq, and_true] <;> omega

end Place

section Convert

variable {cvAt : ℕ → CompressindexVec} {c : ℕ × Bool} {big : Bool} {lclusterbits : ℕ}

/-- The converter has read the first `k` indexes of the buffer `mem`. -/
structure Converted (cvAt : ℕ → CompressindexVec) (c : ℕ × Bool) (mem : Mem)
    (s : ConvertState) (k : ℕ) : Prop where
  inp_eq : s.inp = legacyMapHeaderSize + 8 * k
  out_le : s.out ≤ s.inp
  carry : (s.blkaddr, s.dummyHead) = carryAt cvAt c k
  rest : ∀ a, s.inp ≤ a → s.mem a = mem a

theorem Converted.packs {mem : Mem} {s : ConvertState} {k destsize vcnt encodebits : ℕ}
    (hv : Converted cvAt c mem s k) (big : Bool) (hs : PackShape lclusterbits destsize vcnt encodebits)
    (hf : ∀ j, (cvAt j).Fits lclusterbits) (hc : c.1 < 2 ^ 32) {n totalidx : ℕ}
    (hin : ∀ j < totalidx,
      .ofIndex (LclusterIndex.decode mem (legacyMapHeaderSize + 8 * j)) = cvAt j)
    (hn : k + vcnt * n ≤ totalidx) :
    ∃ s', convertPacks destsize vcnt lclusterbits big n s = .ok s' ∧
      Converted cvAt c mem s' (k + vcnt * n) ∧ s'.out = s.out + destsize * vcnt * n ∧
      (∀ a < s.out, s'.mem a = s.mem a) ∧
      ∀ p < n, PackAt cvAt c big lclusterbits destsize vcnt encodebits s'.mem (k + vcnt * p)
        (s.out + destsize * vcnt * p) := by
  have h8 := hs.four_le.2
  have hinp := hv.inp_eq
  have hout := hv.out_le
  obtain ⟨s', hconv, hinp', hout', hcarry, hframe, hpacks⟩ :=
    convertPacks_spec hs hf hc n hv.carry hout (by
      intro j hj
      have hdec : LclusterIndex.decode s.mem (s.inp + 8 * j) =
          LclusterIndex.decode mem (legacyMapHeaderSize + 8 * (k + j)) := by
        rw [hinp, Nat.add_assoc, ← Nat.mul_add]
        exact LclusterIndex.decode_congr fun a ha => hv.rest a (by omega)
      rw [hdec]
      exact hin (k + j) (by omega))
  have hmul : destsize * vcnt * n ≤ 8 * (vcnt * n) := by
    rw [← Nat.mul_assoc]
    exact Nat.mul_le_mul_right n h8
  refine ⟨s', hconv, ⟨?_, ?_, hcarry, ?_⟩, hout', fun a ha => hframe a (Or.inl ha), hpacks⟩
  · rw [hinp', hinp, Nat.mul_add, Nat.add_assoc]
  · omega
  · intro a ha
    rw [hframe a (Or.inr (by omega))]
    exact hv.rest a (by omega)

theorem Converted.final {mem : Mem} {s : ConvertState} {k : ℕ}
    (hv : Converted cvAt c mem s k) (h14 : lclusterbits ≤ 14)
    (hf : ∀ j, (cvAt j).Fits lclusterbits) (hc : c.1 < 2 ^ 32)
    (hin : .ofIndex (LclusterIndex.decode mem (legacyMapHeaderSize + 8 * k)) = cvAt k)
    (hzero : cvAt (k + 1) = .zero) :
    ∃ s', convertFinal lclusterbits big s = .ok s' ∧ s'.out = s.out + 8 ∧
      (∀ a < s.out, s'.mem a = s.mem a) ∧
      PackAt cvAt c big lclusterbits 4 2 16 s'.mem k s.out := by
  obtain ⟨s', hw, -, hout, -, hframe, hpack⟩ := writeCompactedIndexes_spec
    big (.four h14) hf hc (s := { s with inp := s.inp + 8 }) hv.carry
  have hdec : LclusterIndex.decode s.mem s.inp =
      LclusterIndex.decode mem (legacyMapHeaderSize + 8 * k) := by
    rw [hv.inp_eq]
    exact LclusterIndex.decode_congr fun a ha => hv.rest a (by rw [hv.inp_eq]; omega)
  have hcvs : parseLegacyIndexes s.mem s.inp 1 ++ [.zero] = cvSlice cvAt k 2 := by
    have hone : List.range 1 = [0] := rfl
    have htwo : List.range 2 = [0, 1] := rfl
    rw [parseLegacyIndexes, cvSlice, hone, htwo]
    simp only [List.map_cons, List.map_nil, List.cons_append, List.nil_append, Nat.mul_zero,
      Nat.add_zero, hdec, hin, hzero]
  refine ⟨s', ?_, hout, fun a ha => hframe a (Or.inl ha), hpack⟩
  rw [convertFinal, hcvs]
  exact hw

/-- The address state in front of the first index. -/
def startCarry (big : Bool) (blkaddr : ℕ) : ℕ × Bool :=
  (if big then blkaddr else dec32 blkaddr, !big)

theorem startCarry_lt {blkaddr : ℕ} (h : blkaddr < 2 ^ 32) (big : Bool) :
    (startCarry big blkaddr).1 < 2 ^ 32 := by
  rw [startCarry]
  split_ifs
  · exact h
  · exact dec32_lt blkaddr

theorem zErofsConvertToCompactedFormat_spec {vi : Inode} {blkaddr totalidx n4 n2 : ℕ}
    {mem : Mem} (hblk : blkaddr < 2 ^ 32) (hle : vi.sbi.blkszbits ≤ vi.zLogicalClusterbits)
    (h14 : vi.zLogicalClusterbits ≤ 14)
    (h2 : vi.zAdvise.compacted2B = true → vi.zLogicalClusterbits ≤ 12)
    (hn4 : (compactedCounts vi.zAdvise.compacted2B
      (roundUp (vi.inodeIsize + vi.xattrIsize) 8 + 8) totalidx).1 = n4)
    (hn2 : (compactedCounts vi.zAdvise.compacted2B
      (roundUp (vi.inodeIsize + vi.xattrIsize) 8 + 8) totalidx).2.1 = n2)
    (hf : ∀ j, (cvAt j).Fits vi.zLogicalClusterbits)
    (hin : ∀ j < totalidx,
      .ofIndex (LclusterIndex.decode mem (legacyMapHeaderSize + 8 * j)) = cvAt j)
    (hzero : ∀ j, totalidx ≤ j → cvAt j = .zero) :
    ∃ mem' isize,
      zErofsConvertToCompactedFormat vi blkaddr (legacyMapHeaderSize + 8 * totalidx) mem =
        .ok (mem', isize) ∧
      ∀ lcn < totalidx,
        PackAt cvAt (startCarry vi.sbi.bigPcluster blkaddr) vi.sbi.bigPcluster
          vi.zLogicalClusterbits (packPlace n4 n2 lcn).destsize (packPlace n4 n2 lcn).vcnt
          (packPlace n4 n2 lcn).encodebits mem' (packPlace n4 n2 lcn).first
          (8 + (packPlace n4 n2 lcn).base) ∧
        8 + (packPlace n4 n2 lcn).base + (packPlace n4 n2 lcn).packsz ≤ isize ∧
        (lcn + 1 = totalidx →
          8 + (packPlace n4 n2 lcn).base + (packPlace n4 n2 lcn).packsz = isize) := by
  have hmpos : (roundUp (vi.inodeIsize + vi.xattrIsize) 8 + 8) % 8 = 0 := by
    unfold roundUp
    omega
  obtain ⟨hcounts, hn3⟩ := counts_compactedCounts hmpos h2
  have hc := startCarry_lt hblk vi.sbi.bigPcluster
  have htotal : (legacyMapHeaderSize + 8 * totalidx - legacyMapHeaderSize) / 8 = totalidx := by
    omega
  unfold zErofsConvertToCompactedFormat
  simp only [htotal, if_neg (Nat.not_lt.mpr hle), if_neg (Nat.not_lt.mpr h14)]
  rw [if_neg (fun h => absurd (h2 h.1) (Nat.not_le.mpr h.2))]
  rw [hn4, hn2] at hcounts hn3
  have heven := hcounts.even
  have hwhole := hcounts.whole
  obtain ⟨n5, htot⟩ : ∃ n5, totalidx = n4 + n2 + n5 := Nat.exists_eq_add_of_le hcounts.le
  have hrest : totalidx - n4 - n2 = n5 := by
    rw [Nat.sub_sub, htot, Nat.add_sub_cancel_left]
  rw [hn4, hn2, hn3, hrest]
  clear hmpos htotal hn4 hn2 hn3 hrest
  -- the three loops, each from the state in which the one before it has stopped
  have h₀ : Converted cvAt (startCarry vi.sbi.bigPcluster blkaddr) mem
      ⟨mem, legacyMapHeaderSize, 8, if vi.sbi.bigPcluster then blkaddr
        else dec32 blkaddr, !vi.sbi.bigPcluster⟩ 0 :=
    ⟨rfl, show 8 ≤ legacyMapHeaderSize by decide, rfl, fun _ _ => rfl⟩
  obtain ⟨s₁, hrun₁, h₁, hout₁, -, hpacks₁⟩ := h₀.packs vi.sbi.bigPcluster
    (.four h14) hf hc (n := n4 / 2) hin (by omega)
  obtain ⟨s₂, hrun₂, h₂, hout₂, hkeep₂, hpacks₂⟩ : ∃ s₂,
      convertPacks 2 16 vi.zLogicalClusterbits vi.sbi.bigPcluster (n2 / 16) s₁ = .ok s₂ ∧
      Converted cvAt (startCarry vi.sbi.bigPcluster blkaddr) mem s₂
        (0 + 2 * (n4 / 2) + 16 * (n2 / 16)) ∧ s₂.out = s₁.out + 2 * 16 * (n2 / 16) ∧
      (∀ a < s₁.out, s₂.mem a = s₁.mem a) ∧
      ∀ p < n2 / 16, PackAt cvAt (startCarry vi.sbi.bigPcluster blkaddr) vi.sbi.bigPcluster
        vi.zLogicalClusterbits 2 16 14 s₂.mem (0 + 2 * (n4 / 2) + 16 * p)
        (s₁.out + 2 * 16 * p) := by
    rcases Nat.eq_zero_or_pos n2 with h0 | hpos
    · subst h0
      exact ⟨s₁, rfl, h₁, rfl, fun _ _ => rfl, fun p hp => absurd hp (by omega)⟩
    · exact h₁.packs vi.sbi.bigPcluster (.two (hcounts.two hpos)) hf hc hin (by omega)
  obtain ⟨s₃, hrun₃, h₃, hout₃, hkeep₃, hpacks₃⟩ := h₂.packs vi.sbi.bigPcluster
    (.four h14) hf hc (n := n5 / 2) hin (by omega)
  have ho₁ : s₁.out = 8 + 4 * 2 * (n4 / 2) := hout₁
  simp only [hrun₁, hrun₂, hrun₃]
  -- a final pack only adds bytes behind the ones written so far
  obtain ⟨s₄, heven₄, hodd₄, hkeep₄, hisize, hlast⟩ : ∃ s₄ : ConvertState,
      (n5 % 2 = 0 → s₄ = s₃) ∧
      (¬ n5 % 2 = 0 →
        convertFinal vi.zLogicalClusterbits vi.sbi.bigPcluster s₃ = .ok s₄) ∧
      (∀ a < s₃.out, s₄.mem a = s₃.mem a) ∧
      s₄.out = s₃.out + 8 * (n5 % 2) ∧
      (¬ n5 % 2 = 0 →
        PackAt cvAt (startCarry vi.sbi.bigPcluster blkaddr) vi.sbi.bigPcluster
          vi.zLogicalClusterbits 4 2 16 s₄.mem (totalidx - 1) s₃.out) := by
    by_cases hodd : n5 % 2 = 0
    · exact ⟨s₃, fun _ => rfl, fun h => absurd hodd h, fun _ _ => rfl, by omega,
        fun h => absurd hodd h⟩
    · have hk : 0 + 2 * (n4 / 2) + 16 * (n2 / 16) + 2 * (n5 / 2) =
          totalidx - 1 := by omega
      rw [hk] at h₃
      obtain ⟨s₄, hrun₄, hout₄, hkeep₄, hpack₄⟩ := h₃.final h14 hf
        hc (hin _ (by omega)) (hzero _ (by omega))
      exact ⟨s₄, fun h => absurd h hodd, fun _ => hrun₄, hkeep₄, by omega, fun _ => hpack₄⟩
  refine ⟨s₄.mem, s₄.out, ?_, ?_⟩
  · split_ifs with hodd
    · rw [heven₄ hodd]
    · rw [hodd₄ hodd]
  intro lcn hlcn
  unfold packPlace
  split_ifs with hlt₁ hlt₂
  all_goals simp only [PackPlace.packsz, PackPlace.destsize]
  · refine ⟨?_, by omega, by omega⟩
    have hpack := hpacks₁ (lcn / 2) (by omega)
    rw [Nat.zero_add] at hpack
    exact hpack.congr (.four h14) fun i hi => by
      rw [hkeep₄ _ (by omega), hkeep₃ _ (by omega), hkeep₂ _ (by omega)]
  · refine ⟨?_, by omega, by omega⟩
    have hpack := hpacks₂ ((lcn - n4) / 16) (by omega)
    have hk : 0 + 2 * (n4 / 2) = n4 := by omega
    have hb : s₁.out + 2 * 16 * ((lcn - n4) / 16) = 8 + (4 * n4 + 32 * ((lcn - n4) / 16)) := by
      omega
    rw [hk, hb] at hpack
    exact hpack.congr (.two (hcounts.two (by omega))) fun i hi => by
      rw [hkeep₄ _ (by omega), hkeep₃ _ (by omega)]
  · have hb : s₂.out + 4 * 2 * ((lcn - n4 - n2) / 2) =
        8 + (4 * n4 + 2 * n2 + 8 * ((lcn - n4 - n2) / 2)) := by omega
    have hk : 0 + 2 * (n4 / 2) + 16 * (n2 / 16) = n4 + n2 := by omega
    refine ⟨?_, by omega, by omega⟩
    by_cases hlast' : (lcn - n4 - n2) / 2 < n5 / 2
    · have hpack := hpacks₃ _ hlast'
      rw [hk, hb] at hpack
      exact hpack.congr (.four h14) fun i hi => by rw [hkeep₄ _ (by omega)]
    · have hpack := hlast (by omega)
      have hk' : totalidx - 1 = n4 + n2 + 2 * ((lcn - n4 - n2) / 2) := by omega
      have hb' : s₃.out = 8 + (4 * n4 + 2 * n2 + 8 * ((lcn - n4 - n2) / 2)) := by omega
      rw [hk', hb'] at hpack
      exact hpack

end Convert

end ErofsUtils
