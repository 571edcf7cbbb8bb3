import ErofsUtils.CompactLoad

/-!
# The length of an extent

The mapper finds the length of an extent by a walk over its slots: from the head to the slot behind
it, and from there as far as each slot says that the extent goes on. In the FULL layout every slot
has a field of 16 bits for that. In the COMPACT layout the slots of a pack are counted, and only the
last one of them stores a distance.
-/

namespace ErofsUtils
open ByteMemory

section Walk

variable {vi : Inode} {blk : BlkRead} {pre post : List InmemExtent} {e : InmemExtent}
  {shown : Shown}

theorem zErofsGetExtentDecompressedlen_nonhead {la lcn : ℕ} {m m' : Maprecorder}
    (hin : ¬ vi.iSize ≤ lcn * 2 ^ vi.zLogicalClusterbits)
    (hload : zErofsLoadClusterFromDisk vi blk m lcn true = .ok m') (ht : m'.type = .nonhead) :
    zErofsGetExtentDecompressedlen vi blk la m lcn =
      if m'.delta1 = 0 then .ok (sub64 (lcn * 2 ^ vi.zLogicalClusterbits + m'.clusterofs) la)
      else zErofsGetExtentDecompressedlen vi blk la m' (lcn + m'.delta1) := by
  rw [zErofsGetExtentDecompressedlen, if_neg hin]
  split
  · next herr => rw [hload] at herr; cases herr
  · next m₁ hok =>
      obtain rfl : m' = m₁ := by rw [hload] at hok; injection hok
      simp only [ht]

/-- The walk has reached the slot behind the extent, or the end of the file. -/
theorem Indexed.decompressedlen_end (hf : Indexed vi blk pre e post shown)
    (m : Maprecorder) {lcn : ℕ}
    (hlcn : lcn = totalLength pre / vi.sbi.blksz +
      max (extentSpan vi.sbi.blksz (totalLength pre) e) 1) :
    zErofsGetExtentDecompressedlen vi blk (totalLength pre) m lcn = .ok e.length := by
  have hb := vi.sbi.blksz_pos
  have hpow := hf.pow_lclusterbits
  have hdiv := div_add_extentSpan hb (totalLength pre) e
  have hend := hf.end_le
  have hsize := hf.size_lt
  have hmod := Nat.mod_lt (totalLength pre + e.length) hb
  have hda := Nat.div_add_mod (totalLength pre + e.length) vi.sbi.blksz
  have hlast : post = [] → vi.iSize = totalLength pre + e.length := by
    rintro rfl
    rw [hf.size, totalLength_append, totalLength_cons, totalLength_nil, Nat.add_zero]
  have hnext : post ≠ [] → 0 < extentSpan vi.sbi.blksz (totalLength pre) e := by
    intro hne
    have hs := (spans_append hf.spans).2.2.1 hne
    rw [Nat.zero_add] at hs
    exact extentSpan_pos hb hs
  rw [zErofsGetExtentDecompressedlen, hpow]
  have heof (hle : vi.iSize ≤ lcn * vi.sbi.blksz) (heq : vi.iSize = totalLength pre + e.length) :
      sub64 vi.iSize (totalLength pre) = e.length := by
    rw [sub64_of_le (by omega) (by omega)]
    omega
  rcases Nat.eq_zero_or_pos (extentSpan vi.sbi.blksz (totalLength pre) e) with h0 | hpos
  · have hsz := hlast (by
      by_contra hne
      have := hnext hne
      omega)
    have hle : vi.iSize ≤ lcn * vi.sbi.blksz := by
      have hlt := lt_next_cluster hb (totalLength pre + e.length)
      rw [hdiv, h0, Nat.add_zero] at hlt
      rw [hlcn, h0, hsz]
      exact hlt.le
    rw [if_pos hle, heof hle hsz]
  · have hlcn' : lcn = (totalLength pre + e.length) / vi.sbi.blksz := by
      rw [hlcn, Nat.max_eq_left hpos, hdiv]
    have hle := Nat.div_mul_le_self (totalLength pre + e.length) vi.sbi.blksz
    rw [← hlcn'] at hle hda
    rw [Nat.mul_comm] at hda
    by_cases hfin : vi.iSize ≤ lcn * vi.sbi.blksz
    · rw [if_pos hfin, heof hfin (by omega)]
    · have hmore : post ≠ [] ∨ (totalLength pre + e.length) % vi.sbi.blksz ≠ 0 := by
        by_contra hnot
        rw [not_or, not_not, not_not] at hnot
        have := hlast hnot.1
        omega
      obtain ⟨s, hs, hstart⟩ := slot_after hb hf.spans (by omega) hmore
      rw [← hdiv, ← hlcn'] at hs
      obtain ⟨m', hload, -, htype, hofs, -⟩ := hf.start _ _ s hs hstart m true
      have hne : lcn ≠ totalLength pre / vi.sbi.blksz := by omega
      have hlen : sub64 (lcn * vi.sbi.blksz + m'.clusterofs) (totalLength pre) = e.length := by
        rw [hofs, hda, sub64_of_le (by omega) (by omega)]
        omega
      rw [if_neg hfin]
      split
      · next herr => rw [hload] at herr; cases herr
      · next m₁ hok =>
          obtain rfl : m' = m₁ := by rw [hload] at hok; injection hok
          rcases htype with ht | ht <;> simp only [ht, if_pos hne, hlen]

/-- A slot that the extent covers to its end lies inside the file. -/
theorem Indexed.slot_inside (hf : Indexed vi blk pre e post shown) {i : ℕ}
    (hi : i < extentSpan vi.sbi.blksz (totalLength pre) e) :
    (totalLength pre / vi.sbi.blksz + i + 1) * vi.sbi.blksz ≤ totalLength pre + e.length ∧
      ¬ vi.iSize ≤ (totalLength pre / vi.sbi.blksz + i) * 2 ^ vi.zLogicalClusterbits := by
  have hb := vi.sbi.blksz_pos
  have hend := hf.end_le
  have hdiv := div_add_extentSpan hb (totalLength pre) e
  have hle : (totalLength pre / vi.sbi.blksz + i + 1) * vi.sbi.blksz ≤
      totalLength pre + e.length := Nat.mul_le_of_le_div _ _ _ (by omega)
  refine ⟨hle, ?_⟩
  rw [hf.pow_lclusterbits]
  rw [Nat.succ_mul] at hle
  omega

/-- Every slot behind the head leads on inside the extent. -/
def LooksAhead (vi : Inode) (blk : BlkRead) (pre : List InmemExtent) (e : InmemExtent) : Prop :=
  ∀ i, i ≠ 0 → i < extentSpan vi.sbi.blksz (totalLength pre) e → ∀ m,
    ∃ m', zErofsLoadClusterFromDisk vi blk m (totalLength pre / vi.sbi.blksz + i) true =
        .ok m' ∧ m'.type = .nonhead ∧ m'.delta1 ≠ 0 ∧
      i + m'.delta1 ≤ extentSpan vi.sbi.blksz (totalLength pre) e

theorem Indexed.decompressedlen_from (hf : Indexed vi blk pre e post shown)
    (hahead : LooksAhead vi blk pre e) {i : ℕ} (h0 : i ≠ 0)
    (hi : i ≤ max (extentSpan vi.sbi.blksz (totalLength pre) e) 1) (m : Maprecorder) :
    zErofsGetExtentDecompressedlen vi blk (totalLength pre) m
      (totalLength pre / vi.sbi.blksz + i) = .ok e.length := by
  obtain ⟨n, hn⟩ := Nat.exists_eq_add_of_le hi
  induction n using Nat.strong_induction_on generalizing i m with
  | _ n ih =>
      rcases Nat.lt_or_ge i (extentSpan vi.sbi.blksz (totalLength pre) e) with hlt | hge
      · obtain ⟨m', hload, htype, hne, hle⟩ := hahead i h0 hlt m
        rw [zErofsGetExtentDecompressedlen_nonhead (hf.slot_inside hlt).2 hload htype,
          if_neg hne, Nat.add_assoc]
        exact ih (n - m'.delta1) (by omega) (by omega) (by omega) m' (by omega)
      · exact hf.decompressedlen_end m (by omega)

theorem Indexed.decompressedlen_head (hf : Indexed vi blk pre e post shown)
    (m : Maprecorder) {lcn : ℕ}
    (hlcn : lcn = totalLength pre / vi.sbi.blksz ∨ lcn = totalLength pre / vi.sbi.blksz + 1) :
    ∃ m', zErofsGetExtentDecompressedlen vi blk (totalLength pre) m lcn =
      zErofsGetExtentDecompressedlen vi blk (totalLength pre) m'
        (totalLength pre / vi.sbi.blksz + 1) := by
  rcases hlcn with rfl | rfl
  · have hlen := (spans_append hf.spans).1
    have hend := hf.end_le
    have hle := Nat.div_mul_le_self (totalLength pre) vi.sbi.blksz
    obtain ⟨m', hload, -, htype, -⟩ := hf.head m true
    refine ⟨{ m' with delta1 := 1 }, ?_⟩
    rw [zErofsGetExtentDecompressedlen, hf.pow_lclusterbits, if_neg (by omega)]
    split
    · next herr => rw [hload] at herr; cases herr
    · next m₁ hok =>
        obtain rfl : m' = m₁ := by rw [hload] at hok; injection hok
        rcases e.headtype_cases with ht | ht <;> rw [ht] at htype <;>
          simp only [htype, ne_eq, not_true_eq_false, if_false, Nat.one_ne_zero]
  · exact ⟨m, rfl⟩

theorem Indexed.decompressedlen (hf : Indexed vi blk pre e post shown)
    (hahead : LooksAhead vi blk pre e) (m : Maprecorder) {lcn : ℕ}
    (hlcn : lcn = totalLength pre / vi.sbi.blksz ∨ lcn = totalLength pre / vi.sbi.blksz + 1) :
    zErofsGetExtentDecompressedlen vi blk (totalLength pre) m lcn = .ok e.length := by
  obtain ⟨m', heq⟩ := hf.decompressedlen_head m hlcn
  rw [heq]
  exact hf.decompressedlen_from hahead Nat.one_ne_zero (Nat.le_max_right _ _) m'

/-- The slots from `i` on lead to no slot behind `last`. -/
def HeldBack (vi : Inode) (blk : BlkRead) (pre : List InmemExtent) (last : ℕ) : Prop :=
  ∀ i, i ≠ 0 → i ≤ last → ∀ m,
    ∃ m', zErofsLoadClusterFromDisk vi blk m (totalLength pre / vi.sbi.blksz + i) true =
        .ok m' ∧ m'.type = .nonhead ∧ m'.clusterofs = u16 (2 ^ vi.zLogicalClusterbits) ∧
      i + m'.delta1 ≤ last

theorem Indexed.decompressedlen_short (hf : Indexed vi blk pre e post shown) {last : ℕ}
    (hlast : last + 1 < extentSpan vi.sbi.blksz (totalLength pre) e)
    (hback : HeldBack vi blk pre last) {i : ℕ} (h0 : i ≠ 0) (hi : i ≤ last) (m : Maprecorder) :
    ∃ llen < e.length, zErofsGetExtentDecompressedlen vi blk (totalLength pre) m
      (totalLength pre / vi.sbi.blksz + i) = .ok llen := by
  obtain ⟨n, hn⟩ := Nat.exists_eq_add_of_le hi
  induction n using Nat.strong_induction_on generalizing i m with
  | _ n ih =>
      obtain ⟨m', hload, htype, hofs, hle⟩ := hback i h0 hi m
      obtain ⟨hnext, -⟩ := hf.slot_inside (i := i + 1) (by omega)
      have hin := (hf.slot_inside (i := i) (by omega)).2
      rw [zErofsGetExtentDecompressedlen_nonhead hin hload htype]
      by_cases hz : m'.delta1 = 0
      · have hb := vi.sbi.blksz_pos
        have hend := hf.end_le
        have hsize := hf.size_lt
        have hge : totalLength pre < (totalLength pre / vi.sbi.blksz + 1) * vi.sbi.blksz :=
          lt_next_cluster hb _
        have hmono : (totalLength pre / vi.sbi.blksz + 1) * vi.sbi.blksz ≤
            (totalLength pre / vi.sbi.blksz + i + 1) * vi.sbi.blksz :=
          Nat.mul_le_mul_right _ (by omega)
        have hstop : (totalLength pre / vi.sbi.blksz + i) * vi.sbi.blksz + vi.sbi.blksz =
            (totalLength pre / vi.sbi.blksz + i + 1) * vi.sbi.blksz := (Nat.succ_mul _ _).symm
        -- in lclusters of 64 KiB the field is cut to zero
        have hcut : u16 vi.sbi.blksz ≤ vi.sbi.blksz := Nat.mod_le _ _
        have hfrom : (totalLength pre / vi.sbi.blksz + 1) * vi.sbi.blksz ≤
            (totalLength pre / vi.sbi.blksz + i) * vi.sbi.blksz :=
          Nat.mul_le_mul_right _ (by omega)
        rw [← Nat.add_assoc, Nat.succ_mul] at hnext
        rw [if_pos hz, hofs, hf.pow_lclusterbits, sub64_of_le (by omega) (by omega)]
        exact ⟨_, by omega, rfl⟩
      · rw [if_neg hz, Nat.add_assoc]
        exact ih (n - m'.delta1) (by omega) (by omega) hle m' (by omega)

end Walk

section Query

variable {vi : Inode} {blk : BlkRead} {pre post : List InmemExtent} {e : InmemExtent}
  {shown : Shown} {m : Maprecorder} {ofs q : ℕ} {full : Bool}

/-- The pcluster of an extent is found from its head, and a raw one holds the mapped range. -/
theorem Indexed.pcluster_ok (hf : Indexed vi blk pre e post shown)
    (hl : LaidFile vi (pre ++ e :: post))
    (hread : HasBlocks vi post → CountReadable vi pre e post)
    (hm : HeadAt vi shown pre e post ofs m q full) (hge : totalLength pre ≤ ofs)
    (hlt : ofs < totalLength pre + e.length) (map : MapBlocks) :
    ∃ m' map', zErofsMapPcluster vi blk m (headMap map m (totalLength pre) q full) =
        .ok (m', map') ∧
      (m'.lcn = totalLength pre / vi.sbi.blksz ∨ m'.lcn = totalLength pre / vi.sbi.blksz + 1) ∧
      map'.mLa = totalLength pre ∧ ¬ (m'.headtype = .plain ∧ map'.mPlen < map'.mLlen) := by
  have hplain (h : e.headtype = .plain) : e.raw = true := by
    by_contra hne
    simp [InmemExtent.headtype, hne] at h
  have hllen := hf.sub64_llen hm hge hlt
  by_cases hblocks : HasBlocks vi post
  · have hb := hl.extents pre e post rfl hblocks
    obtain ⟨m', c, hlen, hkeep, hlcn, hc⟩ := hf.compressedlen_ok hb hm (hread hblocks)
    rw [hf.mapPcluster hl hblocks hm, hlen]
    refine ⟨m', _, rfl, hlcn, rfl, ?_⟩
    rintro ⟨ht, hlong⟩
    rw [hkeep] at ht
    have hraw := hplain ht
    have hcone : c = 1 := by
      rcases hc with rfl | ⟨hnot, -⟩
      · exact hb.raw_cblks hraw
      · rw [hraw] at hnot
        cases hnot
    have hl := hb.raw_length hraw
    have hq := hm.le_extent
    simp only [headMap, hllen, hcone, Nat.one_mul] at hlong
    omega
  · obtain ⟨hnil, hord⟩ := not_or.mp hblocks
    obtain rfl : post = [] := not_not.mp hnil
    have hlcn : m.lcn = vi.zTailextentHeadlcn := by rw [hm.lcn, hl.headlcn pre e rfl hord]
    unfold zErofsMapPcluster
    by_cases hinl : vi.zAdvise.inlinePcluster = true
    · rw [if_pos ⟨hinl, hlcn⟩]
      refine ⟨m, _, rfl, Or.inl hm.lcn, rfl, ?_⟩
      rintro ⟨ht, hlong⟩
      rw [hm.headtype] at ht
      have hl := (hl.rawTail pre e rfl hord (hplain ht)).2
      have hq := hm.le_end (Or.inr hinl)
      simp only [headMap, hllen] at hlong
      omega
    · have hfrag : vi.zAdvise.fragmentPcluster = true := by
        by_contra hne
        exact hord ⟨by simpa using hinl, by simpa using hne⟩
      rw [if_neg (fun h => hinl h.1), if_pos ⟨hfrag, hlcn⟩]
      refine ⟨m, _, rfl, Or.inl hm.lcn, rfl, ?_⟩
      rintro ⟨ht, -⟩
      rw [hm.headtype] at ht
      exact hinl (hl.rawTail pre e rfl hord (hplain ht)).1

theorem zErofsDoMapBlocks_fiemap {map : MapBlocks} {m₀ : Maprecorder} {la : ℕ}
    (hload : zErofsLoadClusterFromDisk vi blk .init (map.mLa / 2 ^ vi.zLogicalClusterbits)
      false = .ok m₀)
    (hhead : zErofsMapHead vi blk m₀ (map.mLa % 2 ^ vi.zLogicalClusterbits) =
      .ok (m, la, q, full)) :
    zErofsDoMapBlocks vi blk map { fiemap := true } =
      match zErofsMapPcluster vi blk m (headMap map m la q full) with
      | .error e => .error e
      | .ok (m, map) =>
        if m.headtype = .plain ∧ map.mPlen < map.mLlen then .error .efscorrupted
        else match zErofsGetExtentDecompressedlen vi blk map.mLa m m.lcn with
          | .error e => .error e
          | .ok llen => .ok (vi, { map with
              mAlgorithmformat := mapFormat vi m.headtype
              mLlen := llen, mFlags := { map.mFlags with fullMapped := true } }) := by
  unfold zErofsDoMapBlocks
  simp only [Bool.false_eq_true, and_false, if_false, hload, hhead, if_true]
  rfl

/-- A length query inside an extent walks from its head, or from the slot behind it. -/
theorem Indexed.fiemap (hf : Indexed vi blk pre e post shown)
    (hl : LaidFile vi (pre ++ e :: post))
    (hread : HasBlocks vi post → CountReadable vi pre e post)
    (hge : totalLength pre ≤ ofs) (hlt : ofs < totalLength pre + e.length) (map : MapBlocks)
    (hmap : map.mLa = ofs) :
    ∃ (m : Maprecorder) (lcn : ℕ) (map' : MapBlocks), (lcn = totalLength pre / vi.sbi.blksz ∨
        lcn = totalLength pre / vi.sbi.blksz + 1) ∧ map'.mLa = totalLength pre ∧
      zErofsDoMapBlocks vi blk map { fiemap := true } =
        (zErofsGetExtentDecompressedlen vi blk (totalLength pre) m lcn).map
          fun llen => (vi, { map' with mLlen := llen }) := by
  have hpow : 2 ^ vi.zLogicalClusterbits = vi.sbi.blksz := hf.pow_lclusterbits
  obtain ⟨m₀, m, q, full, hload, hhead, hm⟩ := hf.mapHead hge hlt
  obtain ⟨m', map', hok, hlcn, hla, hnot⟩ := hf.pcluster_ok hl hread hm hge hlt map
  rw [zErofsDoMapBlocks_fiemap (by rwa [hpow, hmap]) (by rwa [hpow, hmap]), hok]
  simp only
  rw [if_neg hnot, hla]
  refine ⟨m', m'.lcn, { map' with
    mLa := totalLength pre, mAlgorithmformat := mapFormat vi m'.headtype
    mFlags := { map'.mFlags with fullMapped := true } }, hlcn, rfl, ?_⟩
  cases zErofsGetExtentDecompressedlen vi blk (totalLength pre) m' m'.lcn <;> rfl

end Query

end ErofsUtils
