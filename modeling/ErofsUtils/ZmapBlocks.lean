import ErofsUtils.Zmap

/-!
# The block mapper of compressed inodes

`z_erofs_do_map_blocks` with the lookback to the head of an extent and the two length
queries, and its caller `z_erofs_map_blocks_iter` with the lazy decoding of the map header.
The lookback recursion and the forward walk terminate for every index: the first moves to
a smaller lcluster number each time, the second to a larger one below the end of the file.
-/

namespace ErofsUtils
open ByteMemory

/-- `m_algorithmformat`. -/
inductive AlgorithmFormat
  | alg (id : ℕ)
  | shifted
  | interlaced
  deriving DecidableEq, Repr

structure MapFlags where
  mapped : Bool := false
  inMeta : Bool := false
  encoded : Bool := false
  fullMapped : Bool := false
  fragment : Bool := false
  partialRef : Bool := false
  deriving DecidableEq, Repr

/-- `struct erofs_map_blocks` without its page cache. -/
structure MapBlocks where
  mPa : ℕ := 0
  mLa : ℕ := 0
  mPlen : ℕ := 0
  mLlen : ℕ := 0
  mAlgorithmformat : AlgorithmFormat := .alg 0
  mFlags : MapFlags := {}
  deriving DecidableEq, Repr

structure GetBlocks where
  fiemap : Bool := false
  findtail : Bool := false
  deriving DecidableEq, Repr

theorem legacyDecodeIndex_lcn {vi : Inode} {m m' : Maprecorder} {di : LclusterIndex}
    (h : legacyDecodeIndex vi m di = .ok m') : m'.lcn = m.lcn := by
  unfold legacyDecodeIndex at h
  split at h
  · simp only [ne_eq] at h
    split_ifs at h <;> cases h <;> rfl
  · cases h; rfl
  · cases h; rfl
  · cases h

theorem unpackCompactedSlot_lcn {vi : Inode} {m m' : Maprecorder}
    {dec : ℕ → ℕ × LclusterType} {vcnt i base : ℕ} {lookahead : Bool}
    (h : unpackCompactedSlot vi m dec vcnt i base lookahead = .ok m') : m'.lcn = m.lcn := by
  unfold unpackCompactedSlot at h
  simp only at h
  split_ifs at h
  all_goals first
    | (cases h; rfl)
    | (split at h <;> cases h; rfl)

/-- A load that succeeds leaves the recorder at the lcluster it was asked for. -/
theorem zErofsLoadClusterFromDisk_lcn {vi : Inode} {blk : BlkRead} {m m' : Maprecorder}
    {lcn : ℕ} {lookahead : Bool}
    (h : zErofsLoadClusterFromDisk vi blk m lcn lookahead = .ok m') : m'.lcn = u32 lcn := by
  unfold zErofsLoadClusterFromDisk at h
  split at h
  · unfold legacyLoadClusterFromDisk at h
    simp only at h
    split at h
    · cases h
    · exact legacyDecodeIndex_lcn h
  · unfold compactedLoadClusterFromDisk at h
    simp only at h
    split_ifs at h
    split at h
    · cases h
    · unfold unpackCompactedIndex at h
      simp only at h
      split_ifs at h
      all_goals exact unpackCompactedSlot_lcn h
  · cases h

/-- `z_erofs_extent_lookback`; also returns the logical address it stores in `m_la`. -/
def zErofsExtentLookback (vi : Inode) (blk : BlkRead) (m : Maprecorder)
    (lookbackDistance : ℕ) : Except Errno (Maprecorder × ℕ) :=
  if m.lcn < lookbackDistance then .error .efscorrupted
  else match _hload : zErofsLoadClusterFromDisk vi blk m (m.lcn - lookbackDistance) false with
    | .error e => .error e
    | .ok m' =>
      match m'.type with
      | .nonhead =>
        if m'.delta0 = 0 then .error .efscorrupted
        else zErofsExtentLookback vi blk m' m'.delta0
      | .plain | .head1 =>
        .ok ({ m' with headtype := m'.type },
          (m'.lcn * 2 ^ vi.zLogicalClusterbits) ||| m'.clusterofs)
      | .head2 => .error .eopnotsupp
termination_by m.lcn + 1 - lookbackDistance
decreasing_by
  have hlcn := zErofsLoadClusterFromDisk_lcn _hload
  have hle := Nat.mod_le (m.lcn - lookbackDistance) (2 ^ 32)
  rw [u32] at hlcn
  omega

section Lookback

variable {vi : Inode} {blk : BlkRead} {m m' : Maprecorder} {d : ℕ}

theorem zErofsExtentLookback_of_head (hd : d ≤ m.lcn)
    (hload : zErofsLoadClusterFromDisk vi blk m (m.lcn - d) false = .ok m')
    (ht : m'.type = .plain ∨ m'.type = .head1) :
    zErofsExtentLookback vi blk m d = .ok ({ m' with headtype := m'.type },
      (m'.lcn * 2 ^ vi.zLogicalClusterbits) ||| m'.clusterofs) := by
  rw [zErofsExtentLookback, if_neg (by omega)]
  split
  · next e he => rw [hload] at he; cases he
  · next m₁ he =>
      obtain rfl : m' = m₁ := by rw [hload] at he; injection he
      rcases ht with ht | ht <;> simp only [ht]

theorem zErofsExtentLookback_of_nonhead (hd : d ≤ m.lcn)
    (hload : zErofsLoadClusterFromDisk vi blk m (m.lcn - d) false = .ok m')
    (ht : m'.type = .nonhead) (h0 : m'.delta0 ≠ 0) :
    zErofsExtentLookback vi blk m d = zErofsExtentLookback vi blk m' m'.delta0 := by
  rw [zErofsExtentLookback, if_neg (by omega)]
  split
  · next e he => rw [hload] at he; cases he
  · next m₁ he =>
      obtain rfl : m' = m₁ := by rw [hload] at he; injection he
      simp only [ht, if_neg h0]

inductive LookbackRun (vi : Inode) (blk : BlkRead) : Maprecorder → ℕ → Maprecorder → Prop
  | head {m m₁ : Maprecorder} {d : ℕ} (hd : d ≤ m.lcn)
      (hload : zErofsLoadClusterFromDisk vi blk m (m.lcn - d) false = .ok m₁)
      (ht : m₁.type = .plain ∨ m₁.type = .head1) :
      LookbackRun vi blk m d { m₁ with headtype := m₁.type }
  | step {m m₁ m' : Maprecorder} {d : ℕ} (hd : d ≤ m.lcn)
      (hload : zErofsLoadClusterFromDisk vi blk m (m.lcn - d) false = .ok m₁)
      (ht : m₁.type = .nonhead) (h0 : m₁.delta0 ≠ 0) (hrest : LookbackRun vi blk m₁ m₁.delta0 m') :
      LookbackRun vi blk m d m'

theorem lookbackRun_of_ok {la : ℕ} (h : zErofsExtentLookback vi blk m d = .ok (m', la)) :
    LookbackRun vi blk m d m' ∧ la = (m'.lcn * 2 ^ vi.zLogicalClusterbits) ||| m'.clusterofs := by
  induction m, d using zErofsExtentLookback.induct vi blk with
  | case1 m d hlt =>
      rw [zErofsExtentLookback, if_pos hlt] at h
      cases h
  | case2 m d hlt err hload =>
      rw [zErofsExtentLookback, if_neg hlt] at h
      split at h
      · cases h
      · next m₁ hok => rw [hload] at hok; cases hok
  | case3 m d hlt m₁ hload ht h0 =>
      rw [zErofsExtentLookback, if_neg hlt] at h
      split at h
      · cases h
      · next m₂ hok =>
          obtain rfl : m₁ = m₂ := by rw [hload] at hok; injection hok
          simp only [ht, if_pos h0] at h
          cases h
  | case4 m d hlt m₁ hload ht h0 ih =>
      rw [zErofsExtentLookback_of_nonhead (Nat.not_lt.mp hlt) hload ht h0] at h
      obtain ⟨hrun, hla⟩ := ih h
      exact ⟨.step (Nat.not_lt.mp hlt) hload ht h0 hrun, hla⟩
  | case5 m d hlt m₁ hload ht =>
      rw [zErofsExtentLookback_of_head (Nat.not_lt.mp hlt) hload (Or.inl ht)] at h
      cases h
      exact ⟨.head (Nat.not_lt.mp hlt) hload (Or.inl ht), rfl⟩
  | case6 m d hlt m₁ hload ht =>
      rw [zErofsExtentLookback_of_head (Nat.not_lt.mp hlt) hload (Or.inr ht)] at h
      cases h
      exact ⟨.head (Nat.not_lt.mp hlt) hload (Or.inr ht), rfl⟩
  | case7 m d hlt m₁ hload ht =>
      rw [zErofsExtentLookback, if_neg hlt] at h
      split at h
      · cases h
      · next m₂ hok =>
          obtain rfl : m₁ = m₂ := by rw [hload] at hok; injection hok
          simp only [ht] at h
          cases h

end Lookback

/-- `z_erofs_get_extent_compressedlen`; also returns the length it stores in `m_plen`. -/
def zErofsGetExtentCompressedlen (vi : Inode) (blk : BlkRead) (m : Maprecorder) :
    Except Errno (Maprecorder × ℕ) :=
  let lclusterbits := vi.zLogicalClusterbits
  if m.headtype = .plain ∨ ¬ vi.zAdvise.bigPcluster1 then .ok (m, 2 ^ lclusterbits)
  else if m.compressedblks ≠ 0 then .ok (m, m.compressedblks * 2 ^ vi.sbi.blkszbits)
  else match zErofsLoadClusterFromDisk vi blk m (m.lcn + 1) false with
    | .error e => .error e
    | .ok m =>
      match m.type with
      | .plain | .head1 =>
        -- a HEAD behind the HEAD: a pcluster of one lcluster
        let m := { m with compressedblks := 2 ^ (lclusterbits - vi.sbi.blkszbits) }
        .ok (m, m.compressedblks * 2 ^ vi.sbi.blkszbits)
      | .nonhead =>
        if m.delta0 ≠ 1 then .error .efscorrupted
        else if m.compressedblks ≠ 0 then .ok (m, m.compressedblks * 2 ^ vi.sbi.blkszbits)
        else .error .efscorrupted
      | .head2 => .error .efscorrupted

/-- `z_erofs_get_extent_decompressedlen` from `lcn` on, for an extent that starts at `la`. -/
def zErofsGetExtentDecompressedlen (vi : Inode) (blk : BlkRead) (la : ℕ) (m : Maprecorder)
    (lcn : ℕ) : Except Errno ℕ :=
  if vi.iSize ≤ lcn * 2 ^ vi.zLogicalClusterbits then .ok (sub64 vi.iSize la)
  else match zErofsLoadClusterFromDisk vi blk m lcn true with
    | .error e => .error e
    | .ok m =>
      let next (m : Maprecorder) : Except Errno ℕ :=
        if m.delta1 = 0 then
          .ok (sub64 (lcn * 2 ^ vi.zLogicalClusterbits + m.clusterofs) la)
        else zErofsGetExtentDecompressedlen vi blk la m (lcn + m.delta1)
      match m.type with
      | .nonhead => next m
      | .plain | .head1 =>
        if lcn ≠ la / 2 ^ vi.zLogicalClusterbits then
          .ok (sub64 (lcn * 2 ^ vi.zLogicalClusterbits + m.clusterofs) la)
        else next { m with delta1 := 1 }
      | .head2 => .error .eopnotsupp
termination_by vi.iSize - lcn * 2 ^ vi.zLogicalClusterbits
decreasing_by
  have hpos : 0 < 2 ^ vi.zLogicalClusterbits := Nat.two_pow_pos _
  have hstep : lcn * 2 ^ vi.zLogicalClusterbits + 2 ^ vi.zLogicalClusterbits ≤
      (lcn + m.delta1) * 2 ^ vi.zLogicalClusterbits := by
    rw [← Nat.succ_mul]
    exact Nat.mul_le_mul_right _ (by omega)
  omega

/-- The part of `z_erofs_do_map_blocks` that finds the head of the extent: the recorder,
`m_la`, the end of the mapped range, and whether the range is known to be full. -/
def zErofsMapHead (vi : Inode) (blk : BlkRead) (m : Maprecorder) (endoff : ℕ) :
    Except Errno (Maprecorder × ℕ × ℕ × Bool) :=
  let lclusterbits := vi.zLogicalClusterbits
  match m.type with
  | .plain | .head1 =>
    if m.clusterofs ≤ endoff then
      let e := (m.lcn + 1) * 2 ^ lclusterbits
      .ok ({ m with headtype := m.type }, (m.lcn * 2 ^ lclusterbits) ||| m.clusterofs,
        if vi.zAdvise.inlinePcluster ∧ vi.iSize < e then vi.iSize else e, false)
    else if m.lcn = 0 then .error .efscorrupted
    else match zErofsExtentLookback vi blk { m with delta0 := 1 } 1 with
      | .error e => .error e
      | .ok (m', la) => .ok (m', la, (m.lcn * 2 ^ lclusterbits) ||| m.clusterofs, true)
  | .nonhead =>
    match zErofsExtentLookback vi blk m m.delta0 with
    | .error e => .error e
    | .ok (m', la) => .ok (m', la, (m.lcn + 1) * 2 ^ lclusterbits, false)
  | .head2 => .error .eopnotsupp

section MapHead

variable {vi : Inode} {blk : BlkRead} {m m' : Maprecorder} {endoff la : ℕ}

theorem zErofsMapHead_of_ge (ht : m.type = .plain ∨ m.type = .head1)
    (hofs : m.clusterofs ≤ endoff) :
    zErofsMapHead vi blk m endoff =
      .ok ({ m with headtype := m.type },
        (m.lcn * 2 ^ vi.zLogicalClusterbits) ||| m.clusterofs,
        if vi.zAdvise.inlinePcluster ∧ vi.iSize < (m.lcn + 1) * 2 ^ vi.zLogicalClusterbits
          then vi.iSize else (m.lcn + 1) * 2 ^ vi.zLogicalClusterbits, false) := by
  unfold zErofsMapHead
  rcases ht with ht | ht <;> simp only [ht, if_pos hofs]

theorem zErofsMapHead_of_lt (ht : m.type = .plain ∨ m.type = .head1)
    (hofs : endoff < m.clusterofs) (h0 : m.lcn ≠ 0)
    (hback : zErofsExtentLookback vi blk { m with delta0 := 1 } 1 = .ok (m', la)) :
    zErofsMapHead vi blk m endoff =
      .ok (m', la, (m.lcn * 2 ^ vi.zLogicalClusterbits) ||| m.clusterofs, true) := by
  unfold zErofsMapHead
  rcases ht with ht | ht <;> rw [ht] at hback ⊢ <;>
    simp only [if_neg (Nat.not_le.mpr hofs), if_neg h0, hback]

theorem zErofsMapHead_of_nonhead (ht : m.type = .nonhead)
    (hback : zErofsExtentLookback vi blk m m.delta0 = .ok (m', la)) :
    zErofsMapHead vi blk m endoff =
      .ok (m', la, (m.lcn + 1) * 2 ^ vi.zLogicalClusterbits, false) := by
  unfold zErofsMapHead
  simp only [ht, hback]

inductive HeadCase (vi : Inode) (blk : BlkRead) (m : Maprecorder) (endoff : ℕ) :
    Maprecorder → ℕ → ℕ → Bool → Prop
  | first (ht : m.type = .plain ∨ m.type = .head1) (hofs : m.clusterofs ≤ endoff) :
      HeadCase vi blk m endoff { m with headtype := m.type }
        ((m.lcn * 2 ^ vi.zLogicalClusterbits) ||| m.clusterofs)
        (if vi.zAdvise.inlinePcluster ∧ vi.iSize < (m.lcn + 1) * 2 ^ vi.zLogicalClusterbits
          then vi.iSize else (m.lcn + 1) * 2 ^ vi.zLogicalClusterbits) false
  | before {m' : Maprecorder} {la : ℕ} (ht : m.type = .plain ∨ m.type = .head1)
      (hofs : endoff < m.clusterofs) (h0 : m.lcn ≠ 0)
      (hback : zErofsExtentLookback vi blk { m with delta0 := 1 } 1 = .ok (m', la)) :
      HeadCase vi blk m endoff m' la
        ((m.lcn * 2 ^ vi.zLogicalClusterbits) ||| m.clusterofs) true
  | inner {m' : Maprecorder} {la : ℕ} (ht : m.type = .nonhead)
      (hback : zErofsExtentLookback vi blk m m.delta0 = .ok (m', la)) :
      HeadCase vi blk m endoff m' la ((m.lcn + 1) * 2 ^ vi.zLogicalClusterbits) false

theorem zErofsMapHead_cases {q : ℕ} {full : Bool}
    (h : zErofsMapHead vi blk m endoff = .ok (m', la, q, full)) :
    HeadCase vi blk m endoff m' la q full := by
  by_cases hhead : m.type = .plain ∨ m.type = .head1
  · by_cases hofs : m.clusterofs ≤ endoff
    · rw [zErofsMapHead_of_ge hhead hofs] at h
      cases h
      exact .first hhead hofs
    · by_cases h0 : m.lcn = 0
      · unfold zErofsMapHead at h
        rcases hhead with ht | ht <;> simp only [ht, if_neg hofs, if_pos h0] at h <;> cases h
      · cases hback : zErofsExtentLookback vi blk { m with delta0 := 1 } 1 with
        | error err =>
            unfold zErofsMapHead at h
            rcases hhead with ht | ht <;> rw [ht] at hback h <;>
              simp only [if_neg hofs, if_neg h0, hback] at h <;> cases h
        | ok found =>
            rw [zErofsMapHead_of_lt hhead (Nat.not_le.mp hofs) h0 hback] at h
            cases h
            exact .before hhead (Nat.not_le.mp hofs) h0 hback
  · cases ht : m.type with
    | plain => exact absurd (Or.inl ht) hhead
    | head1 => exact absurd (Or.inr ht) hhead
    | nonhead =>
        cases hback : zErofsExtentLookback vi blk m m.delta0 with
        | error err =>
            unfold zErofsMapHead at h
            simp only [ht, hback] at h
            cases h
        | ok found =>
            rw [zErofsMapHead_of_nonhead ht hback] at h
            cases h
            exact .inner ht hback
    | head2 =>
        unfold zErofsMapHead at h
        simp only [ht] at h
        cases h

end MapHead

/-- The part of `z_erofs_do_map_blocks` that finds the pcluster of the extent. -/
def zErofsMapPcluster (vi : Inode) (blk : BlkRead) (m : Maprecorder) (map : MapBlocks) :
    Except Errno (Maprecorder × MapBlocks) :=
  if vi.zAdvise.inlinePcluster ∧ m.lcn = vi.zTailextentHeadlcn then
    .ok (m, { map with
      mFlags := { map.mFlags with inMeta := true }
      mPa := vi.zIdataoff, mPlen := vi.idataSize })
  else if vi.zAdvise.fragmentPcluster ∧ m.lcn = vi.zTailextentHeadlcn then
    .ok (m, { map with mFlags := { map.mFlags with fragment := true } })
  else match zErofsGetExtentCompressedlen vi blk m with
    | .error e => .error e
    | .ok (m', plen) => .ok (m', { map with mPa := vi.sbi.pos m.pblk, mPlen := plen })

/-- `m_algorithmformat` of an extent. -/
def mapFormat (vi : Inode) (headtype : LclusterType) : AlgorithmFormat :=
  if headtype = .plain then
    if vi.zAdvise.interlacedPcluster then .interlaced else .shifted
  else .alg vi.zAlgorithmtype

/-- `z_erofs_do_map_blocks`; also returns the inode, into which a FINDTAIL query stores. -/
def zErofsDoMapBlocks (vi : Inode) (blk : BlkRead) (map : MapBlocks) (flags : GetBlocks) :
    Except Errno (Inode × MapBlocks) :=
  let lclusterbits := vi.zLogicalClusterbits
  let ofs := if flags.findtail then sub64 vi.iSize 1 else map.mLa
  match zErofsLoadClusterFromDisk vi blk .init (ofs / 2 ^ lclusterbits) false with
  | .error e => .error e
  | .ok m =>
    let vi := if vi.zAdvise.inlinePcluster ∧ flags.findtail then vi.setIdataoff m.nextpackoff
      else vi
    match zErofsMapHead vi blk m (ofs % 2 ^ lclusterbits) with
    | .error e => .error e
    | .ok (m, la, e, full) =>
      let map := { map with
        mLa := la, mLlen := sub64 e la
        mFlags := { mapped := true, encoded := true, fullMapped := full,
                    partialRef := m.partialref } }
      let vi := if flags.findtail then
          { vi with
            zTailextentHeadlcn := m.lcn
            -- for non-compact indexes, fragmentoff is 64 bits
            fragmentoff := if vi.zAdvise.fragmentPcluster ∧ vi.datalayout = .compressedFull
              then vi.fragmentoff ||| (m.pblk * 2 ^ 32) else vi.fragmentoff }
        else vi
      match zErofsMapPcluster vi blk m map with
      | .error e => .error e
      | .ok (m, map) =>
        if m.headtype = .plain ∧ map.mPlen < map.mLlen then .error .efscorrupted
        else
          let map := { map with mAlgorithmformat := mapFormat vi m.headtype }
          if flags.fiemap then
            match zErofsGetExtentDecompressedlen vi blk map.mLa m m.lcn with
            | .error e => .error e
            | .ok llen => .ok (vi, { map with
                mLlen := llen, mFlags := { map.mFlags with fullMapped := true } })
          else .ok (vi, map)

def zErofsFillInodeLazy (vi : Inode) (blk : BlkRead) : Except Errno Inode :=
  if vi.zInited then .ok vi
  else
    let pos := roundUp (vi.iloc + vi.inodeIsize + vi.xattrIsize) 8
    match blk (vi.sbi.blknr pos) with
    | none => .error .eio
    | some buf =>
      let h := vi.sbi.blkoff pos
      let clusterbits := leNat buf (h + 7) 1
      if clusterbits / 2 ^ 7 ≠ 0 then
        .ok { vi with
          zAdvise := ⟨false, false, false, false, false, true⟩
          fragmentoff := leNat buf h 8 - 2 ^ 63
          zTailextentHeadlcn := 0
          zInited := true }
      else
        let algorithmtype := leNat buf (h + 6) 1
        let vi := { vi with
          zAdvise := Advise.ofNat (leNat buf (h + 4) 2)
          zAlgorithmtype := algorithmtype % 16 }
        if 4 ≤ vi.zAlgorithmtype then .error .eopnotsupp
        else
          let vi := { vi with zLogicalClusterbits := vi.sbi.blkszbits + clusterbits % 8 }
          if vi.datalayout = .compressedCompact ∧
              vi.zAdvise.bigPcluster1 ≠ vi.zAdvise.bigPcluster2 then .error .efscorrupted
          else
            let inl : Except Errno Inode :=
              if vi.zAdvise.inlinePcluster then
                let vi := { vi with idataSize := leNat buf (h + 2) 2 }
                match zErofsDoMapBlocks vi blk {} { findtail := true } with
                -- a failed query leaves m_plen at zero
                | .error _ => .error .efscorrupted
                | .ok (vi, map) =>
                  if map.mPlen = 0 ∨ vi.sbi.blksz < vi.sbi.blkoff map.mPa + map.mPlen
                  then .error .efscorrupted else .ok vi
              else .ok vi
            match inl with
            | .error e => .error e
            | .ok vi =>
              if vi.zAdvise.fragmentPcluster then
                match zErofsDoMapBlocks { vi with fragmentoff := leNat buf h 4 } blk {}
                    { findtail := true } with
                | .error e => .error e
                | .ok (vi, _) => .ok { vi with zInited := true }
              else .ok { vi with zInited := true }

def zErofsMapBlocksIter (vi : Inode) (blk : BlkRead) (map : MapBlocks) (flags : GetBlocks) :
    Except Errno (Inode × MapBlocks) :=
  if vi.iSize ≤ map.mLa then
    .ok (vi, { map with mLlen := map.mLa + 1 - vi.iSize, mLa := vi.iSize, mFlags := {} })
  else match zErofsFillInodeLazy vi blk with
    | .error e => .error e
    | .ok vi =>
      if vi.zAdvise.fragmentPcluster ∧ vi.zTailextentHeadlcn = 0 then
        .ok (vi, { map with
          mLa := 0, mLlen := vi.iSize
          mFlags := { mapped := true, fullMapped := true, fragment := true } })
      else zErofsDoMapBlocks vi blk map flags

end ErofsUtils
