import ErofsUtils.ExtractSound

/-!
# Extraction of flat and chunk-based files

What one lookup returns is described once for both layouts; from it follow a read of one byte and
a turn of the extraction loops.
-/

namespace ErofsUtils

theorem fileBytes_append (data : List UInt8) {a b c : ℕ} (hab : a ≤ b) (hbc : b ≤ c) :
    fileBytes data a b ++ fileBytes data b c = fileBytes data a c := by
  apply eq_fileBytes
  · rw [List.length_append, length_fileBytes, length_fileBytes]
    omega
  · intro i hi
    rcases Nat.lt_or_ge i (b - a) with hlt | hge
    · rw [List.getElem?_append_left (by rwa [length_fileBytes]), getElem?_fileBytes hlt]
    · rw [List.getElem?_append_right (by rwa [length_fileBytes]), length_fileBytes,
        getElem?_fileBytes (by omega)]
      congr 2
      omega

/-- What `erofs_map_blocks` returns for an offset `k` of a file that holds `data`. -/
structure RawLookup (env : DataEnv) (vi : DataInode) (data : List UInt8) (k : ℕ) (map : DataMap) :
    Prop where
  la_le : map.mLa ≤ k
  lt : k < map.mLa + map.mLlen
  end_lt : map.mLa + map.mLlen < 2 ^ 64
  plen_eq : map.mLlen = map.mPlen
  reads : map.mFlags.mapped = true → ∀ p count, p + count ≤ map.mLlen →
    map.mLa + p + count ≤ vi.iSize →
    erofsReadOneData env vi map p count =
      .ok (fileBytes data (map.mLa + p) (map.mLa + p + count))
  hole : map.mFlags.mapped = false → ∀ i, map.mLa ≤ i → i < map.mLa + map.mLlen →
    fileByte data i = 0

section Lookup

variable {env : DataEnv} {vi : DataInode} {data : List UInt8} {k : ℕ} {map map' : DataMap}

theorem erofsReadOneData_congr (hid : map.mDeviceid = map'.mDeviceid)
    (hpa : map.mPa = map'.mPa) (p count : ℕ) :
    erofsReadOneData env vi map p count = erofsReadOneData env vi map' p count := by
  rw [erofsReadOneData, erofsReadOneData, hid, hpa]

theorem fileBytes_one (data : List UInt8) (k : ℕ) :
    fileBytes data k (k + 1) = [fileByte data k] := by
  rw [fileBytes, Nat.add_sub_cancel_left]
  rfl

theorem erofsReadRawDataLoop_of_le {last fuel ptr : ℕ} {buffer : List UInt8} (h : last ≤ ptr) :
    erofsReadRawDataLoop env vi last fuel map ptr buffer = some (.ok buffer) := by
  cases fuel <;> rw [erofsReadRawDataLoop, if_pos h]

theorem RawLookup.read_one (h : RawLookup env vi data k map')
    (hmap : erofsMapBlocks env vi { mLa := k } = .ok map') (hk : k < vi.iSize)
    (hsize : vi.iSize < 2 ^ 63) :
    erofsReadRawData env vi 1 k = some (.ok [fileByte data k]) := by
  have hle := h.la_le
  have hlt := h.lt
  have hend : min (k + 1) (u64 (map'.mLa + map'.mLlen)) = k + 1 := by
    rw [u64_of_lt h.end_lt]
    omega
  rw [erofsReadRawData, u64_of_lt (by omega), erofsReadRawDataLoop, if_neg (by omega), hmap]
  simp only [hend]
  cases hm : map'.mFlags.mapped with
  | false =>
      have hzero := h.hole hm k hle hlt
      rw [if_pos (by simp), if_neg (by omega), erofsReadRawDataLoop_of_le (Nat.le_refl _),
        Nat.add_sub_cancel_left, hzero]
      rfl
  | true =>
      have hla : map'.mLa + (if map'.mLa < k then k - map'.mLa else 0) = k := by
        split_ifs <;> omega
      have hcut : k + 1 - (if map'.mLa < k then { map' with mLa := k } else map').mLa = 1 := by
        split_ifs with hlt'
        · exact Nat.add_sub_cancel_left k 1
        · omega
      have hread := h.reads hm (if map'.mLa < k then k - map'.mLa else 0) 1 (by omega) (by omega)
      rw [hla, fileBytes_one] at hread
      have hsame (p count : ℕ) : erofsReadOneData env vi
          (if map'.mLa < k then { map' with mLa := k } else map') p count =
            erofsReadOneData env vi map' p count := by
        apply erofsReadOneData_congr <;> split_ifs <;> rfl
      rw [if_neg (by simp), hcut, hsame, hread]
      exact erofsReadRawDataLoop_of_le (Nat.le_refl _)

/-- The inner loop writes the rest of an extent. -/
theorem copyRawLoop_eq {la len alloc : ℕ} (halloc : 0 < alloc) (hmax : alloc ≤ maxRwCount)
    (hread : ∀ p count, p + count ≤ len →
      erofsReadOneData env vi map p count = .ok (fileBytes data (la + p) (la + p + count)))
    (toFile : Bool) {fuel llen p : ℕ} {out : OutFile} (happ : out.Appending)
    (hsum : p + llen = len) (hfuel : llen < fuel) :
    copyRawLoop env vi map alloc toFile fuel llen p out =
      some (.ok (), if toFile then out.put (fileBytes data (la + p) (la + len)) else out) := by
  induction fuel generalizing llen p out with
  | zero => exact absurd hfuel (Nat.not_lt_zero _)
  | succ fuel ih =>
      have hlen : (fileBytes data (la + p) (la + p + min alloc llen)).length ≤ maxRwCount := by
        rw [length_fileBytes]
        omega
      rw [copyRawLoop, hread p (min alloc llen) (by omega)]
      simp only [OutFile.write_of_le out hlen]
      rcases Nat.lt_or_ge alloc llen with hlt | hge
      · rw [Nat.min_eq_left hlt.le] at hlen ⊢
        rw [if_neg (by omega)]
        have happ' : (if toFile = true then
            out.put (fileBytes data (la + p) (la + p + alloc)) else out).Appending := by
          split_ifs
          · exact happ.put _
          · exact happ
        rw [ih happ' (by omega) (by omega)]
        cases toFile with
        | false => rfl
        | true =>
            rw [if_pos rfl, if_pos rfl, if_pos rfl, happ.put_put, Nat.add_assoc la p alloc,
              fileBytes_append data (by omega) (by omega)]
      · rw [Nat.min_eq_right hge, Nat.sub_self, if_pos rfl, Nat.add_assoc la p llen, hsum]

/-- A turn of the extraction loops at the start of a piece. -/
theorem RawLookup.next (h : RawLookup env vi data k map') (hla : map'.mLa = k)
    (hmap : erofsMapBlocks env vi map = .ok map') (hraw : vi.datalayout.compressed = false)
    (hk : k < vi.iSize) (hsize : vi.iSize < 2 ^ 63) {p : Piece}
    (hp : p.len = min map'.mLlen (vi.iSize - k)) (hmapped : map'.mFlags.mapped = p.mapped) :
    ∃ cut, nextExtent env vi map = .ok (vi, cut) ∧ cut.mLa = k ∧ cut.mLlen = p.len ∧
      cut.mFlags.mapped = p.mapped ∧ PlenOk vi cut ∧
      (p.mapped = true → CopiesExtent env vi data k p cut) := by
  have hlt := h.lt
  have hu := u64_of_lt h.end_lt
  have hplen := h.plen_eq
  obtain ⟨cut, hnext, hcutla, hllen, hcutmapped, hcutplen, hid, hpa⟩ : ∃ cut,
      nextExtent env vi map = .ok (vi, cut) ∧ cut.mLa = k ∧ cut.mLlen = p.len ∧
      cut.mFlags.mapped = p.mapped ∧ cut.mPlen = map'.mPlen ∧
      cut.mDeviceid = map'.mDeviceid ∧ cut.mPa = map'.mPa := by
    unfold nextExtent
    simp only [hraw, Bool.false_eq_true, if_false, hmap, not_false_eq_true, true_and]
    rw [if_neg (not_not.mpr hplen), hu]
    by_cases hcut : vi.iSize < map'.mLa + map'.mLlen
    · have hsub : sub64 vi.iSize map'.mLa = p.len := by
        rw [sub64_of_le (by omega) (by omega)]
        omega
      rw [if_pos hcut, hsub]
      exact ⟨{ map' with mLlen := p.len }, rfl, hla, rfl, hmapped, rfl, rfl, rfl⟩
    · rw [if_neg hcut]
      exact ⟨map', rfl, hla, by omega, hmapped, rfl, rfl, rfl⟩
  refine ⟨cut, hnext, hcutla, hllen, hcutmapped, Or.inr hraw, ?_⟩
  intro hm
  have hcopy (toFile : Bool) (bufferSize : ℕ) (out : OutFile) (happ : out.Appending) :
      copyExtent env vi cut toFile bufferSize out = some (.ok bufferSize,
        if toFile then out.put (fileBytes data k (k + p.len)) else out) := by
    have hread : ∀ q count, q + count ≤ p.len → erofsReadOneData env vi cut q count =
        .ok (fileBytes data (k + q) (k + q + count)) := by
      intro q count hq
      rw [erofsReadOneData_congr hid hpa, h.reads (hmapped.trans hm) q count (by omega) (by omega), hla]
    have halloc : 0 < (if pclusterMaxSize < cut.mPlen then pclusterMaxSize else cut.mPlen) := by
      split_ifs
      · decide
      · omega
    have hmax : (if pclusterMaxSize < cut.mPlen then pclusterMaxSize else cut.mPlen) ≤
        maxRwCount := by
      have : pclusterMaxSize ≤ maxRwCount := by
        unfold pclusterMaxSize maxRwCount
        omega
      split_ifs <;> omega
    unfold copyExtent
    simp only [hraw, Bool.false_eq_true, if_false]
    rw [copyRawLoop_eq halloc hmax hread toFile happ (by rw [hllen, Nat.zero_add])
      (Nat.lt_succ_self _)]
    rfl
  constructor
  · intro toFile bufferSize out bufferSize' out' happ hres
    rw [hcopy toFile bufferSize out happ] at hres
    cases hres
    unfold OutFile.store
    rw [hraw]
    rfl
  · intro toFile bufferSize out e out' happ hres
    rw [hcopy toFile bufferSize out happ] at hres
    cases hres
  · intro _ toFile bufferSize out happ
    exact ⟨_, _, hcopy toFile bufferSize out happ⟩

end Lookup

/-! ## Flat files -/

/-- Where the blocks of a flat file end and its inline tail starts. -/
def flatTail (vi : DataInode) : ℕ :=
  vi.sbi.pos (u32 (vi.sbi.blkRoundUp vi.iSize) - if vi.datalayout = .flatInline then 1 else 0)

def flatPa (vi : DataInode) (i : ℕ) : ℕ :=
  if i < flatTail vi then vi.sbi.pos vi.iBlkaddr + i
  else vi.iloc + vi.inodeIsize + vi.xattrIsize + vi.sbi.blkoff i

/-- A flat file that holds `data`. Its blocks lie on one device, and so does its tail, which does
not leave its block. -/
structure FlatFile (env : DataEnv) (vi : DataInode) (data : List UInt8) : Prop where
  layout : vi.datalayout = .flatPlain ∨ vi.datalayout = .flatInline
  bits_le : vi.sbi.blkszbits ≤ 16
  size : vi.iSize = data.length
  size_lt : vi.iSize < 2 ^ 63
  blocks_lt : vi.sbi.blkRoundUp vi.iSize < 2 ^ 32
  device : ∀ i j, i + j < vi.iSize → i + j < flatTail vi ∨ flatTail vi ≤ i →
    erofsMapDev vi.sbi env.devs (flatPa vi (i + j)) =
      erofsMapDev vi.sbi env.devs (flatPa vi i) + j
  bytes : ∀ i < vi.iSize,
    fileByte env.primary (erofsMapDev vi.sbi env.devs (flatPa vi i)) = fileByte data i
  tail_le : flatTail vi < vi.iSize →
    vi.sbi.blkoff (flatPa vi (flatTail vi)) + (vi.iSize - flatTail vi) ≤ vi.sbi.blksz

/-- Its extents: the blocks and the inline tail. -/
def flatPieces (vi : DataInode) : List Piece :=
  if vi.iSize = 0 then []
  else if 0 < flatTail vi ∧ flatTail vi < vi.iSize then
    [⟨flatTail vi, true⟩, ⟨vi.iSize - flatTail vi, true⟩]
  else [⟨vi.iSize, true⟩]

section Flat

variable {env : DataEnv} {vi : DataInode} {data : List UInt8} {k : ℕ} {map : DataMap}

theorem FlatFile.raw (h : FlatFile env vi data) : vi.datalayout.compressed = false := by
  rcases h.layout with hl | hl <;> rw [hl] <;> rfl

theorem FlatFile.tail_bounds (h : FlatFile env vi data) (hpos : 0 < vi.iSize) :
    flatTail vi < vi.iSize + vi.sbi.blksz ∧ vi.iSize ≤ flatTail vi + vi.sbi.blksz ∧
      (vi.datalayout = .flatPlain → vi.iSize ≤ flatTail vi) ∧
      (vi.datalayout = .flatInline → flatTail vi < vi.iSize) := by
  have hb : 0 < vi.sbi.blksz := vi.sbi.blksz_pos
  have hdiv := Nat.div_add_mod (vi.iSize + (vi.sbi.blksz - 1)) vi.sbi.blksz
  have hmod := Nat.mod_lt (vi.iSize + (vi.sbi.blksz - 1)) hb
  have hone : 1 ≤ vi.sbi.blkRoundUp vi.iSize :=
    (Nat.one_le_div_iff hb).mpr (by omega)
  unfold flatTail
  rw [u32_of_lt h.blocks_lt]
  unfold SbInfo.pos
  rw [Nat.sub_mul]
  change _ * vi.sbi.blkRoundUp vi.iSize + _ = _ at hdiv
  rw [Nat.mul_comm] at hdiv
  have hmul := Nat.mul_le_mul_right vi.sbi.blksz hone
  rcases h.layout with hl | hl
  · rw [hl, if_neg (by decide)]
    exact ⟨by omega, by omega, fun _ => by omega, fun hne => absurd hne (by decide)⟩
  · rw [hl, if_pos rfl]
    exact ⟨by omega, by omega, fun hne => absurd hne (by decide), fun _ => by omega⟩

theorem blkoff_tail (vi : DataInode) {i : ℕ} (hge : flatTail vi ≤ i)
    (hlt : i < flatTail vi + vi.sbi.blksz) : vi.sbi.blkoff i = i - flatTail vi := by
  unfold SbInfo.blkoff
  have hmul : i = i - flatTail vi + flatTail vi := by omega
  conv_lhs => rw [hmul]
  unfold flatTail SbInfo.pos
  rw [Nat.add_mul_mod_self_right]
  apply Nat.mod_eq_of_lt
  unfold flatTail SbInfo.pos at hlt hge
  omega

theorem FlatFile.reads (h : FlatFile env vi data) (hid : map.mDeviceid = 0)
    (hpa : map.mPa = flatPa vi k) {p count : ℕ} (hend : k + p + count ≤ vi.iSize)
    (hpart : k + p + count ≤ flatTail vi ∨ flatTail vi ≤ k) :
    erofsReadOneData env vi map p count =
      .ok (fileBytes data (k + p) (k + p + count)) := by
  unfold erofsReadOneData erofsMapDevId
  simp only [hid, ne_eq, not_true_eq_false, if_false, hpa]
  unfold DataEnv.devRead
  simp only [List.getElem?_cons_zero]
  congr 1
  apply eq_fileBytes
  · rw [length_fileBytes]
    omega
  · intro i hi
    have hk := h.device k (p + i) (by omega) (by omega)
    rw [getElem?_fileBytes (by omega), Nat.add_assoc, ← hk, h.bytes _ (by omega), Nat.add_assoc]

theorem FlatFile.lookup (h : FlatFile env vi data) (hk : k < vi.iSize) (hla : map.mLa = k) :
    ∃ map', erofsMapBlocks env vi map = .ok map' ∧ RawLookup env vi data k map' ∧
      map'.mLa = k ∧ map'.mFlags.mapped = true ∧
      map'.mLlen = if k < flatTail vi then flatTail vi - k else vi.iSize - k := by
  obtain ⟨htlt, htge, hplain, -⟩ := h.tail_bounds (Nat.zero_lt_of_lt hk)
  have hsize := h.size_lt
  have hbl : vi.sbi.blksz ≤ 2 ^ 16 := Nat.pow_le_pow_right (by decide) h.bits_le
  have hnot : vi.datalayout ≠ .chunkBased := by
    rcases h.layout with hl | hl <;> rw [hl] <;> decide
  have hback : vi.sbi.pos (u32 (vi.sbi.blkRoundUp vi.iSize) -
      if vi.datalayout = .flatInline then 1 else 0) = flatTail vi := rfl
  unfold erofsMapBlocks erofsMapBlocksFlatmode
  simp only [hla]
  rw [if_neg (Nat.not_le.mpr hk), if_pos hnot, hback]
  rcases Nat.lt_or_ge k (flatTail vi) with hlt | hge
  · rw [if_pos hlt, if_pos hlt]
    refine ⟨_, rfl, ⟨Nat.le_refl k, ?_, ?_, rfl, ?_, fun hm => by cases hm⟩, rfl, rfl, rfl⟩
    · change k < k + (flatTail vi - k)
      omega
    · change k + (flatTail vi - k) < 2 ^ 64
      omega
    · intro _ p count hle hend
      apply h.reads rfl _ hend
      · left
        change p + count ≤ flatTail vi - k at hle
        change k + p + count ≤ flatTail vi
        omega
      · exact (if_pos hlt).symm
  · have hinline : vi.datalayout = .flatInline := by
      rcases h.layout with hl | hl
      · have := hplain hl
        omega
      · exact hl
    have htail := h.tail_le (by omega)
    have hpa : vi.iloc + vi.inodeIsize + vi.xattrIsize + vi.sbi.blkoff k = flatPa vi k :=
      (if_neg (Nat.not_lt.mpr hge)).symm
    have hcross : ¬ vi.sbi.blksz < vi.sbi.blkoff (flatPa vi k) + (vi.iSize - k) := by
      rw [flatPa, if_neg (Nat.lt_irrefl _), blkoff_tail vi (Nat.le_refl _) (by omega),
        Nat.sub_self, Nat.add_zero] at htail
      rw [← hpa, blkoff_tail vi hge (by omega)]
      unfold SbInfo.blkoff at htail ⊢
      rw [Nat.add_mod, Nat.mod_eq_of_lt (show k - flatTail vi < vi.sbi.blksz by omega),
        Nat.mod_eq_of_lt (by omega)]
      omega
    rw [if_neg (Nat.not_lt.mpr hge), if_neg (Nat.not_lt.mpr hge), if_pos hinline, hpa,
      if_neg hcross]
    refine ⟨_, rfl, ⟨Nat.le_refl k, ?_, ?_, rfl, ?_, fun hm => by cases hm⟩, rfl, rfl, rfl⟩
    · change k < k + (vi.iSize - k)
      omega
    · change k + (vi.iSize - k) < 2 ^ 64
      omega
    · intro _ p count hle hend
      exact h.reads rfl rfl hend (Or.inr hge)

theorem flatPieces_split {pre post : List Piece} {p : Piece} (htail : 0 < vi.iSize)
    (hp : flatPieces vi = pre ++ p :: post) :
    piecesLength pre < vi.iSize ∧ p.mapped = true ∧ 0 < p.len ∧
      p.len = min (if piecesLength pre < flatTail vi then flatTail vi - piecesLength pre
        else vi.iSize - piecesLength pre) (vi.iSize - piecesLength pre) := by
  unfold flatPieces at hp
  rw [if_neg (by omega)] at hp
  by_cases htwo : 0 < flatTail vi ∧ flatTail vi < vi.iSize
  · rw [if_pos htwo] at hp
    match pre, hp with
    | [], hp =>
        obtain ⟨rfl, -⟩ := List.cons.inj hp
        refine ⟨htail, rfl, htwo.1, ?_⟩
        change flatTail vi = _
        rw [piecesLength_nil, if_pos htwo.1]
        omega
    | [q], hp =>
        obtain ⟨rfl, hrest⟩ := List.cons.inj hp
        obtain ⟨rfl, -⟩ := List.cons.inj hrest
        have hlen : piecesLength [(⟨flatTail vi, true⟩ : Piece)] = flatTail vi := by simp
        rw [hlen]
        refine ⟨htwo.2, rfl, Nat.sub_pos_of_lt htwo.2, ?_⟩
        rw [if_neg (Nat.lt_irrefl _), Nat.min_self]
    | q :: q' :: pre, hp => simp at hp
  · rw [if_neg htwo] at hp
    match pre, hp with
    | [], hp =>
        obtain ⟨rfl, -⟩ := List.cons.inj hp
        refine ⟨htail, rfl, htail, ?_⟩
        change vi.iSize = _
        rw [piecesLength_nil]
        split_ifs <;> omega
    | q :: pre, hp => simp at hp

theorem piecesLength_flatPieces (vi : DataInode) : piecesLength (flatPieces vi) = vi.iSize := by
  unfold flatPieces
  split_ifs with hzero htwo
  · exact hzero.symm
  · simp only [piecesLength_cons, piecesLength_nil]
    omega
  · simp

theorem mapped_flatPieces {p : Piece} (hp : p ∈ flatPieces vi) : p.mapped = true := by
  unfold flatPieces at hp
  split_ifs at hp
  · cases hp
  · rcases List.mem_cons.mp hp with rfl | hp
    · rfl
    · rw [List.mem_singleton.mp hp]
  · rw [List.mem_singleton.mp hp]

theorem holesZero_of_split {pieces : List Piece} {pos : ℕ}
    (h : ∀ pre p post, pieces = pre ++ p :: post → p.mapped = false →
      ∀ i, pos + piecesLength pre ≤ i → i < pos + piecesLength pre + p.len →
        fileByte data i = 0) : HolesZero data pos pieces := by
  induction pieces generalizing pos with
  | nil => trivial
  | cons p ps ih =>
      refine ⟨h [] p ps rfl, ih ?_⟩
      intro pre q post hsplit hm i
      rw [Nat.add_assoc pos, ← piecesLength_cons]
      exact h (p :: pre) q post (by rw [hsplit]; rfl) hm i

theorem erofsPreadData_of_raw (hraw : vi.datalayout.compressed = false) (count offset : ℕ) :
    erofsPreadData env vi count offset = erofsReadRawData env vi count offset := by
  unfold erofsPreadData
  cases hl : vi.datalayout with
  | compressedFull | compressedCompact =>
      rw [hl] at hraw
      cases hraw
  | flatPlain | flatInline | chunkBased => rfl

theorem FlatFile.tiledBy (h : FlatFile env vi data) :
    TiledBy env vi vi (flatPieces vi) data where
  size := h.size
  size_lt := h.size_lt
  size_filled := rfl
  layout_filled := rfl
  sum := piecesLength_flatPieces vi
  len_pos := by
    intro p hp
    obtain ⟨pre, post, hsplit⟩ := List.append_of_mem hp
    rcases Nat.eq_zero_or_pos vi.iSize with hzero | hpos
    · rw [flatPieces, if_pos hzero] at hp
      cases hp
    · exact (flatPieces_split hpos hsplit).2.2.1
  next := by
    intro pre p post hsplit st hst map hla _
    rw [or_self] at hst
    subst hst
    have hpos : 0 < st.iSize := by
      by_contra hzero
      rw [flatPieces, if_pos (by omega)] at hsplit
      simp at hsplit
    obtain ⟨hlt, hmapped, -, hlen⟩ := flatPieces_split hpos hsplit
    obtain ⟨map', hmap, hlook, hla', hm, hllen⟩ := h.lookup hlt hla
    rw [← hllen] at hlen
    exact hlook.next hla' hmap h.raw hlt h.size_lt hlen (hm.trans hmapped.symm)
  hole := by
    apply holesZero_of_split
    intro pre p post hsplit hm
    have := @mapped_flatPieces vi p (by simp [hsplit])
    rw [hm] at this
    cases this
  pread := by
    intro k hk
    obtain ⟨map', hmap, hlook, -⟩ := @FlatFile.lookup env vi data k { mLa := k } h hk rfl
    rw [erofsPreadData_of_raw h.raw]
    exact hlook.read_one hmap hk h.size_lt

end Flat

/-! ## Chunk-based files -/

def chunkOf (env : DataEnv) (vi : DataInode) (c : ℕ) : Option (ℕ × ℕ) :=
  let pos := chunkEntryPos vi c
  chunkEntry env vi (fun i => fileByte env.primary (vi.sbi.pos (vi.sbi.blknr pos) + i))
    (vi.sbi.blkoff pos)

/-- A chunk-based file that holds `data`. -/
structure ChunkFile (env : DataEnv) (vi : DataInode) (data : List UInt8) : Prop where
  layout : vi.datalayout = .chunkBased
  bits_le : vi.sbi.blkszbits ≤ 16
  chunkbits : ∃ n < 32, vi.chunkbits = vi.sbi.blkszbits + n
  size : vi.iSize = data.length
  size_lt : vi.iSize < 2 ^ 63
  /-- The device of a chunk is one of the image, and the chunk is on it. -/
  chunk : ∀ c dev blkaddr, c * 2 ^ vi.chunkbits < vi.iSize →
    chunkOf env vi c = some (dev, blkaddr) →
    ∃ pa bytes, erofsMapDevId env vi.sbi dev (vi.sbi.pos blkaddr) = .ok pa ∧
      (env.primary :: env.blobs)[dev]? = some bytes ∧
      ∀ i < 2 ^ vi.chunkbits, c * 2 ^ vi.chunkbits + i < vi.iSize →
        fileByte bytes (pa + i) = fileByte data (c * 2 ^ vi.chunkbits + i)
  hole : ∀ c, c * 2 ^ vi.chunkbits < vi.iSize → chunkOf env vi c = none →
    ∀ i < 2 ^ vi.chunkbits, fileByte data (c * 2 ^ vi.chunkbits + i) = 0

/-- Its chunks, the last one cut at the end of the file. -/
def chunkPieces (env : DataEnv) (vi : DataInode) : List Piece :=
  (List.range ((vi.iSize + (2 ^ vi.chunkbits - 1)) / 2 ^ vi.chunkbits)).map fun c =>
    ⟨min (2 ^ vi.chunkbits) (vi.iSize - c * 2 ^ vi.chunkbits), (chunkOf env vi c).isSome⟩

section Chunk

variable {env : DataEnv} {vi : DataInode} {data : List UInt8} {k : ℕ} {map : DataMap}

theorem ChunkFile.raw (h : ChunkFile env vi data) : vi.datalayout.compressed = false := by
  rw [h.layout]
  rfl

theorem ChunkFile.reads (h : ChunkFile env vi data) {c dev blkaddr : ℕ}
    (hc : c * 2 ^ vi.chunkbits < vi.iSize) (hchunk : chunkOf env vi c = some (dev, blkaddr))
    (hid : map.mDeviceid = dev) (hpa : map.mPa = vi.sbi.pos blkaddr) {p count : ℕ}
    (hle : p + count ≤ 2 ^ vi.chunkbits) (hend : c * 2 ^ vi.chunkbits + p + count ≤ vi.iSize) :
    erofsReadOneData env vi map p count =
      .ok (fileBytes data (c * 2 ^ vi.chunkbits + p) (c * 2 ^ vi.chunkbits + p + count)) := by
  obtain ⟨pa, bytes, hmapdev, hdev, hbytes⟩ := h.chunk c dev blkaddr hc hchunk
  unfold erofsReadOneData DataEnv.devRead
  simp only [hid, hpa, hmapdev, hdev]
  congr 1
  apply eq_fileBytes
  · rw [length_fileBytes]
    omega
  · intro i hi
    rw [getElem?_fileBytes (by omega), Nat.add_assoc, hbytes _ (by omega) (by omega),
      Nat.add_assoc]

theorem ChunkFile.lookup (h : ChunkFile env vi data) (hk : k < vi.iSize) (hla : map.mLa = k) :
    ∃ map', erofsMapBlocks env vi map = .ok map' ∧ RawLookup env vi data k map' ∧
      map'.mLa = k / 2 ^ vi.chunkbits * 2 ^ vi.chunkbits ∧
      map'.mFlags.mapped = (chunkOf env vi (k / 2 ^ vi.chunkbits)).isSome ∧
      map'.mLlen = min (2 ^ vi.chunkbits)
        (roundUp (vi.iSize - k / 2 ^ vi.chunkbits * 2 ^ vi.chunkbits) vi.sbi.blksz) := by
  have hS : 0 < 2 ^ vi.chunkbits := Nat.two_pow_pos _
  have hS47 : 2 ^ vi.chunkbits ≤ 2 ^ 47 := by
    obtain ⟨n, hn, hbits⟩ := h.chunkbits
    have := h.bits_le
    apply Nat.pow_le_pow_right (by decide)
    omega
  have hsize := h.size_lt
  have hdiv := Nat.div_add_mod k (2 ^ vi.chunkbits)
  have hmod := Nat.mod_lt k hS
  rw [Nat.mul_comm] at hdiv
  generalize hc : k / 2 ^ vi.chunkbits = c at *
  have hround := @le_roundUp (vi.iSize - c * 2 ^ vi.chunkbits) vi.sbi.blksz vi.sbi.blksz_pos
  have hentry : chunkEntry env vi
      (fun i => fileByte env.primary (vi.sbi.pos (vi.sbi.blknr (chunkEntryPos vi c)) + i))
      (vi.sbi.blkoff (chunkEntryPos vi c)) = chunkOf env vi c := rfl
  unfold erofsMapBlocks
  simp only [hla, hc]
  rw [if_neg (Nat.not_le.mpr hk), if_neg (not_not.mpr h.layout)]
  simp only [DataEnv.blkRead, hentry]
  generalize hlen : min (2 ^ vi.chunkbits)
    (roundUp (vi.iSize - c * 2 ^ vi.chunkbits) vi.sbi.blksz) = len
  have hle : c * 2 ^ vi.chunkbits ≤ k := by omega
  have hlt : k < c * 2 ^ vi.chunkbits + len := by omega
  have hend : c * 2 ^ vi.chunkbits + len < 2 ^ 64 := by omega
  have hcs : c * 2 ^ vi.chunkbits < vi.iSize := by omega
  cases hchunk : chunkOf env vi c with
  | none =>
      refine ⟨_, rfl, ⟨hle, hlt, hend, rfl, fun hm => (nomatch hm), ?_⟩, rfl, rfl, rfl⟩
      intro _ i hge hi
      change c * 2 ^ vi.chunkbits ≤ i at hge
      change i < c * 2 ^ vi.chunkbits + len at hi
      have := h.hole c hcs hchunk (i - c * 2 ^ vi.chunkbits) (by omega)
      rwa [Nat.add_sub_cancel' hge] at this
  | some entry =>
      obtain ⟨dev, blkaddr⟩ := entry
      refine ⟨_, rfl, ⟨hle, hlt, hend, rfl, ?_, fun hm => by cases hm⟩, rfl, rfl, rfl⟩
      intro _ p count hpc hsize'
      change p + count ≤ len at hpc
      exact h.reads hcs hchunk rfl rfl (by omega) hsize'

/-- The chunks of which a file of `n` bytes consists, up to chunk `c`. -/
theorem sum_chunks {S n : ℕ} (hS : 0 < S) (f : ℕ → Bool) (c : ℕ) :
    piecesLength ((List.range c).map fun i => ⟨min S (n - i * S), f i⟩) = min (c * S) n := by
  induction c with
  | zero => simp
  | succ c ih =>
      rw [List.range_succ, List.map_append, piecesLength_append, ih]
      simp only [List.map_cons, List.map_nil, piecesLength_cons, piecesLength_nil]
      rw [Nat.succ_mul]
      omega

theorem chunkPieces_split {pre post : List Piece} {p : Piece}
    (hp : chunkPieces env vi = pre ++ p :: post) :
    pre.length * 2 ^ vi.chunkbits < vi.iSize ∧
      piecesLength pre = pre.length * 2 ^ vi.chunkbits ∧
      p = ⟨min (2 ^ vi.chunkbits) (vi.iSize - pre.length * 2 ^ vi.chunkbits),
        (chunkOf env vi pre.length).isSome⟩ := by
  have hS : 0 < 2 ^ vi.chunkbits := Nat.two_pow_pos _
  unfold chunkPieces at hp
  generalize hn : (vi.iSize + (2 ^ vi.chunkbits - 1)) / 2 ^ vi.chunkbits = n at hp
  have hlt : pre.length < n := by
    have := congrArg List.length hp
    rw [List.length_map, List.length_range, List.length_append, List.length_cons] at this
    omega
  have hin : pre.length * 2 ^ vi.chunkbits < vi.iSize := by
    have hmul := Nat.mul_le_mul_right (2 ^ vi.chunkbits) (Nat.succ_le_of_lt hlt)
    have hdiv := Nat.div_mul_le_self (vi.iSize + (2 ^ vi.chunkbits - 1)) (2 ^ vi.chunkbits)
    rw [hn] at hdiv
    rw [Nat.succ_mul] at hmul
    omega
  have hpre := congrArg (List.take pre.length) hp
  rw [List.take_left, ← List.map_take, List.take_range, Nat.min_eq_left hlt.le] at hpre
  refine ⟨hin, ?_, ?_⟩
  · rw [← hpre, List.length_map, List.length_range, sum_chunks hS]
    exact Nat.min_eq_left hin.le
  · have hget := congrArg (fun l => l[pre.length]?) hp
    simp only [List.getElem?_map, List.getElem?_range hlt, Option.map_some,
      List.getElem?_append_right (Nat.le_refl _), Nat.sub_self, List.getElem?_cons_zero,
      Option.some.injEq] at hget
    exact hget.symm

theorem ChunkFile.tiledBy (h : ChunkFile env vi data) :
    TiledBy env vi vi (chunkPieces env vi) data where
  size := h.size
  size_lt := h.size_lt
  size_filled := rfl
  layout_filled := rfl
  sum := by
    have hS : 0 < 2 ^ vi.chunkbits := Nat.two_pow_pos _
    rw [chunkPieces, sum_chunks hS]
    exact Nat.min_eq_right (le_roundUp hS)
  len_pos := by
    intro p hp
    obtain ⟨pre, post, hsplit⟩ := List.append_of_mem hp
    obtain ⟨hlt, -, rfl⟩ := chunkPieces_split hsplit
    have hS : 0 < 2 ^ vi.chunkbits := Nat.two_pow_pos _
    change 0 < min _ _
    omega
  next := by
    intro pre p post hsplit st hst map hla _
    rw [or_self] at hst
    subst hst
    obtain ⟨hlt, hpre, rfl⟩ := chunkPieces_split hsplit
    have hS : 0 < 2 ^ st.chunkbits := Nat.two_pow_pos _
    rw [hpre] at hla ⊢
    obtain ⟨map', hmap, hlook, hla', hm, hllen⟩ := h.lookup hlt hla
    rw [Nat.mul_div_cancel _ hS] at hla' hm hllen
    have hround := @le_roundUp (st.iSize - pre.length * 2 ^ st.chunkbits) st.sbi.blksz st.sbi.blksz_pos
    refine hlook.next hla' hmap h.raw hlt h.size_lt ?_ hm
    change min _ _ = _
    omega
  hole := by
    apply holesZero_of_split
    intro pre p post hsplit hm i hge hlt
    obtain ⟨hin, hpre, rfl⟩ := chunkPieces_split hsplit
    rw [Nat.zero_add, hpre] at hge hlt
    have hnone : chunkOf env vi pre.length = none := Option.isSome_eq_false_iff.mp hm |>
      Option.isNone_iff_eq_none.mp
    change i < _ + min _ _ at hlt
    have := h.hole pre.length hin hnone (i - pre.length * 2 ^ vi.chunkbits) (by omega)
    rwa [Nat.add_sub_cancel' hge] at this
  pread := by
    intro k hk
    obtain ⟨map', hmap, hlook, -⟩ := @ChunkFile.lookup env vi data k { mLa := k } h hk rfl
    rw [erofsPreadData_of_raw h.raw]
    exact hlook.read_one hmap hk h.size_lt

end Chunk

end ErofsUtils
