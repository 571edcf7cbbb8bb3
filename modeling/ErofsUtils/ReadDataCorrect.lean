import ErofsUtils.ReadData
import ErofsUtils.FullIndexRoundTrip

/-!
# A read returns the bytes of the file

An inode is described by what its lookups return: every offset of the file lies in one of
the extents that tile it, and the pcluster of that extent holds an encoding of the extent's
bytes. From there on each turn of the read loop fills the buffer from the start of an extent
to where the turn before it has stopped.
-/

namespace ErofsUtils
open ByteMemory

/-- The decoders return the part of the original data they are asked for. A decoder that is
not told to stop early is only asked for all of the data. -/
def DecodersOk (env : ReadEnv) (Encodes : ℕ → List UInt8 → List UInt8 → Prop) : Prop :=
  ∀ id orig rq, Encodes id rq.input orig → rq.alg = .alg id →
    rq.inputsize = rq.input.length → rq.decodedskip ≤ rq.decodedlength →
    rq.decodedlength ≤ orig.length →
    (rq.partialDecoding = true ∨ rq.decodedlength = orig.length) →
    env.decoder id rq =
      .ok ((orig.drop rq.decodedskip).take (rq.decodedlength - rq.decodedskip))

/-- The pcluster that `map` points to holds the `len` bytes of the file from `map.mLa` on. -/
def PclusterHolds (env : ReadEnv) (Encodes : ℕ → List UInt8 → List UInt8 → Prop) (vi : Inode)
    (data : List UInt8) (map : MapBlocks) (len : ℕ) : Prop :=
  if map.mFlags.fragment then
    vi.fragmentoff + len < 2 ^ 64 ∧ ∀ skip length, skip ≤ length → length ≤ len →
      env.packedPread (length - skip) (vi.fragmentoff + skip) =
        .ok (fileBytes data (map.mLa + skip) (map.mLa + length))
  else len < 2 ^ 32 ∧ ∃ raw, env.devRead (erofsMapDev vi.sbi env.devs map.mPa) map.mPlen =
      .ok raw ∧ raw.length = map.mPlen ∧ map.mPlen < 2 ^ 32 ∧
    match map.mAlgorithmformat with
    | .shifted => ∀ i < len, raw[i]? = some (fileByte data (map.mLa + i))
    | .interlaced => map.mPlen ≤ vi.sbi.blksz ∧ len ≤ vi.sbi.blksz ∧
        ∀ i < len, raw[(map.mLa + i) % vi.sbi.blksz]? = some (fileByte data (map.mLa + i))
    | .alg id => ∃ orig, Encodes id raw orig ∧
        (∀ i < len, orig[i]? = some (fileByte data (map.mLa + i))) ∧
        (len = orig.length ∨ map.mFlags.partialRef = true)

/-- A lookup of `ofs` inside the extent that starts at `la` and is `len` bytes long; only
the file's last extent may be mapped beyond its end. -/
structure LookedUp (vi : Inode) (ofs la len : ℕ) (map : MapBlocks) : Prop where
  mapped : map.mFlags.mapped = true
  la_eq : map.mLa = la
  la_le : la ≤ ofs
  ofs_lt : ofs < la + len
  lt : ofs < map.mLa + map.mLlen
  end_lt : map.mLa + map.mLlen < 2 ^ 64
  le_end : la + len < vi.iSize → map.mLa + map.mLlen ≤ la + len
  le_size : la + len ≤ vi.iSize
  full : map.mFlags.fullMapped = true → map.mLa + map.mLlen = la + len

/-- The index of the inode decodes to extents that tile the file, whose pclusters hold the
bytes of `data`. The first lookup fills the inode from its map header. -/
structure Decodes (env : ReadEnv) (Encodes : ℕ → List UInt8 → List UInt8 → Prop)
    (blk : BlkRead) (vi filled : Inode) (data : List UInt8) : Prop where
  size : vi.iSize = data.length
  size_lt : vi.iSize < 2 ^ 63
  size_filled : filled.iSize = vi.iSize
  lookup : ∀ st, st = vi ∨ st = filled → ∀ ofs < vi.iSize, ∀ map : MapBlocks, map.mLa = ofs →
    ∃ map' la len, zErofsMapBlocksIter st blk map {} = .ok (filled, map') ∧
      LookedUp vi ofs la len map' ∧ PclusterHolds env Encodes filled data map' len

section Decode

variable {env : ReadEnv} {Encodes : ℕ → List UInt8 → List UInt8 → Prop} {vi : Inode}
  {data : List UInt8} {map : MapBlocks} {len skip length : ℕ}

theorem take_drop_eq_fileBytes {raw : List UInt8} {la : ℕ} (hl : length ≤ len)
    (h : ∀ i < len, raw[i]? = some (fileByte data (la + i))) :
    (raw.drop skip).take (length - skip) = fileBytes data (la + skip) (la + length) := by
  have hsub : la + length - (la + skip) = length - skip := by omega
  have hget (i : ℕ) (hi : i < length - skip) :
      ((raw.drop skip).take (length - skip))[i]? = some (fileByte data (la + skip + i)) := by
    rw [List.getElem?_take_of_lt hi, List.getElem?_drop, h _ (by omega), Nat.add_assoc]
  apply eq_fileBytes
  · rw [hsub, List.length_take, List.length_drop]
    rcases Nat.eq_zero_or_pos (length - skip) with hz | hpos
    · omega
    · have := hget (length - skip - 1) (by omega)
      have hlt := (List.getElem?_eq_some_iff.mp this).1
      rw [List.length_take, List.length_drop] at hlt
      omega
  · rwa [hsub]

/-- Interlaced data is rotated in its block by the offset of its address. -/
theorem interlaced_eq_fileBytes {raw : List UInt8} {la b : ℕ} (hb : 0 < b) (hlb : len ≤ b)
    (hl : length ≤ len) (hs : skip ≤ length)
    (h : ∀ i < len, raw[(la + i) % b]? = some (fileByte data (la + i))) :
    (raw.drop ((la % b + skip) % b)).take (min (b - (la % b + skip) % b) (length - skip)) ++
        raw.take (length - skip - min (b - (la % b + skip) % b) (length - skip)) =
      fileBytes data (la + skip) (la + length) := by
  have hcut : (la % b + skip) % b = (la + skip) % b := Nat.mod_add_mod la b skip
  rw [hcut]
  have hmod := Nat.mod_lt (la + skip) hb
  generalize hc : (la + skip) % b = c at *
  -- a byte in front of the cut, and one behind it
  have hright (i : ℕ) (hi : i < length - skip) (hic : c + i < b) :
      raw[c + i]? = some (fileByte data (la + skip + i)) := by
    have := h (skip + i) (by omega)
    rwa [← Nat.add_assoc, ← Nat.mod_add_mod, hc, Nat.mod_eq_of_lt hic] at this
  have hleft (i : ℕ) (hi : i < length - skip) (hic : b ≤ c + i) :
      raw[c + i - b]? = some (fileByte data (la + skip + i)) := by
    have := h (skip + i) (by omega)
    rwa [← Nat.add_assoc, ← Nat.mod_add_mod, hc, Nat.mod_eq_sub_mod hic,
      Nat.mod_eq_of_lt (by omega)] at this
  have hlr : (raw.drop c).length ≥ min (b - c) (length - skip) := by
    rw [List.length_drop]
    rcases Nat.eq_zero_or_pos (min (b - c) (length - skip)) with hz | hpos
    · omega
    · have hlt := (List.getElem?_eq_some_iff.mp
        (hright (min (b - c) (length - skip) - 1) (by omega) (by omega))).1
      omega
  have hll : raw.length ≥ length - skip - min (b - c) (length - skip) := by
    rcases Nat.eq_zero_or_pos (length - skip - min (b - c) (length - skip)) with hz | hpos
    · omega
    · have hlt := (List.getElem?_eq_some_iff.mp
        (hleft (length - skip - 1) (by omega) (by omega))).1
      omega
  apply eq_fileBytes
  · rw [List.length_append, List.length_take, List.length_take]
    omega
  · intro i hi
    rcases Nat.lt_or_ge i (min (b - c) (length - skip)) with hlt | hge
    · rw [List.getElem?_append_left (by rw [List.length_take]; omega),
        List.getElem?_take_of_lt hlt, List.getElem?_drop]
      exact hright i (by omega) (by omega)
    · rw [List.getElem?_append_right (by rw [List.length_take]; omega), List.length_take,
        Nat.min_eq_left hlr, List.getElem?_take_of_lt (by omega)]
      have hidx : i - min (b - c) (length - skip) = c + i - b := by omega
      rw [hidx]
      exact hleft i (by omega) (by omega)

theorem zErofsReadOneData_eq (henv : DecodersOk env Encodes)
    (hp : PclusterHolds env Encodes vi data map len) (hs : skip ≤ length) (hl : length ≤ len)
    (hlt : map.mLa + length < 2 ^ 64) {trimmed : Bool}
    (hfull : trimmed = false → map.mFlags.fullMapped = true → length = len) :
    zErofsReadOneData env vi map skip length trimmed =
      .ok (fileBytes data (map.mLa + skip) (map.mLa + length)) := by
  unfold PclusterHolds at hp
  unfold zErofsReadOneData
  by_cases hfrag : map.mFlags.fragment = true
  · rw [if_pos hfrag] at hp ⊢
    obtain ⟨hoff, hpread⟩ := hp
    rw [sub64_of_le hs (lt_of_le_of_lt (Nat.le_add_left _ _) hlt), u64_of_lt (by omega)]
    exact hpread skip length hs hl
  · rw [if_neg hfrag] at hp ⊢
    obtain ⟨hlen, raw, hraw, hrl, hplen, henc⟩ := hp
    simp only [hraw]
    rw [u32_of_lt (show length < 2 ^ 32 by omega), u32_of_lt (show skip < 2 ^ 32 by omega),
      u32_of_lt hplen]
    unfold zErofsDecompress
    cases halg : map.mAlgorithmformat with
    | alg id =>
        rw [halg] at henc
        simp only at henc ⊢
        obtain ⟨orig, hencodes, horig, hpart⟩ := henc
        have holen : len ≤ orig.length := by
          rcases Nat.eq_zero_or_pos len with hz | hpos
          · omega
          · have := (List.getElem?_eq_some_iff.mp (horig (len - 1) (by omega))).1
            omega
        rw [henv id orig _ hencodes rfl hrl.symm hs (hl.trans holen)]
        · rw [take_drop_eq_fileBytes hl horig]
        · cases trimmed with
          | true => exact Or.inl rfl
          | false =>
              simp only [Bool.false_eq_true, if_false, Bool.or_eq_true, Bool.not_eq_true']
              cases hfm : map.mFlags.fullMapped with
              | false => exact Or.inl (Or.inl rfl)
              | true =>
                  rcases hpart with hpart | hpart
                  · exact Or.inr ((hfull rfl hfm).trans hpart)
                  · exact Or.inl (Or.inr hpart)
    | shifted =>
        rw [halg] at henc
        simp only at henc ⊢
        have hle : length ≤ map.mPlen := by
          rcases Nat.eq_zero_or_pos length with hz | hpos
          · omega
          · have := (List.getElem?_eq_some_iff.mp (henc (length - 1) (by omega))).1
            omega
        rw [if_neg (by omega), take_drop_eq_fileBytes hl henc]
    | interlaced =>
        rw [halg] at henc
        simp only at henc ⊢
        obtain ⟨hpb, hlb, hbytes⟩ := henc
        rw [if_neg (by omega), if_neg (by omega), if_neg (by omega)]
        simp only [if_true, SbInfo.blkoff]
        rw [interlaced_eq_fileBytes vi.sbi.blksz_pos hlb hl hs hbytes]

end Decode

section Loop

variable {env : ReadEnv} {Encodes : ℕ → List UInt8 → List UInt8 → Prop} {blk : BlkRead}
  {vi filled : Inode} {data : List UInt8}

/-- The buffer holds the bytes of the file from `endp` on, and `mem` differs from `mem₀`
nowhere else. -/
structure Filled (data : List UInt8) (mem₀ : Mem) (buffer size offset endp : ℕ) (mem : Mem) :
    Prop where
  inside : ∀ i < size, endp ≤ offset + i → mem (buffer + i) = fileByte data (offset + i)
  outside : ∀ k, k < buffer ∨ buffer + size ≤ k → mem k = mem₀ k

theorem Filled.store {mem₀ mem : Mem} {buffer size offset endp a : ℕ}
    (hf : Filled data mem₀ buffer size offset endp mem) (ha : offset ≤ a) (hae : a ≤ endp)
    (he : endp ≤ offset + size) :
    Filled data mem₀ buffer size offset a
      (store mem (buffer + (a - offset)) (fileBytes data a endp)) := by
  refine ⟨?_, ?_⟩
  · intro i hi hle
    rcases Nat.lt_or_ge (offset + i) endp with hlt | hge
    · have hget := @getElem?_fileBytes data a endp (offset + i - a) (by omega)
      have := holds_store mem (buffer + (a - offset)) (fileBytes data a endp) _ _ hget
      have hpos : buffer + (a - offset) + (offset + i - a) = buffer + i := by omega
      have hbyte : a + (offset + i - a) = offset + i := by omega
      rwa [hpos, hbyte] at this
    · rw [store_of_ge _ (by rw [length_fileBytes]; omega)]
      exact hf.inside i hi hge
  · intro k hk
    rw [← hf.outside k hk]
    rcases hk with hk | hk
    · exact store_of_lt _ (by omega)
    · exact store_of_ge _ (by rw [length_fileBytes]; omega)

theorem replicate_eq_fileBytes {a b : ℕ} (h : data.length ≤ a) :
    List.replicate (b - a) 0 = fileBytes data a b := by
  apply eq_fileBytes (by simp)
  intro i hi
  rw [List.getElem?_replicate_of_lt hi, fileByte, List.getElem?_eq_none (by omega)]
  rfl

theorem zErofsReadDataLoop_eof {st : Inode} (map : MapBlocks) {buffer offset endp fuel : ℕ}
    (mem : Mem) (hoff : offset < endp) (heof : st.iSize < endp) (hend : endp < 2 ^ 64) :
    ∃ map', zErofsReadDataLoop env blk buffer offset (fuel + 1) st map mem endp =
      zErofsReadDataLoop env blk buffer offset fuel st map'
        (store mem (buffer + (max st.iSize offset - offset))
          (List.replicate (endp - max st.iSize offset) 0)) st.iSize := by
  have hmap : zErofsMapBlocksIter st blk { map with mLa := endp - 1 } {} =
      .ok (st, { map with
        mLlen := endp - st.iSize, mLa := st.iSize, mFlags := {} }) := by
    rw [zErofsMapBlocksIter, if_pos (Nat.le_sub_one_of_lt heof)]
    simp only [Nat.sub_add_cancel (Nat.one_le_of_lt hoff)]
  have hu : u64 (st.iSize + (endp - st.iSize)) = endp := by
    rw [u64_of_lt (by omega)]
    omega
  have htrim : (if decide (endp < endp) = true then sub64 endp st.iSize
      else endp - st.iSize) = endp - st.iSize := if_neg (by simp)
  have hzero : sub64 (endp - st.iSize) (if st.iSize < offset then offset - st.iSize else 0) =
      endp - max st.iSize offset := by
    split_ifs <;> rw [sub64_of_le (by omega) (by omega)] <;> omega
  have hcut : (if st.iSize < offset then offset else st.iSize) = max st.iSize offset := by
    split_ifs <;> omega
  refine ⟨{ map with mLlen := endp - st.iSize, mLa := st.iSize, mFlags := {} }, ?_⟩
  rw [zErofsReadDataLoop, if_neg (by omega), hmap]
  simp only [hu, htrim, hzero, hcut, Bool.false_eq_true, not_false_iff, if_true]

theorem zErofsReadDataLoop_lookup (henv : DecodersOk env Encodes)
    (hd : Decodes env Encodes blk vi filled data) {st : Inode} (hst : st = vi ∨ st = filled)
    (map : MapBlocks) {buffer offset endp fuel : ℕ} (mem : Mem) (hoff : offset < endp)
    (hend : endp ≤ vi.iSize) :
    ∃ la map', la < endp ∧
      zErofsReadDataLoop env blk buffer offset (fuel + 1) st map mem endp =
        zErofsReadDataLoop env blk buffer offset fuel filled map'
          (store mem (buffer + (max la offset - offset))
            (fileBytes data (max la offset) endp)) (max la offset) := by
  obtain ⟨map', la, len, hmap, hl, hp⟩ := hd.lookup st hst (endp - 1) (by omega)
    { map with mLa := endp - 1 } rfl
  have hla := hl.la_eq
  have hle := hl.la_le
  have hltl := hl.ofs_lt
  have hlt := hl.lt
  have hendlt := hl.end_lt
  have hsize := hd.size_lt
  refine ⟨la, map', by omega, ?_⟩
  rw [zErofsReadDataLoop, if_neg (by omega), hmap]
  simp only
  rw [u64_of_lt hendlt, hla, if_neg (not_not.mpr hl.mapped)]
  -- the part of the extent that this turn decodes
  generalize htr : decide (endp < la + map'.mLlen) = trimmed
  have hlength : (if trimmed = true then sub64 endp la else map'.mLlen) = endp - la := by
    cases trimmed with
    | true => rw [if_pos rfl, sub64_of_le (by omega) (by omega)]
    | false =>
        have := of_decide_eq_false htr
        rw [if_neg (by simp)]
        omega
  have hskip : (if la < offset then offset - la else 0) = max la offset - la := by
    split_ifs <;> omega
  have hendp : (if la < offset then offset else la) = max la offset := by
    split_ifs <;> omega
  have hfull : trimmed = false → map'.mFlags.fullMapped = true → endp - la = len := by
    intro htf hfm
    rw [htf] at htr
    have := of_decide_eq_false htr
    have := hl.full hfm
    omega
  have hskiplen : max la offset - la ≤ endp - la := by omega
  have hread := zErofsReadOneData_eq henv hp hskiplen (by omega) (by omega) hfull
  have h₁ : la + (max la offset - la) = max la offset := by omega
  have h₂ : la + (endp - la) = endp := by omega
  rw [hla, h₁, h₂] at hread
  rw [hlength, hskip, hendp, hread]

theorem zErofsReadDataLoop_spec (henv : DecodersOk env Encodes)
    (hd : Decodes env Encodes blk vi filled data) {mem₀ : Mem} {buffer size offset : ℕ}
    (hrange : offset + size < 2 ^ 64) {fuel : ℕ} {st : Inode} (hst : st = vi ∨ st = filled)
    {map : MapBlocks} {mem : Mem} {endp : ℕ} (hend : endp ≤ offset + size)
    (hfuel : endp ≤ offset + fuel)
    (hf : Filled data mem₀ buffer size offset (max endp offset) mem) :
    ∃ mem', zErofsReadDataLoop env blk buffer offset fuel st map mem endp =
        some (mem', .ok ()) ∧
      Filled data mem₀ buffer size offset offset mem' := by
  induction fuel generalizing st map mem endp with
  | zero =>
      refine ⟨mem, ?_, ?_⟩
      · rw [zErofsReadDataLoop, if_pos (by omega)]
      · rwa [Nat.max_eq_right (by omega)] at hf
  | succ fuel ih =>
      rcases Nat.lt_or_ge offset endp with hlt | hge
      · rw [Nat.max_eq_left hlt.le] at hf
        rcases Nat.lt_or_ge vi.iSize endp with heof | hin
        · -- the range behind the end of the file
          have hsz : st.iSize = vi.iSize := by
            rcases hst with rfl | rfl
            · rfl
            · exact hd.size_filled
          obtain ⟨map', hstep⟩ := zErofsReadDataLoop_eof
            map mem hlt (by rwa [hsz]) (by omega)
          rw [hstep, hsz, replicate_eq_fileBytes (by
            rw [← hd.size]
            exact Nat.le_max_left _ _)]
          apply ih hst (by omega) (by omega)
          exact hf.store (Nat.le_max_right _ _) (by omega) hend
        · obtain ⟨la, map', hla, hstep⟩ := zErofsReadDataLoop_lookup henv hd hst
            map mem hlt hin
          rw [hstep]
          apply ih (Or.inr rfl) (by omega) (by omega)
          rw [Nat.max_eq_left (Nat.le_max_right _ _)]
          exact hf.store (Nat.le_max_right _ _) (by omega) hend
      · refine ⟨mem, ?_, ?_⟩
        · rw [zErofsReadDataLoop, if_pos hge]
        · rwa [Nat.max_eq_right hge] at hf

/-- A read of any range fills the whole buffer with the bytes of the file, zeroes past its
end, and writes nothing outside of the buffer. -/
theorem zErofsReadData_correct (henv : DecodersOk env Encodes)
    (hd : Decodes env Encodes blk vi filled data) (mem : Mem) (buffer : ℕ) {size offset : ℕ}
    (hrange : offset + size < 2 ^ 64) :
    ∃ mem', zErofsReadData env blk vi mem buffer size offset = some (mem', .ok ()) ∧
      (∀ i < size, mem' (buffer + i) = fileByte data (offset + i)) ∧
      ∀ k, k < buffer ∨ buffer + size ≤ k → mem' k = mem k := by
  have hstart : Filled data mem buffer size offset (max (offset + size) offset) mem :=
    ⟨fun i hi hle => absurd hle (by omega), fun _ _ => rfl⟩
  obtain ⟨mem', hok, hf⟩ := zErofsReadDataLoop_spec henv hd hrange (Or.inl rfl)
    le_rfl le_rfl hstart
  refine ⟨mem', ?_, fun i hi => hf.inside i hi (by omega), hf.outside⟩
  rw [zErofsReadData, u64_of_lt hrange]
  exact hok

/-- `erofs_pread` on such an inode returns the bytes of the range. -/
theorem erofsPread_eq (henv : DecodersOk env Encodes)
    (hd : Decodes env Encodes blk vi filled data) {count offset : ℕ}
    (hrange : offset + count < 2 ^ 64) :
    erofsPread env blk vi count offset = .ok (fileBytes data offset (offset + count)) := by
  obtain ⟨mem', hok, hbytes, -⟩ := zErofsReadDataLoop_spec henv hd hrange (Or.inl rfl)
    le_rfl le_rfl ⟨fun i hi hle => absurd hle (by omega), fun _ _ => rfl⟩
  rw [erofsPread, zErofsReadData, u64_of_lt hrange, hok]
  simp only [fileBytes, Nat.add_sub_cancel_left, Except.ok.injEq]
  apply List.map_congr_left
  intro i hi
  have := hbytes i (List.mem_range.mp hi) (by omega)
  rwa [Nat.zero_add] at this

/-- A tail that was packed as a fragment: the packed inode is itself read through its
index. -/
theorem pclusterHolds_fragment {packedEnv : ReadEnv} {packedBlk : BlkRead}
    {packedVi packedFilled : Inode} {packed : List UInt8} (henv : DecodersOk packedEnv Encodes)
    (hd : Decodes packedEnv Encodes packedBlk packedVi packedFilled packed)
    (hpread : env.packedPread = erofsPread packedEnv packedBlk packedVi) {map : MapBlocks}
    (hfrag : map.mFlags.fragment = true) {len : ℕ} (hlen : vi.fragmentoff + len < 2 ^ 64)
    (hbytes : ∀ i < len, fileByte packed (vi.fragmentoff + i) = fileByte data (map.mLa + i)) :
    PclusterHolds env Encodes vi data map len := by
  unfold PclusterHolds
  rw [if_pos hfrag]
  refine ⟨hlen, ?_⟩
  intro skip length hs hl
  rw [hpread, erofsPread_eq henv hd (by omega)]
  congr 1
  apply eq_fileBytes (by simp; omega)
  intro i hi
  rw [getElem?_fileBytes (by omega), Nat.add_assoc, hbytes _ (by omega), Nat.add_assoc]

end Loop

section FullIndex

variable {env : ReadEnv} {Encodes : ℕ → List UInt8 → List UInt8 → Prop} {blk : BlkRead}
  {vi : Inode} {data : List UInt8} {es : List InmemExtent}

theorem exists_extent {ofs : ℕ} (h : ofs < totalLength es) :
    ∃ pre e post, es = pre ++ e :: post ∧ totalLength pre ≤ ofs ∧
      ofs < totalLength pre + e.length := by
  induction es generalizing ofs with
  | nil => simp at h
  | cons e es ih =>
      rw [totalLength_cons] at h
      rcases Nat.lt_or_ge ofs e.length with hlt | hge
      · exact ⟨[], e, es, rfl, by simp, by simpa using hlt⟩
      · obtain ⟨pre, e', post, rfl, hle, hlt⟩ := @ih (ofs - e.length) (by omega)
        refine ⟨e :: pre, e', post, rfl, ?_, ?_⟩
        all_goals
          rw [totalLength_cons]
          omega

def BlocksHold (env : ReadEnv) (Encodes : ℕ → List UInt8 → List UInt8 → Prop) (vi : Inode)
    (es : List InmemExtent) (data : List UInt8) : Prop :=
  ∀ pre e post, es = pre ++ e :: post → ∀ map : MapBlocks, map.mLa = totalLength pre →
    map.mPa = e.blkaddr * vi.sbi.blksz → map.mPlen = e.compressedblks * vi.sbi.blksz →
    map.mFlags.fragment = false → map.mAlgorithmformat = mapFormat vi e.headtype →
    PclusterHolds env Encodes vi data map e.length

/-- The indexes of the FULL layout decode to the extents they were written for. -/
theorem FullInode.decodes (hf : FullInode vi blk es) (hbf : BuiltFile vi es)
    (hfit : CountsFit vi es) (hinit : vi.zInited = true) (hord : OrdinaryTail vi)
    (hdata : data.length = totalLength es) (hblocks : BlocksHold env Encodes vi es data) :
    Decodes env Encodes blk vi vi data := by
  refine ⟨hf.size.trans hdata.symm, hf.size_lt, rfl, ?_⟩
  intro st hst ofs hofs map hmap
  rw [hst.elim id id]
  obtain ⟨pre, e, post, rfl, hge, hlt⟩ := exists_extent (hf.size ▸ hofs)
  obtain ⟨map', hok, hm⟩ := hf.indexed.lookup_blocks hbf (Or.inr hord)
    (hfit pre e post rfl (Or.inr hord)) hge hlt map hmap
  obtain ⟨hpa, hplen, hfrag⟩ := hm.blocks (Or.inr hord)
  have hend := hf.indexed.end_le
  have hsize := hf.size_lt
  refine ⟨map', totalLength pre, e.length, ?_, ⟨hm.mapped, hm.la, hge, hlt, hm.lt, ?_, ?_,
    hend, hm.full⟩, hblocks pre e post rfl map' hm.la hpa hplen hfrag hm.formatEq⟩
  · unfold zErofsMapBlocksIter zErofsFillInodeLazy
    rw [if_neg (by omega), if_pos hinit]
    simp only
    rw [if_neg (by simp [hord.2])]
    exact hok
  · have hle := hm.le_eof
    have hsz := hf.blksz_le_u16
    have hb := vi.sbi.blksz_pos
    have := Nat.div_mul_le_self (vi.iSize + (vi.sbi.blksz - 1)) vi.sbi.blksz
    unfold roundUp at hle
    omega
  · intro hlast
    apply hm.le_end
    rintro rfl
    rw [hf.size, totalLength_append, totalLength_cons, totalLength_nil] at hlast
    omega

end FullIndex

/-- An LZ4 block for 5000 bytes `a`, behind its zero padding. -/
def repeatBlock : List UInt8 :=
  List.replicate 4066 0 ++ [31, 97, 1, 0] ++ List.replicate 19 255 ++ [130, 80, 97, 97, 97, 97, 97]

/-- The packed file: the pcluster with that block, and one that is not compressed. -/
def packedExtents : List InmemExtent :=
  [⟨100, 1, 5000, false, false, false⟩, ⟨101, 1, 904, true, false, false⟩]

def packedInode : Inode := plainInode 12 false (totalLength packedExtents)

def packedData : List UInt8 := List.replicate 5000 97 ++ (List.range 904).map UInt8.ofNat

def repeatDecoder (rq : DecompressReq) : Except Errno (List UInt8) :=
  if rq.input = repeatBlock then
    .ok (((List.replicate 5000 97).drop rq.decodedskip).take (rq.decodedlength - rq.decodedskip))
  else .error .eopnotsupp

def RepeatEncodes (id : ℕ) (raw orig : List UInt8) : Prop :=
  id = 0 ∧ raw = repeatBlock ∧ orig = List.replicate 5000 97

/-- A device that holds the two blocks from block 100 on, without extra devices. -/
def packedEnv : ReadEnv where
  devs := []
  devRead pa plen := .ok (fileBytes (repeatBlock ++ (List.range 904).map UInt8.ofNat) (pa - 409600)
    (pa - 409600 + plen))
  decoder _ := repeatDecoder
  packedPread _ _ := .error .enoent

theorem decodersOk_repeat {env : ReadEnv} (h : env.decoder = fun _ => repeatDecoder) :
    DecodersOk env RepeatEncodes := by
  rintro id orig rq ⟨-, hinput, rfl⟩ - - - - -
  rw [h]
  exact if_pos hinput

theorem length_repeatBlock : repeatBlock.length = 4096 := by
  unfold repeatBlock
  rw [List.length_append, List.length_append, List.length_append, List.length_replicate,
    List.length_replicate]
  rfl

theorem blocksHold_packedExtents :
    BlocksHold packedEnv RepeatEncodes packedInode packedExtents packedData := by
  intro pre e post hes map hla hpa hplen hfrag halg
  have hmap : erofsMapDev packedInode.sbi packedEnv.devs map.mPa = map.mPa := rfl
  have hsz : packedInode.sbi.blksz = 4096 := rfl
  have htail (i : ℕ) : fileByte packedData (5000 + i) =
      fileByte (repeatBlock ++ (List.range 904).map UInt8.ofNat) (4096 + i) := by
    have hlen : (List.replicate 5000 (97 : UInt8)).length = 5000 := List.length_replicate
    rw [packedData, fileByte_append_right (by omega), fileByte_append_right (by
      rw [length_repeatBlock]
      omega), hlen, length_repeatBlock, Nat.add_sub_cancel_left, Nat.add_sub_cancel_left]
  rw [hsz] at hpa hplen
  unfold PclusterHolds
  rw [if_neg (by simp [hfrag]), hmap]
  match pre, hes with
  | [], hes =>
      obtain ⟨rfl, -⟩ := List.cons.inj hes
      have hformat : map.mAlgorithmformat = .alg 0 := halg
      have hpa0 : map.mPa = 409600 := hpa
      have hplen0 : map.mPlen = 4096 := hplen
      have hraw : repeatBlock =
          fileBytes (repeatBlock ++ (List.range 904).map UInt8.ofNat) 0 4096 := by
        refine eq_fileBytes length_repeatBlock fun i hi => ?_
        have hlt : i < repeatBlock.length := length_repeatBlock.symm ▸ hi
        rw [Nat.zero_add, fileByte_append_left hlt, fileByte, List.getElem?_eq_getElem hlt]
        rfl
      refine ⟨by decide, repeatBlock, ?_, ?_, ?_, ?_⟩
      · rw [hpa0, hplen0]
        exact congrArg Except.ok hraw.symm
      · rw [hplen0, length_repeatBlock]
      · omega
      · rw [hformat]
        refine ⟨_, ⟨rfl, rfl, rfl⟩, fun i hi => ?_, Or.inl ?_⟩
        · have hla0 : map.mLa = 0 := hla
          have hlt : i < (List.replicate 5000 (97 : UInt8)).length := by
            rw [List.length_replicate]
            exact hi
          rw [hla0, Nat.zero_add, packedData, fileByte_append_left hlt, fileByte,
            List.getElem?_eq_getElem hlt]
          rfl
        · exact (List.length_replicate).symm
  | [x], hes =>
      obtain ⟨hx, hes⟩ := List.cons.inj hes
      obtain ⟨rfl, -⟩ := List.cons.inj hes
      have hformat : map.mAlgorithmformat = .shifted := halg
      have hpa1 : map.mPa = 409600 + 4096 := hpa
      have hplen1 : map.mPlen = 4096 := hplen
      have hla1 : map.mLa = 5000 := by
        rw [hla, ← hx]
        rfl
      refine ⟨by decide, _, rfl, ?_, ?_, ?_⟩
      · rw [length_fileBytes]
        omega
      · omega
      · rw [hformat, hpa1, hplen1, hla1, Nat.add_sub_cancel_left]
        intro i hi
        have hi904 : i < 904 := hi
        rw [getElem?_fileBytes (by omega), htail]
  | x :: y :: pre, hes => simp [packedExtents] at hes

theorem length_packedData : packedData.length = totalLength packedExtents := by
  rw [packedData, List.length_append, List.length_replicate, List.length_map, List.length_range]
  rfl

theorem packedInode_decodes :
    Decodes packedEnv RepeatEncodes (indexDevice packedInode packedExtents) packedInode packedInode
      packedData := by
  have hf : FullInode packedInode (indexDevice packedInode packedExtents) packedExtents :=
    fullInode_plainInode (by decide) (by decide) (by decide)
      ⟨by decide, by decide, fun _ => by decide, by decide, by decide, fun h => absurd rfl h,
        trivial⟩
  have hbf : BuiltFile packedInode packedExtents := by
    apply builtFile_plainInode
    intro e he
    simp only [packedExtents, List.mem_cons, List.not_mem_nil, or_false] at he
    rcases he with rfl | rfl <;>
      exact ⟨by decide, by decide, by decide, by decide, by decide, by decide, by decide⟩
  have hfit : CountsFit packedInode packedExtents := by
    intro pre e post hes _ _
    have he : e ∈ packedExtents := by simp [hes]
    simp only [packedExtents, List.mem_cons, List.not_mem_nil, or_false] at he
    rcases he with rfl | rfl <;> decide
  exact hf.decodes hbf hfit rfl ⟨rfl, rfl⟩ length_packedData blocksHold_packedExtents

/-- A file of 1500 bytes that is a fragment of the packed file, across its two pclusters. -/
def fragmentInode : Inode :=
  { plainInode 12 false 1500 with
    zAdvise := ⟨false, false, false, false, false, true⟩
    fragmentoff := 4000 }

def fragmentData : List UInt8 := fileBytes packedData 4000 5500

/-- The packed file is read through its own index. -/
def fragmentEnv : ReadEnv :=
  { packedEnv with
    packedPread := erofsPread packedEnv (indexDevice packedInode packedExtents) packedInode }

theorem fragmentInode_decodes (blk : BlkRead) :
    Decodes fragmentEnv RepeatEncodes blk fragmentInode fragmentInode fragmentData := by
  have hlen : fragmentData.length = 1500 := length_fileBytes _ _ _
  refine ⟨hlen.symm, by decide, rfl, fun st hst ofs hofs map hmap => ?_⟩
  rw [hst.elim id id]
  have hlt : ofs < 1500 := hofs
  refine ⟨{ map with
    mLa := 0, mLlen := 1500, mFlags := { mapped := true, fullMapped := true, fragment := true } },
    0, 1500, ?_, ⟨rfl, rfl, Nat.zero_le _, by omega, by simpa using hlt, by simp, by simp,
      by decide, fun _ => rfl⟩, ?_⟩
  · unfold zErofsMapBlocksIter
    rw [if_neg (by rw [hmap]; exact Nat.not_le.mpr hofs)]
    rfl
  · refine pclusterHolds_fragment (decodersOk_repeat rfl) packedInode_decodes rfl rfl
      (by decide) fun i hi => ?_
    have hget := @getElem?_fileBytes packedData 4000 5500 i (by omega)
    rw [Nat.zero_add, fragmentData]
    conv_rhs => rw [fileByte, hget]
    rfl

/-- A read that reaches past the end of the file. -/
theorem zErofsReadData_fragment :
    ∃ mem', zErofsReadData fragmentEnv (indexDevice packedInode packedExtents) fragmentInode
        (fun _ => 255) 64 2000 500 = some (mem', .ok ()) ∧
      (∀ i < 2000, mem' (64 + i) = fileByte fragmentData (500 + i)) ∧
      ∀ k, k < 64 ∨ 64 + 2000 ≤ k → mem' k = 255 :=
  zErofsReadData_correct (decodersOk_repeat rfl) (fragmentInode_decodes _) (fun _ => 255) 64
    (by decide)

end ErofsUtils
