import ErofsUtils.SuperLayout

/-!
# The superblock round trip

A superblock that `mkfs` has written is read back with everything in it, unless the block size is
1024, where the reader takes the superblock for too large, or it is 512 and the checksum feature
is on, where `erofs_enable_sb_chksum` does not write the block that it has changed, or the device
table lies so far behind that its slot number does not fit the superblock.
-/

namespace ErofsUtils
open ByteMemory CString

/-- What `mkfs` keeps to: every field has its on-disk width, the features are known ones, there is a
device table if there are devices, and `erofs_balloc` has put it at `bhDevt`, at a multiple of its
alignment and behind the records. -/
structure MkfsSb.Reachable (sbi : MkfsSb) (maxBlkszbits bhDevt : ℕ) : Prop where
  blkszbits : 9 ≤ sbi.blkszbits ∧ sbi.blkszbits ≤ maxBlkszbits
  max : maxBlkszbits ≤ 30
  featureCompat : sbi.featureCompat < 2 ^ 32
  featureIncompat : sbi.featureIncompat ≤ allFeatureIncompat
  rootNid : sbi.rootNid < 2 ^ 16
  inos : sbi.inos < 2 ^ 64
  buildTime : sbi.buildTime < 2 ^ 64
  buildTimeNsec : sbi.buildTimeNsec < 2 ^ 32
  metaBlkaddr : sbi.metaBlkaddr < 2 ^ 32
  xattrBlkaddr : sbi.xattrBlkaddr < 2 ^ 32
  packedNid : sbi.packedNid < 2 ^ 64
  uuid : sbi.uuid.length = 16
  volumeName : sbi.volumeName.length = 16
  algs : sbi.availableComprAlgs < 16
  lz4 : sbi.compr.lz4MaxDistance < 2 ^ 16
  prefixStart : sbi.xattrPrefixStart < 2 ^ 32
  prefixCount : sbi.xattrPrefixes.length < 2 ^ 8
  prefixLen : ∀ p ∈ sbi.xattrPrefixes, p.2.length ≤ 255
  prefixNid : sbi.xattrPrefixes ≠ [] → sbi.packedNid ≠ 0
  devs : ∀ d ∈ sbi.devs, d.tag.length = 64 ∧ d.blocks < 2 ^ 32
  devCount : sbi.devs.length < 2 ^ 16
  devTable : sbi.hasDeviceTable = false → sbi.devs = []
  devtSlotoff : sbi.devtSlotoff < 2 ^ 16
  devtSlotoff_eq : sbi.devs ≠ [] → sbi.devtSlotoff = u16 (bhDevt / erofsDevtSlotSize)
  devtAligned : erofsDevtSlotSize ∣ bhDevt
  devtPos : sbi.devs ≠ [] → erofsSuperEnd + sbi.comprCfgs.length ≤ bhDevt

/-- The image: what else is on the device, then the compression configurations, the device table
for devices that are mapped from `nblocks` on, the superblock, and its checksum. -/
def MkfsSb.image (sbi : MkfsSb) (bhDevt : ℕ) (disk : Mem) (nblocks blocks : ℕ) : Mem :=
  let disk := sbi.erofsMkfsDumpBlobs bhDevt nblocks (sbi.zErofsBuildComprCfgs disk)
  let disk := sbi.erofsWritesb blocks disk
  if sbi.hasSbChksum then sbi.erofsEnableSbChksum disk else disk

def prefixesEnd : ℕ → List (UInt8 × List UInt8) → ℕ
  | _, [] => 0
  | offset, p :: ps => max (offset + (prefixRecord p).length)
      (prefixesEnd (roundUp (offset + (prefixRecord p).length) 4) ps)

structure PackedReads (sbi : MkfsSb) (pread : ℕ → ℕ → ℕ → Except Errno (List UInt8))
    (file : Mem) (size : ℕ) : Prop where
  read : ∀ off n, off + n ≤ size →
    pread sbi.packedNid off n =
      .ok (slice (erofsXattrWriteNamePrefixes file (sbi.xattrPrefixStart * 4)
        sbi.xattrPrefixes) off n)
  size : prefixesEnd (sbi.xattrPrefixStart * 4) sbi.xattrPrefixes ≤ size

structure MkfsSb.Recovered (sbi : MkfsSb) (nblocks blocks : ℕ) (r : ReadSb) : Prop where
  blkszbits : r.blkszbits = sbi.blkszbits
  featureCompat : r.featureCompat = sbi.featureCompat
  featureIncompat : r.featureIncompat = sbi.featureIncompat
  blocks : r.primarydeviceBlocks = blocks
  total : r.totalBlocks = r.primarydeviceBlocks + (sbi.devs.map DeviceSlot.blocks).sum
  metaBlkaddr : r.metaBlkaddr = sbi.metaBlkaddr
  xattrBlkaddr : r.xattrBlkaddr = sbi.xattrBlkaddr
  rootNid : r.rootNid = sbi.rootNid
  packedNid : r.packedNid = sbi.packedNid
  inos : r.inos = sbi.inos
  buildTime : r.buildTime = sbi.buildTime
  buildTimeNsec : r.buildTimeNsec = sbi.buildTimeNsec
  uuid : r.uuid = sbi.uuid
  algs : sbi.hasComprCfgs → r.availableComprAlgs = sbi.availableComprAlgs
  devs : r.devs = deviceSlots nblocks sbi.devs
  prefixes : r.xattrPrefixes = sbi.xattrPrefixes.map fun p => p.1 :: p.2

section Parts

variable {sbi : MkfsSb} {maxBlkszbits bhDevt : ℕ}

theorem MkfsSb.Reachable.fits (h : sbi.Reachable maxBlkszbits bhDevt) {blocks : ℕ}
    (hb : blocks < 2 ^ 32) : (sbi.superBlock blocks).Fits := by
  have hbits := h.blkszbits
  have hmax := h.max
  have hfc := h.featureCompat
  constructor
  case magic => change erofsSuperMagicV1 < 2 ^ 32; decide
  case checksum => change 0 < 2 ^ 32; decide
  case featureCompat => change sbi.featureCompat - sbi.featureCompat % 2 < 2 ^ 32; omega
  case blkszbits => change sbi.blkszbits < 2 ^ 8; omega
  case sbExtslots => change 0 < 2 ^ 8; decide
  case rootNid => exact u16_lt _
  case inos => exact h.inos
  case buildTime => exact h.buildTime
  case buildTimeNsec => exact h.buildTimeNsec
  case blocks => exact hb
  case metaBlkaddr => exact h.metaBlkaddr
  case xattrBlkaddr => exact h.xattrBlkaddr
  case uuid => exact h.uuid
  case volumeName => exact h.volumeName
  case featureIncompat =>
    have hle := h.featureIncompat
    change sbi.featureIncompat < 2 ^ 32
    unfold allFeatureIncompat at hle
    omega
  case u1 =>
    have halgs := h.algs
    have hlz4 := h.lz4
    change (if sbi.hasComprCfgs then sbi.availableComprAlgs else sbi.compr.lz4MaxDistance) < 2 ^ 16
    split <;> omega
  case extraDevices => exact h.devCount
  case devtSlotoff => exact h.devtSlotoff
  case dirblkbits => change 0 < 2 ^ 8; decide
  case xattrPrefixCount => exact h.prefixCount
  case xattrPrefixStart => exact h.prefixStart
  case packedNid => exact h.packedNid
  case xattrFilterReserved => change 0 < 2 ^ 8; decide
  case reserved2 => exact length_zeroPad 23

/-! ### Compression configurations -/

def cfgsOf (sbi : MkfsSb) : ℕ → List UInt8
  | 0 => sbi.lz4Cfgs
  | 1 => sbi.lzmaCfgs
  | 2 => sbi.deflateCfgs
  | _ => sbi.zstdCfgs

def recordsFrom (sbi : MkfsSb) : ℕ → ℕ → List UInt8
  | 0, _ => []
  | n + 1, alg => sbi.comprRecord alg (cfgsOf sbi alg) ++ recordsFrom sbi n (alg + 1)

theorem comprCfgs_eq (sbi : MkfsSb) : sbi.comprCfgs = recordsFrom sbi 4 0 := by
  have h : recordsFrom sbi 4 0 = sbi.comprRecord 0 sbi.lz4Cfgs ++
      (sbi.comprRecord 1 sbi.lzmaCfgs ++ (sbi.comprRecord 2 sbi.deflateCfgs ++
        (sbi.comprRecord 3 sbi.zstdCfgs ++ []))) := rfl
  rw [h, List.append_nil]
  rfl

theorem cfgsOf_spec (sbi : MkfsSb) (alg : ℕ) :
    4 ∣ 2 + (cfgsOf sbi alg).length ∧ 6 ≤ (cfgsOf sbi alg).length ∧
      (cfgsOf sbi alg).length < 2 ^ 16 ∧ (alg = 0 → 14 ≤ (cfgsOf sbi alg).length) := by
  have h0 : sbi.lz4Cfgs.length = 14 := by simp [MkfsSb.lz4Cfgs]
  have h1 : sbi.lzmaCfgs.length = 14 := by simp [MkfsSb.lzmaCfgs]
  have h2 : sbi.deflateCfgs.length = 6 := by simp [MkfsSb.deflateCfgs]
  have h3 : sbi.zstdCfgs.length = 6 := by simp [MkfsSb.zstdCfgs]
  rcases alg with _ | _ | _ | alg
  · change 4 ∣ 2 + sbi.lz4Cfgs.length ∧ 6 ≤ sbi.lz4Cfgs.length ∧ sbi.lz4Cfgs.length < 2 ^ 16 ∧
      (0 = 0 → 14 ≤ sbi.lz4Cfgs.length)
    omega
  · change 4 ∣ 2 + sbi.lzmaCfgs.length ∧ 6 ≤ sbi.lzmaCfgs.length ∧
      sbi.lzmaCfgs.length < 2 ^ 16 ∧ (1 = 0 → 14 ≤ sbi.lzmaCfgs.length)
    omega
  · change 4 ∣ 2 + sbi.deflateCfgs.length ∧ 6 ≤ sbi.deflateCfgs.length ∧
      sbi.deflateCfgs.length < 2 ^ 16 ∧ (2 = 0 → 14 ≤ sbi.deflateCfgs.length)
    omega
  · change 4 ∣ 2 + sbi.zstdCfgs.length ∧ 6 ≤ sbi.zstdCfgs.length ∧
      sbi.zstdCfgs.length < 2 ^ 16 ∧ (alg + 3 = 0 → 14 ≤ sbi.zstdCfgs.length)
    omega

theorem zErofsLoadLz4Config_ok {u1 : ℕ} {data : List UInt8} (h : 14 ≤ data.length) :
    ∃ lz4, zErofsLoadLz4Config u1 (some data) = .ok lz4 := by
  unfold zErofsLoadLz4Config
  simp only
  rw [if_neg (by omega)]
  exact ⟨_, rfl⟩

theorem parseCfgsLoop_ok {env : SbEnv} {blkszbits u1 n fuel alg offset : ℕ} {lz4 : ℕ × ℕ}
    (hn : alg + n = 4) (hfuel : n ≤ fuel) (h16 : sbi.availableComprAlgs < 16) (h4 : 4 ∣ offset)
    (h : Holds env.disk offset (recordsFrom sbi n alg)) :
    ∃ lz4', parseCfgsLoop env blkszbits u1 fuel (sbi.availableComprAlgs / 2 ^ alg) alg offset
      lz4 = .ok lz4' := by
  induction n generalizing fuel alg offset lz4 with
  | zero =>
    have halg : alg = 4 := by omega
    have h0 : sbi.availableComprAlgs / 2 ^ alg = 0 := by
      rw [halg]
      omega
    rw [h0]
    cases fuel with
    | zero => exact ⟨lz4, rfl⟩
    | succ fuel =>
      unfold parseCfgsLoop
      exact ⟨lz4, if_pos rfl⟩
  | succ n ih =>
    cases fuel with
    | zero => omega
    | succ fuel =>
    have hdiv : sbi.availableComprAlgs / 2 ^ alg / 2 = sbi.availableComprAlgs / 2 ^ (alg + 1) := by
      rw [Nat.div_div_eq_div_mul, pow_succ]
    have hbit : sbi.availableComprAlgs.testBit alg =
        decide (sbi.availableComprAlgs / 2 ^ alg % 2 = 1) := Nat.testBit_eq_decide_div_mod_eq
    unfold parseCfgsLoop
    by_cases h0 : sbi.availableComprAlgs / 2 ^ alg = 0
    · exact ⟨lz4, if_pos h0⟩
    rw [if_neg h0, hdiv]
    unfold recordsFrom MkfsSb.comprRecord at h
    by_cases heven : sbi.availableComprAlgs / 2 ^ alg % 2 = 0
    · rw [if_pos heven]
      rw [hbit, if_neg (by rw [heven]; decide), List.nil_append] at h
      exact ih (by omega) (by omega) h4 h
    rw [if_neg heven]
    rw [hbit, if_pos (by rw [decide_eq_true_eq]; omega)] at h
    obtain ⟨hdvd, hmin, hmax, hlz4⟩ := cfgsOf_spec sbi alg
    generalize cfgsOf sbi alg = data at *
    obtain ⟨hdata, hrest⟩ := holds_append.1 h
    rw [List.length_append, length_leBytes, ← Nat.add_assoc] at hrest
    have hread : erofsReadMetadata env blkszbits 0 offset = .ok (data, offset + 2 + data.length) := by
      unfold erofsReadMetadata
      rw [if_neg (by decide)]
      exact erofsReadMetadataBdi_of_holds h4 (by omega) hmax hdata
    rw [hread]
    simp only
    have hnext : 4 ∣ offset + 2 + data.length := by
      rw [Nat.add_assoc]
      exact Nat.dvd_add h4 hdvd
    by_cases ha0 : alg = 0
    · rw [if_pos ha0]
      obtain ⟨lz4', hload⟩ := @zErofsLoadLz4Config_ok u1 data (hlz4 ha0)
      rw [hload]
      exact ih (by omega) (by omega) hnext hrest
    rw [if_neg ha0]
    by_cases ha2 : alg = 2
    · rw [if_pos ha2]
      unfold zErofsLoadDeflateConfig
      rw [if_neg (by omega)]
      exact ih (by omega) (by omega) hnext hrest
    · rw [if_neg ha2]
      exact ih (by omega) (by omega) hnext hrest

/-! ### Devices -/

theorem deviceSlots_length (nblocks : ℕ) (ds : List DeviceSlot) :
    (deviceSlots nblocks ds).length = ds.length := by
  induction ds generalizing nblocks with
  | nil => rfl
  | cons d ds ih => exact congrArg (· + 1) (ih _)

theorem deviceSlots_blocks (nblocks : ℕ) (ds : List DeviceSlot) :
    (deviceSlots nblocks ds).map DeviceSlot.blocks = ds.map DeviceSlot.blocks := by
  induction ds generalizing nblocks with
  | nil => rfl
  | cons d ds ih => exact congrArg (d.blocks :: ·) (ih _)

theorem deviceSlots_fits {nblocks : ℕ} {ds : List DeviceSlot} (hn : nblocks < 2 ^ 32)
    (h : ∀ d ∈ ds, d.tag.length = 64 ∧ d.blocks < 2 ^ 32) :
    ∀ d ∈ deviceSlots nblocks ds, d.Fits := by
  induction ds generalizing nblocks with
  | nil =>
    intro d hd
    cases hd
  | cons d ds ih =>
    intro e he
    have hd := h d List.mem_cons_self
    rcases List.mem_cons.1 he with rfl | he
    · exact ⟨hd.1, hd.2, hn⟩
    · exact ih (u32_lt _) (fun e he => h e (List.mem_cons_of_mem _ he)) e he

theorem readSlots {mem : Mem} {pos : ℕ} {ds : List DeviceSlot} (hf : ∀ d ∈ ds, d.Fits)
    (h : Holds mem pos (ds.flatMap DeviceSlot.encode)) :
    ((List.range ds.length).map fun i => DeviceSlot.decode mem (pos + i * erofsDevtSlotSize)) =
      ds := by
  induction ds generalizing pos with
  | nil => rfl
  | cons d ds ih =>
    rw [List.flatMap_cons, holds_append, (hf d List.mem_cons_self).length] at h
    rw [List.length_cons, List.range_succ_eq_map, List.map_cons, List.map_map, Nat.zero_mul,
      Nat.add_zero, DeviceSlot.decode_of_holds (hf d List.mem_cons_self) h.1]
    congr 1
    have hrest := ih (fun e he => hf e (List.mem_cons_of_mem _ he)) h.2
    rw [← hrest]
    rw [hrest]
    refine Eq.trans ?_ hrest
    apply List.map_congr_left
    intro i _
    rw [Function.comp_apply, Nat.succ_mul, Nat.add_comm (i * erofsDevtSlotSize), Nat.add_assoc]

/-! ### Prefixes -/

theorem length_prefixRecord (p : UInt8 × List UInt8) :
    (prefixRecord p).length = p.2.length + 3 := by
  unfold prefixRecord
  rw [List.length_append, length_leBytes, List.length_cons]
  omega

theorem roundUp_four (n : ℕ) : n ≤ roundUp n 4 ∧ roundUp n 4 ≤ n + 3 ∧ 4 ∣ roundUp n 4 :=
  ⟨le_roundUp (by decide), Nat.le_of_lt_succ (roundUp_lt (by decide)), dvd_roundUp n 4⟩

theorem writePrefixes_of_lt {f : Mem} {offset k : ℕ} (ps : List (UInt8 × List UInt8))
    (hk : k < offset) : erofsXattrWriteNamePrefixes f offset ps k = f k := by
  induction ps generalizing f offset with
  | nil => rfl
  | cons p ps ih =>
    have hup := (roundUp_four (offset + (prefixRecord p).length)).1
    unfold erofsXattrWriteNamePrefixes
    rw [ih (by omega), store_of_lt _ hk]

theorem prefixesLoop_ok {env : SbEnv} {blkszbits nid size pos offset : ℕ} {f : Mem}
    (ps : List (UInt8 × List UInt8)) (hnid : ps ≠ [] → nid ≠ 0)
    (hlen : ∀ p ∈ ps, p.2.length ≤ 255) (h4 : roundUp pos 4 = offset)
    (hread : ∀ off n, off + n ≤ size → env.pread nid off n =
      .ok (slice (erofsXattrWriteNamePrefixes f offset ps) off n))
    (hsize : prefixesEnd offset ps ≤ size) :
    prefixesLoop env blkszbits nid ps.length pos = .ok (ps.map fun p => p.1 :: p.2) := by
  induction ps generalizing pos offset f with
  | nil => rfl
  | cons p ps ih =>
    have hp := hlen p List.mem_cons_self
    have hrec := length_prefixRecord p
    have hup := (roundUp_four (offset + (prefixRecord p).length)).1
    have hne := hnid (List.cons_ne_nil p ps)
    unfold prefixesEnd at hsize
    have hholds : Holds (erofsXattrWriteNamePrefixes f offset (p :: ps)) offset
        (leBytes 2 (p.1 :: p.2).length ++ (p.1 :: p.2)) := by
      unfold erofsXattrWriteNamePrefixes
      apply holds_congr _ (holds_store f offset (prefixRecord p))
      intro k _ hk
      apply writePrefixes_of_lt
      have hl : (leBytes 2 (p.1 :: p.2).length ++ (p.1 :: p.2)).length =
          (prefixRecord p).length := rfl
      omega
    have hmeta : erofsReadMetadata env blkszbits nid pos =
        .ok (p.1 :: p.2, offset + 2 + (p.1 :: p.2).length) := by
      unfold erofsReadMetadata
      rw [if_pos hne]
      apply erofsReadMetadataNid_of_holds hread h4 _ _ _ hholds
      · rw [List.length_cons]
        omega
      · rw [List.length_cons]
        omega
      · rw [List.length_cons]
        omega
    have hnext : prefixesLoop env blkszbits nid ps.length
        (offset + 2 + (p.1 :: p.2).length) = .ok (ps.map fun p => p.1 :: p.2) := by
      apply ih (fun _ => hne) (fun q hq => hlen q (List.mem_cons_of_mem _ hq)) _ hread (by omega)
      rw [hrec, List.length_cons]
      congr 1
      omega
    rw [List.length_cons]
    unfold prefixesLoop
    rw [hmeta]
    simp only
    rw [if_neg (by rw [List.length_cons]; omega), hnext]
    rfl

/-! ### The image -/

/-- The superblock in the image: its checksum is written if it lies in the first block. -/
def imageSb (sbi : MkfsSb) (blocks checksum : ℕ) : SuperBlock :=
  if sbi.hasSbChksum ∧ 11 ≤ sbi.blkszbits then
    { sbi.superBlock blocks with
      featureCompat := (sbi.superBlock blocks).featureCompat ||| featureCompatSbChksum
      checksum := checksum }
  else sbi.superBlock blocks

theorem even_or_one (n : ℕ) : (n - n % 2) ||| featureCompatSbChksum = n - n % 2 + 1 := by
  have h := Nat.two_pow_add_eq_or_of_lt (i := 1) (b := 1) (by decide) (n / 2)
  have hn : 2 ^ 1 * (n / 2) = n - n % 2 := by omega
  rw [hn] at h
  exact h.symm

theorem imageSb_fits (h : sbi.Reachable maxBlkszbits bhDevt) {blocks checksum : ℕ} (hb : blocks < 2 ^ 32)
    (hc : checksum < 2 ^ 32) : (imageSb sbi blocks checksum).Fits := by
  have hf := h.fits hb
  have hfc := h.featureCompat
  unfold imageSb
  split
  · refine { hf with featureCompat := ?_, checksum := hc }
    change (sbi.featureCompat - sbi.featureCompat % 2) ||| featureCompatSbChksum < 2 ^ 32
    rw [even_or_one]
    omega
  · exact hf

theorem blksz_le {a b : ℕ} (h : a ≤ b) : 2 ^ a ≤ 2 ^ b := Nat.pow_le_pow_right (by decide) h

theorem enableSbChksum_spec (h : sbi.Reachable maxBlkszbits bhDevt) {blocks : ℕ}
    (hb : blocks < 2 ^ 32) {disk : Mem} (hsb : Holds disk erofsSuperOffset (sbi.superBlock blocks).encode)
    (hon : sbi.hasSbChksum = true) :
    (∀ k, k < erofsSuperOffset ∨ erofsSuperEnd ≤ k → sbi.erofsEnableSbChksum disk k = disk k) ∧
      ∃ checksum, checksum < 2 ^ 32 ∧ Holds (sbi.erofsEnableSbChksum disk) erofsSuperOffset
        (imageSb sbi blocks checksum).encode := by
  have hdec := SuperBlock.decode_of_holds (h.fits hb) hsb
  have hmagic : (sbi.superBlock blocks).magic = erofsSuperMagicV1 := rfl
  unfold MkfsSb.erofsEnableSbChksum
  simp only
  rw [hdec, if_neg (by rw [hmagic]; simp)]
  generalize hcrc : erofsCrc32c 0xFFFFFFFF _ = crc
  have hcrc : crc.toNat < 2 ^ 32 := crc.toNat_lt
  have hend : erofsSuperEnd = erofsSuperOffset + 128 := rfl
  constructor
  · intro k hk
    split
    · have hlen : ({ sbi.superBlock blocks with
          featureCompat := (sbi.superBlock blocks).featureCompat ||| featureCompatSbChksum
          checksum := crc.toNat } : SuperBlock).encode.length = 128 := by
        have hf := h.fits hb
        unfold SuperBlock.encode
        simp only [List.length_append, length_leBytes, hf.uuid, hf.volumeName, hf.reserved2]
      rcases hk with hk | hk
      · exact store_of_lt _ hk
      · apply store_of_ge
        rw [hlen, ← hend]
        exact hk
    · rfl
  · refine ⟨crc.toNat, hcrc, ?_⟩
    have hlen := (imageSb_fits h hb hcrc).length
    unfold imageSb at hlen ⊢
    by_cases hbig : 11 ≤ sbi.blkszbits
    · -- the superblock lies in the first block
      rw [if_pos ⟨hon, hbig⟩] at hlen ⊢
      have hblk : 2 ^ 11 ≤ 2 ^ sbi.blkszbits := blksz_le hbig
      apply holds_congr _ (holds_store disk erofsSuperOffset _)
      intro k _ hk
      rw [hlen] at hk
      have hoff : erofsSuperOffset = 1024 := rfl
      rw [if_pos (by omega)]
    · rw [if_neg (fun hc => hbig hc.2)]
      have hblk : 2 ^ sbi.blkszbits ≤ 2 ^ 10 := blksz_le (by omega)
      apply holds_congr _ hsb
      intro k hk _
      have hoff : erofsSuperOffset = 1024 := rfl
      rw [if_neg (by omega)]

/-- What the image holds: the superblock, zeros in front of it, and the rest as it was written. -/
structure ImageHolds (sbi : MkfsSb) (bhDevt : ℕ) (disk : Mem) (nblocks blocks : ℕ) (image : Mem) :
    Prop where
  superBlock : ∃ checksum, checksum < 2 ^ 32 ∧
    SuperBlock.decode image erofsSuperOffset = imageSb sbi blocks checksum
  front : ∀ k < erofsSuperOffset, image k = 0
  behind : ∀ k, erofsSuperEnd ≤ k →
    image k = sbi.erofsMkfsDumpBlobs bhDevt nblocks (sbi.zErofsBuildComprCfgs disk) k

theorem image_holds (h : sbi.Reachable maxBlkszbits bhDevt) (disk : Mem) (nblocks : ℕ)
    {blocks : ℕ} (hb : blocks < 2 ^ 32) :
    ImageHolds sbi bhDevt disk nblocks blocks (sbi.image bhDevt disk nblocks blocks) := by
  unfold MkfsSb.image
  simp only
  generalize hd2 : sbi.erofsMkfsDumpBlobs bhDevt nblocks (sbi.zErofsBuildComprCfgs disk) = d2
  -- the superblock ends where the rest begins
  have hlen : (zeroPad erofsSuperOffset ++ (sbi.superBlock blocks).encode).length =
      erofsSuperEnd := by
    rw [List.length_append, length_zeroPad, (h.fits hb).length]
    rfl
  have hst := holds_append.1 (holds_store d2 0
    (zeroPad erofsSuperOffset ++ (sbi.superBlock blocks).encode))
  have hsb : Holds (sbi.erofsWritesb blocks d2) erofsSuperOffset
      (sbi.superBlock blocks).encode := by
    have hsecond := hst.2
    rw [length_zeroPad, Nat.zero_add] at hsecond
    exact hsecond
  have hfront : ∀ k < erofsSuperOffset, sbi.erofsWritesb blocks d2 k = 0 := by
    intro k hk
    have hzero := hst.1 k 0 (List.getElem?_replicate_of_lt hk)
    rwa [Nat.zero_add] at hzero
  have hbehind : ∀ k, erofsSuperEnd ≤ k → sbi.erofsWritesb blocks d2 k = d2 k := by
    intro k hk
    apply store_of_ge
    rw [hlen, Nat.zero_add]
    exact hk
  by_cases hon : sbi.hasSbChksum = true
  · rw [if_pos hon]
    obtain ⟨hsame, checksum, hc, hnew⟩ := enableSbChksum_spec h hb hsb hon
    refine ⟨⟨checksum, hc, SuperBlock.decode_of_holds (imageSb_fits h hb hc) hnew⟩, ?_, ?_⟩
    · intro k hk
      exact (hsame k (Or.inl hk)).trans (hfront k hk)
    · intro k hk
      rw [hd2]
      exact (hsame k (Or.inr hk)).trans (hbehind k hk)
  · rw [if_neg hon]
    have hnew : Holds (sbi.erofsWritesb blocks d2) erofsSuperOffset (imageSb sbi blocks 0).encode := by
      unfold imageSb
      rw [if_neg (fun hc => hon hc.1)]
      exact hsb
    refine ⟨⟨0, by decide, SuperBlock.decode_of_holds (imageSb_fits h hb (by decide)) hnew⟩, hfront,
      ?_⟩
    rw [hd2]
    exact hbehind

section Image

variable {disk image : Mem} {nblocks blocks : ℕ}

theorem ImageHolds.below (hi : ImageHolds sbi bhDevt disk nblocks blocks image) {k : ℕ}
    (hk : erofsSuperEnd ≤ k) (hlt : sbi.devs ≠ [] → k < bhDevt) :
    image k = sbi.zErofsBuildComprCfgs disk k := by
  rw [hi.behind k hk]
  unfold MkfsSb.erofsMkfsDumpBlobs
  cases hdevs : sbi.devs with
  | nil => rw [deviceSlots, List.flatMap_nil, store_nil]
  | cons d ds => exact store_of_lt _ (hlt (by rw [hdevs]; exact List.cons_ne_nil d ds))

theorem ImageHolds.cfgs (hi : ImageHolds sbi bhDevt disk nblocks blocks image)
    (h : sbi.Reachable maxBlkszbits bhDevt) (hon : sbi.hasComprCfgs = true) :
    Holds image erofsSuperEnd sbi.comprCfgs := by
  apply holds_congr _ (holds_store disk erofsSuperEnd sbi.comprCfgs)
  intro k hk hlt
  have hbelow := hi.below hk fun hne => Nat.lt_of_lt_of_le hlt (h.devtPos hne)
  rw [hbelow, MkfsSb.zErofsBuildComprCfgs, if_pos hon]

theorem ImageHolds.slots (hi : ImageHolds sbi bhDevt disk nblocks blocks image)
    (h : sbi.Reachable maxBlkszbits bhDevt) :
    Holds image bhDevt ((deviceSlots nblocks sbi.devs).flatMap DeviceSlot.encode) := by
  by_cases hdevs : sbi.devs = []
  · rw [hdevs]
    exact holds_nil _ _
  · have hpos := h.devtPos hdevs
    exact holds_congr (fun k hk _ => hi.behind k (by omega)) (holds_store _ _ _)

end Image

/-! ### The device table -/

def slotsRead (sbi : MkfsSb) (image : Mem) : List DeviceSlot :=
  (List.range sbi.devs.length).map fun i =>
    DeviceSlot.decode image (sbi.devtSlotoff * erofsDevtSlotSize + i * erofsDevtSlotSize)

/-- What lies in front of the table has no part in it that depends on the addresses of the devices. -/
theorem mappedBlkaddr_same (h : sbi.Reachable maxBlkszbits bhDevt) (disk : Mem) {n n' blocks : ℕ}
    (hb : blocks < 2 ^ 32) {slot : ℕ} (hlt : sbi.devs ≠ [] → (slot + 1) * erofsDevtSlotSize ≤ bhDevt) :
    (DeviceSlot.decode (sbi.image bhDevt disk n blocks) (slot * erofsDevtSlotSize)).mappedBlkaddr =
      (DeviceSlot.decode (sbi.image bhDevt disk n' blocks)
        (slot * erofsDevtSlotSize)).mappedBlkaddr := by
  have hi := image_holds h disk n hb
  have hi' := image_holds h disk n' hb
  have hsize : erofsDevtSlotSize = 128 := rfl
  have hoff : erofsSuperOffset = 1024 := rfl
  have hend : erofsSuperEnd = 1152 := rfl
  rw [hsize] at hlt ⊢
  apply leNat_congr
  intro k hk
  rcases Nat.lt_trichotomy slot 8 with hfront | rfl | hbehind
  · rw [hi.front _ (by omega), hi'.front _ (by omega)]
  · -- the slot is the superblock, and its address is in the volume name
    have hvolume {nblocks : ℕ} (hi : ImageHolds sbi bhDevt disk nblocks blocks
        (sbi.image bhDevt disk nblocks blocks)) :
        slice (sbi.image bhDevt disk nblocks blocks) (1024 + 64) 16 = sbi.volumeName := by
      obtain ⟨checksum, -, hdec⟩ := hi.superBlock
      have hname : (imageSb sbi blocks checksum).volumeName = sbi.volumeName := by
        unfold imageSb
        split <;> rfl
      exact (congrArg SuperBlock.volumeName hdec).trans hname
    have hsame := (hvolume hi).trans (hvolume hi').symm
    have hget := congrArg (fun bs => bs[4 + k]?) hsame
    simp only [getElem?_slice_of_lt _ _ _ (show 4 + k < 16 by omega), Option.some.injEq] at hget
    have hat : 8 * 128 + 68 + k = 1024 + 64 + (4 + k) := by omega
    rw [hat]
    exact hget
  · rw [hi.below (by omega) (fun hne => by have := hlt hne; omega),
      hi'.below (by omega) (fun hne => by have := hlt hne; omega)]

/-- The table is found, whatever the addresses of the devices are, exactly if its slot number fits
the superblock. -/
theorem slotsRead_iff (h : sbi.Reachable maxBlkszbits bhDevt) (disk : Mem) {blocks : ℕ}
    (hb : blocks < 2 ^ 32) :
    (∀ nblocks < 2 ^ 32, slotsRead sbi (sbi.image bhDevt disk nblocks blocks) =
      deviceSlots nblocks sbi.devs) ↔
      (sbi.devs ≠ [] → bhDevt / erofsDevtSlotSize < 2 ^ 16) := by
  have hslot16 := h.devtSlotoff
  constructor
  · intro hread hne
    by_contra hge
    have hmul := Nat.div_mul_le_self bhDevt erofsDevtSlotSize
    have hsize : erofsDevtSlotSize = 128 := rfl
    rw [hsize] at hmul hge
    have hfirst (nblocks : ℕ) (hn : nblocks < 2 ^ 32) :
        (DeviceSlot.decode (sbi.image bhDevt disk nblocks blocks)
          (sbi.devtSlotoff * erofsDevtSlotSize)).mappedBlkaddr = nblocks := by
      have hslots := hread nblocks hn
      unfold slotsRead at hslots
      cases hdevs : sbi.devs with
      | nil => exact absurd hdevs hne
      | cons d ds =>
        rw [hdevs, List.length_cons, List.range_succ_eq_map, List.map_cons, deviceSlots] at hslots
        have hhead := (List.cons.inj hslots).1
        rw [Nat.zero_mul, Nat.add_zero] at hhead
        rw [hhead]
    have hsame := @mappedBlkaddr_same sbi maxBlkszbits bhDevt h disk 0 1 blocks hb sbi.devtSlotoff
      (fun _ => by rw [hsize]; omega)
    rw [hfirst 0 (by decide), hfirst 1 (by decide)] at hsame
    cases hsame
  · intro hfits nblocks hn
    have hi := image_holds h disk nblocks hb
    unfold slotsRead
    by_cases hdevs : sbi.devs = []
    · rw [hdevs]
      rfl
    · have hpos : sbi.devtSlotoff * erofsDevtSlotSize = bhDevt := by
        rw [h.devtSlotoff_eq hdevs, u16_of_lt (hfits hdevs)]
        exact Nat.div_mul_cancel h.devtAligned
      have hslots := readSlots (deviceSlots_fits hn h.devs) (hi.slots h)
      rw [deviceSlots_length] at hslots
      rw [hpos]
      exact hslots

/-! ### Reading -/

theorem features_known {n : ℕ} (h : n ≤ allFeatureIncompat) :
    n &&& (2 ^ 32 - 1 - allFeatureIncompat) = 0 := by
  have hall : ∀ m, m < 128 → m &&& (2 ^ 32 - 1 - allFeatureIncompat) = 0 := by decide
  have hle : n ≤ 127 := h
  exact hall n (by omega)

/-- The size check: it refuses blocks of 1024 bytes, and no others. -/
theorem sbSize_check {b : ℕ} (h9 : 9 ≤ b) (h30 : b ≤ 30) :
    u32 (2 ^ b + 2 ^ 32 - erofsSuperOffset) < 128 ↔ b = 10 := by
  have hoff : erofsSuperOffset = 1024 := rfl
  have hmax : 2 ^ b ≤ 2 ^ 30 := blksz_le h30
  unfold u32
  rw [hoff]
  constructor
  · intro hlt
    by_contra hne
    have hcases : b = 9 ∨ 11 ≤ b := by omega
    rcases hcases with rfl | hbig
    · exact absurd hlt (by decide)
    · have hmin : 2 ^ 11 ≤ 2 ^ b := blksz_le hbig
      omega
  · rintro rfl
    decide

theorem imageSb_fields (sbi : MkfsSb) (blocks checksum : ℕ) :
    ∃ fc, imageSb sbi blocks checksum = { sbi.superBlock blocks with
        featureCompat := fc
        checksum := (imageSb sbi blocks checksum).checksum } ∧
      fc = if sbi.hasSbChksum ∧ 11 ≤ sbi.blkszbits then
        sbi.featureCompat - sbi.featureCompat % 2 + 1
        else sbi.featureCompat - sbi.featureCompat % 2 := by
  refine ⟨_, ?_, rfl⟩
  unfold imageSb
  split
  · rw [← even_or_one]
    rfl
  · rfl

/-- The feature bits are recovered if the checksum was enabled where it should be. -/
theorem features_recovered (sbi : MkfsSb) (h9 : 9 ≤ sbi.blkszbits) (h10 : sbi.blkszbits ≠ 10) :
    (if sbi.hasSbChksum ∧ 11 ≤ sbi.blkszbits then sbi.featureCompat - sbi.featureCompat % 2 + 1
      else sbi.featureCompat - sbi.featureCompat % 2) = sbi.featureCompat ↔
      (sbi.blkszbits = 9 → sbi.hasSbChksum = false) := by
  have hbit : sbi.hasSbChksum = decide (sbi.featureCompat % 2 = 1) := by
    unfold MkfsSb.hasSbChksum
    rw [Nat.testBit_zero]
  have hodd : sbi.hasSbChksum = true ↔ sbi.featureCompat % 2 = 1 := by
    rw [hbit, decide_eq_true_eq]
  have hfalse : sbi.hasSbChksum = false ↔ ¬sbi.featureCompat % 2 = 1 := by
    rw [hbit, decide_eq_false_iff_not]
  rw [hfalse]
  split
  · next hc =>
    have := hodd.1 hc.1
    omega
  · next hc =>
    have hno : sbi.featureCompat % 2 = 1 → sbi.blkszbits = 9 := by
      intro h1
      by_contra hne
      exact hc ⟨hodd.2 h1, by omega⟩
    constructor
    · intro heq _ h1
      omega
    · intro hb
      by_cases h1 : sbi.featureCompat % 2 = 1
      · exact absurd h1 (hb (hno h1))
      · omega

end Parts

theorem readSuperblock_recovered_iff {sbi : MkfsSb} {maxBlkszbits bhDevt : ℕ}
    (h : sbi.Reachable maxBlkszbits bhDevt) {pread : ℕ → ℕ → ℕ → Except Errno (List UInt8)}
    {file : Mem} {size : ℕ} (hp : PackedReads sbi pread file size) (disk : Mem)
    {nblocks blocks : ℕ} (hb : blocks < 2 ^ 32) :
    (∃ r, erofsReadSuperblock ⟨sbi.image bhDevt disk nblocks blocks, maxBlkszbits, pread⟩ 0 = .ok r ∧
      sbi.Recovered nblocks blocks r) ↔
      (sbi.blkszbits ≠ 10 ∧ (sbi.blkszbits = 9 → sbi.hasSbChksum = false)) ∧
        slotsRead sbi (sbi.image bhDevt disk nblocks blocks) = deviceSlots nblocks sbi.devs := by
  have hi := image_holds h disk nblocks hb
  obtain ⟨checksum, hc, hdec⟩ := hi.superBlock
  have hcfgs := hi.cfgs h
  obtain ⟨fc, hsb, hfc⟩ := imageSb_fields sbi blocks checksum
  rw [hsb] at hdec
  have hbits := h.blkszbits
  have hmax := h.max
  have hcheck := sbSize_check hbits.1 (hbits.2.trans hmax)
  -- what the reader makes of the parts
  have hparse : ∃ c : ℕ × ℕ × ℕ,
      zErofsParseCfgs ⟨sbi.image bhDevt disk nblocks blocks, maxBlkszbits, pread⟩
        (SuperBlock.decode (sbi.image bhDevt disk nblocks blocks) erofsSuperOffset) 128 = .ok c ∧
      (sbi.hasComprCfgs = true → c.1 = sbi.availableComprAlgs) := by
    rw [hdec]
    unfold zErofsParseCfgs
    change ∃ c : ℕ × ℕ × ℕ, (if ¬sbi.hasComprCfgs = true then _ else
      if 16 ≤ (if sbi.hasComprCfgs then sbi.availableComprAlgs else sbi.compr.lz4MaxDistance)
      then _ else Except.map _ (parseCfgsLoop _ sbi.blkszbits
        (if sbi.hasComprCfgs then sbi.availableComprAlgs else sbi.compr.lz4MaxDistance) 16
        (if sbi.hasComprCfgs then sbi.availableComprAlgs else sbi.compr.lz4MaxDistance) 0
        erofsSuperEnd (0, 0))) = _ ∧ _
    by_cases hon : sbi.hasComprCfgs = true
    · have halgs := h.algs
      rw [if_neg (by simpa using hon)]
      simp only [hon, if_true]
      rw [if_neg (by omega)]
      have hrec := hcfgs hon
      rw [comprCfgs_eq] at hrec
      obtain ⟨lz4, hlz4⟩ := @parseCfgsLoop_ok sbi
        ⟨sbi.image bhDevt disk nblocks blocks, maxBlkszbits, pread⟩ sbi.blkszbits sbi.availableComprAlgs
        4 16 0 erofsSuperEnd (0, 0) rfl (by decide) halgs (by decide) hrec
      rw [pow_zero, Nat.div_one] at hlz4
      rw [hlz4]
      refine ⟨_, rfl, fun _ => ?_⟩
      change (if sbi.hasComprCfgs then sbi.availableComprAlgs else sbi.compr.lz4MaxDistance) = _
      rw [if_pos hon]
    · rw [if_pos hon]
      exact ⟨_, rfl, fun hno => absurd hno hon⟩
  have hdevs : erofsInitDevices ⟨sbi.image bhDevt disk nblocks blocks, maxBlkszbits, pread⟩
      (SuperBlock.decode (sbi.image bhDevt disk nblocks blocks) erofsSuperOffset) 0 =
      .ok (slotsRead sbi (sbi.image bhDevt disk nblocks blocks)) := by
    rw [hdec]
    unfold erofsInitDevices
    have hcount : (if ¬sbi.hasDeviceTable = true then 0 else sbi.devs.length) =
        sbi.devs.length := by
      by_cases hon : sbi.hasDeviceTable = true
      · rw [if_neg (by simpa using hon)]
      · rw [if_pos hon, h.devTable (by simpa using hon)]
        rfl
    change (if _ then _ else Except.ok ((List.range
      (if ¬sbi.hasDeviceTable = true then 0 else sbi.devs.length)).map _)) = _
    rw [if_neg (fun hno => hno.1 rfl), hcount]
    rfl
  have hprefixes : erofsXattrPrefixesInit ⟨sbi.image bhDevt disk nblocks blocks, maxBlkszbits, pread⟩
      (SuperBlock.decode (sbi.image bhDevt disk nblocks blocks) erofsSuperOffset) =
      .ok (sbi.xattrPrefixes.map fun p => p.1 :: p.2) := by
    rw [hdec]
    exact prefixesLoop_ok sbi.xattrPrefixes h.prefixNid h.prefixLen
      (roundUp_of_dvd (by decide) (Nat.dvd_mul_left 4 _)) hp.read hp.size
  obtain ⟨c, hparse, halgs⟩ := hparse
  have hroot : u16 sbi.rootNid = sbi.rootNid := u16_of_lt h.rootNid
  have hknown := features_known h.featureIncompat
  unfold erofsReadSuperblock
  simp only
  generalize SuperBlock.decode (sbi.image bhDevt disk nblocks blocks) erofsSuperOffset = sb at *
  have hmagic : sb.magic = erofsSuperMagicV1 := by rw [hdec]; rfl
  have hblk : sb.blkszbits = sbi.blkszbits := by rw [hdec]; rfl
  have hinc : sb.featureIncompat = sbi.featureIncompat := by rw [hdec]; rfl
  have hext : sb.sbExtslots = 0 := by rw [hdec]; rfl
  rw [hmagic, hblk, hinc, hext, if_neg (fun hno => hno rfl), if_neg (by omega),
    if_neg (fun hno => hno hknown)]
  by_cases h10 : sbi.blkszbits = 10
  · -- the superblock is taken for too large
    rw [if_pos (hcheck.2 h10)]
    apply iff_of_false
    · rintro ⟨r, hr, -⟩
      cases hr
    · exact fun hno => hno.1.1 h10
  rw [if_neg (fun hno => h10 (hcheck.1 hno)), hparse]
  simp only
  rw [hdevs]
  simp only
  rw [hprefixes]
  simp only
  rw [← features_recovered sbi hbits.1 h10, ← hfc]
  constructor
  · rintro ⟨r, hr, hrec⟩
    cases hr
    refine ⟨⟨h10, ?_⟩, hrec.devs⟩
    rw [← hrec.featureCompat]
    simp only
    rw [hdec]
  · rintro ⟨⟨-, hfeat⟩, hslots⟩
    refine ⟨_, rfl, ?_⟩
    rw [hdec]
    exact {
      blkszbits := rfl
      featureCompat := hfeat
      featureIncompat := rfl
      blocks := rfl
      total := by
        change blocks + ((slotsRead sbi (sbi.image bhDevt disk nblocks blocks)).map
          DeviceSlot.blocks).sum = blocks + _
        rw [hslots, deviceSlots_blocks]
      metaBlkaddr := rfl
      xattrBlkaddr := rfl
      rootNid := hroot
      packedNid := rfl
      inos := rfl
      buildTime := rfl
      buildTimeNsec := rfl
      uuid := rfl
      algs := halgs
      devs := hslots
      prefixes := rfl }

/-- The superblock that `mkfs` writes is accepted and everything in it recovered, whatever the number
of blocks in front of the devices is, exactly if the block size is not 1024, the checksum feature is
off or the block size is not 512, and the slot number of the device table fits the superblock. -/
theorem superblock_roundTrip_iff {sbi : MkfsSb} {maxBlkszbits bhDevt : ℕ}
    (h : sbi.Reachable maxBlkszbits bhDevt) {pread : ℕ → ℕ → ℕ → Except Errno (List UInt8)}
    {file : Mem} {size : ℕ} (hp : PackedReads sbi pread file size) (disk : Mem) {blocks : ℕ}
    (hb : blocks < 2 ^ 32) :
    (∀ nblocks < 2 ^ 32,
      ∃ r, erofsReadSuperblock ⟨sbi.image bhDevt disk nblocks blocks, maxBlkszbits, pread⟩ 0 =
          .ok r ∧ sbi.Recovered nblocks blocks r) ↔
      (sbi.blkszbits ≠ 10 ∧ (sbi.blkszbits = 9 → sbi.hasSbChksum = false)) ∧
        (sbi.devs ≠ [] → bhDevt / erofsDevtSlotSize < 2 ^ 16) := by
  simp only [readSuperblock_recovered_iff h hp disk hb]
  rw [← slotsRead_iff h disk hb]
  constructor
  · intro hall
    exact ⟨(hall 0 (by decide)).1, fun nblocks hn => (hall nblocks hn).2⟩
  · rintro ⟨hcond, hslots⟩ nblocks hn
    exact ⟨hcond, hslots nblocks hn⟩

/-- A file system without compression, devices or prefixes. -/
def plainSb (blkszbits featureCompat : ℕ) : MkfsSb where
  blkszbits := blkszbits
  featureCompat := featureCompat
  featureIncompat := 0
  rootNid := 36
  inos := 1
  buildTime := 0
  buildTimeNsec := 0
  metaBlkaddr := 0
  xattrBlkaddr := 0
  xattrPrefixStart := 0
  xattrPrefixes := []
  packedNid := 0
  uuid := zeroPad 16
  volumeName := zeroPad 16
  availableComprAlgs := 0
  compr := ⟨0, 0, fun _ => 0⟩
  devs := []
  devtSlotoff := 0

theorem plainSb_reachable {b fc : ℕ} (hb : 9 ≤ b ∧ b ≤ 12) (hfc : fc < 2 ^ 32) :
    (plainSb b fc).Reachable 12 0 where
  blkszbits := hb
  max := by decide
  featureCompat := hfc
  featureIncompat := Nat.zero_le _
  rootNid := (by decide : 36 < 2 ^ 16)
  inos := (by decide : 1 < 2 ^ 64)
  buildTime := (by decide : 0 < 2 ^ 64)
  buildTimeNsec := (by decide : 0 < 2 ^ 32)
  metaBlkaddr := (by decide : 0 < 2 ^ 32)
  xattrBlkaddr := (by decide : 0 < 2 ^ 32)
  packedNid := (by decide : 0 < 2 ^ 64)
  uuid := length_zeroPad 16
  volumeName := length_zeroPad 16
  algs := (by decide : 0 < 16)
  lz4 := (by decide : 0 < 2 ^ 16)
  prefixStart := (by decide : 0 < 2 ^ 32)
  prefixCount := (by decide : 0 < 2 ^ 8)
  prefixLen := fun _ hp => absurd hp List.not_mem_nil
  prefixNid := fun hne => absurd rfl hne
  devs := fun _ hd => absurd hd List.not_mem_nil
  devCount := (by decide : 0 < 2 ^ 16)
  devTable := fun _ => rfl
  devtSlotoff := (by decide : 0 < 2 ^ 16)
  devtSlotoff_eq := fun hne => absurd rfl hne
  devtAligned := dvd_zero _
  devtPos := fun hne => absurd rfl hne

def zeroPread (_ _ n : ℕ) : Except Errno (List UInt8) := .ok (slice (fun _ => 0) 0 n)

/-- A file system with two algorithms, a checksum, two extra devices and a name prefix. -/
def twoDeviceSb : MkfsSb :=
  let sbi := { plainSb 12 3 with
    featureIncompat := 3
    xattrPrefixStart := 2
    xattrPrefixes := [(1, [115, 58])]
    packedNid := 40
    availableComprAlgs := 5
    compr := ⟨65535, 65536, fun _ => 32768⟩ }
  { sbi.erofsMkfsInitDevices 4096 2 with devs := [⟨zeroPad 64, 8, 0⟩, ⟨zeroPad 64, 5, 0⟩] }

theorem twoDeviceSb_reachable : twoDeviceSb.Reachable 12 4096 where
  blkszbits := (by decide : 9 ≤ 12 ∧ 12 ≤ 12)
  max := by decide
  featureCompat := (by decide : 3 < 2 ^ 32)
  featureIncompat := by decide
  rootNid := (by decide : 36 < 2 ^ 16)
  inos := (by decide : 1 < 2 ^ 64)
  buildTime := (by decide : 0 < 2 ^ 64)
  buildTimeNsec := (by decide : 0 < 2 ^ 32)
  metaBlkaddr := (by decide : 0 < 2 ^ 32)
  xattrBlkaddr := (by decide : 0 < 2 ^ 32)
  packedNid := (by decide : 40 < 2 ^ 64)
  uuid := length_zeroPad 16
  volumeName := length_zeroPad 16
  algs := (by decide : 5 < 16)
  lz4 := (by decide : 65535 < 2 ^ 16)
  prefixStart := (by decide : 2 < 2 ^ 32)
  prefixCount := (by decide : 1 < 2 ^ 8)
  prefixLen := by decide
  prefixNid := fun _ => (by decide : 40 ≠ 0)
  devs := by decide
  devCount := (by decide : 2 < 2 ^ 16)
  devTable := fun h => absurd h (by decide)
  devtSlotoff := by decide
  devtSlotoff_eq := fun _ => rfl
  devtAligned := by decide
  devtPos := fun _ => by decide

def twoDevicePread (_ off n : ℕ) : Except Errno (List UInt8) :=
  .ok (slice (erofsXattrWriteNamePrefixes (fun _ => 0) 8 [(1, [115, 58])]) off n)

theorem twoDeviceSb_packed : PackedReads twoDeviceSb twoDevicePread (fun _ => 0) 16 :=
  ⟨fun _ _ _ => rfl, by decide⟩

theorem superblock_roundTrip_iff_twoDevices :
    ∃ r, erofsReadSuperblock
        ⟨twoDeviceSb.image 4096 (fun _ => 0) 100 16, 12, twoDevicePread⟩ 0 = .ok r ∧
      twoDeviceSb.Recovered 100 16 r :=
  (superblock_roundTrip_iff twoDeviceSb_reachable twoDeviceSb_packed (fun _ => 0) (by decide)).mpr
    (by decide) 100 (by decide)

/-- With blocks of 1024 bytes, which `mkfs` accepts, the superblock is refused. -/
theorem superblock_refused_1024 : (plainSb 10 2).Reachable 12 0 ∧
    ¬∃ r, erofsReadSuperblock ⟨(plainSb 10 2).image 0 (fun _ => 0) 0 16, 12, zeroPread⟩ 0 = .ok r ∧
      (plainSb 10 2).Recovered 0 16 r := by
  refine ⟨plainSb_reachable (by decide) (by decide), ?_⟩
  rintro ⟨r, hr, -⟩
  have hno : (match erofsReadSuperblock
      ⟨(plainSb 10 2).image 0 (fun _ => 0) 0 16, 12, zeroPread⟩ 0 with
      | .ok _ => false
      | .error _ => true) = true := by decide +kernel
  rw [hr] at hno
  cases hno

end ErofsUtils
