import ErofsUtils.SuperChecksum

/-!
# The superblock of an incremental build

An incremental build reads the superblock of its base into `g_sbi` and writes it from there again.
The reader does not load the volume name, and the slot of the device table shares its storage with
`device_id_mask`.
-/

namespace ErofsUtils
open ByteMemory

def roundupPowOfTwo (n : ℕ) : ℕ := if n = 1 then 1 else 2 ^ (Nat.log2 (n - 1) + 1)

namespace MkfsSb

/-- `erofs_read_superblock` into a `struct erofs_sb_info` with its former contents. `devtSlotoff` is
the member of a union whose other one is `device_id_mask`; with no device it is not written. -/
def readSuperblock (sbi : MkfsSb) (env : SbEnv) : Except Errno MkfsSb :=
  (erofsReadSuperblock env sbi.devs.length).map fun r => {
    blkszbits := r.blkszbits
    featureCompat := r.featureCompat
    featureIncompat := r.featureIncompat
    rootNid := r.rootNid
    inos := r.inos
    buildTime := r.buildTime
    buildTimeNsec := r.buildTimeNsec
    metaBlkaddr := r.metaBlkaddr
    xattrBlkaddr := r.xattrBlkaddr
    xattrPrefixStart := (SuperBlock.decode env.disk erofsSuperOffset).xattrPrefixStart
    xattrPrefixes := r.xattrPrefixes.map fun p => (p.headD 0, p.tail)
    packedNid := r.packedNid
    uuid := r.uuid
    volumeName := sbi.volumeName
    availableComprAlgs := r.availableComprAlgs
    compr := { sbi.compr with lz4MaxDistance := r.lz4MaxDistance }
    devs := if r.devs = [] then sbi.devs else r.devs
    devtSlotoff := if r.devs = [] then sbi.devtSlotoff
      else u16 (roundupPowOfTwo (r.devs.length + 1) - 1) }

/-- `g_sbi` before the base is read, with no option that fills in any of these fields. -/
structure Untouched (sbi : MkfsSb) : Prop where
  volumeName : sbi.volumeName = zeroPad 16
  devs : sbi.devs = []
  devtSlotoff : sbi.devtSlotoff = 0

/-- What a build leaves alone between the reader and the writer, unless an option (`-U`, `-L`,
`--blobdev`, `-Efragments`, name prefixes), a tar header with a volume name or new shared xattrs say
otherwise. -/
structure BuildKeeps (sbi sbi' : MkfsSb) : Prop where
  uuid : sbi'.uuid = sbi.uuid
  volumeName : sbi'.volumeName = sbi.volumeName
  packedNid : sbi'.packedNid = sbi.packedNid
  xattrBlkaddr : sbi'.xattrBlkaddr = sbi.xattrBlkaddr
  xattrPrefixStart : sbi'.xattrPrefixStart = sbi.xattrPrefixStart
  devCount : sbi'.devs.length = sbi.devs.length
  devtSlotoff : sbi'.devtSlotoff = sbi.devtSlotoff

theorem BuildKeeps.refl (sbi : MkfsSb) : sbi.BuildKeeps sbi := ⟨rfl, rfl, rfl, rfl, rfl, rfl, rfl⟩

end MkfsSb

namespace SuperBlock

structure Kept (sb sb' : SuperBlock) : Prop where
  uuid : sb'.uuid = sb.uuid
  volumeName : sb'.volumeName = sb.volumeName
  packedNid : sb'.packedNid = sb.packedNid
  xattrBlkaddr : sb'.xattrBlkaddr = sb.xattrBlkaddr
  xattrPrefixStart : sb'.xattrPrefixStart = sb.xattrPrefixStart
  extraDevices : sb'.extraDevices = sb.extraDevices
  devtSlotoff : sb'.devtSlotoff = sb.devtSlotoff

def ondiskExtradevs (sb : SuperBlock) : ℕ := if ¬sb.featureIncompat.testBit 3 then 0 else sb.extraDevices

/-- What the base has anyway: no volume name, and the slot that the union happens to hold. -/
structure Rewritable (sb : SuperBlock) : Prop where
  volumeName : sb.volumeName = zeroPad 16
  extraDevices : sb.extraDevices = sb.ondiskExtradevs
  devtSlotoff : sb.devtSlotoff =
    if sb.ondiskExtradevs = 0 then 0 else u16 (roundupPowOfTwo (sb.ondiskExtradevs + 1) - 1)

end SuperBlock

theorem erofsReadSuperblock_ok {env : SbEnv} {s : ReadSb} (h : erofsReadSuperblock env 0 = .ok s) :
    s.uuid = (SuperBlock.decode env.disk erofsSuperOffset).uuid ∧
      s.packedNid = (SuperBlock.decode env.disk erofsSuperOffset).packedNid ∧
      s.xattrBlkaddr = (SuperBlock.decode env.disk erofsSuperOffset).xattrBlkaddr ∧
      s.devs.length = (SuperBlock.decode env.disk erofsSuperOffset).ondiskExtradevs := by
  unfold erofsReadSuperblock at h
  simp only at h
  generalize SuperBlock.decode env.disk erofsSuperOffset = dsb at h ⊢
  split_ifs at h
  cases hcfgs : zErofsParseCfgs env dsb (128 + dsb.sbExtslots * 16) with
  | error e => simp only [hcfgs, reduceCtorEq] at h
  | ok cfgs =>
    cases hdevs : erofsInitDevices env dsb 0 with
    | error e => simp only [hcfgs, hdevs, reduceCtorEq] at h
    | ok devs =>
      cases hprefixes : erofsXattrPrefixesInit env dsb with
      | error e => simp only [hcfgs, hdevs, hprefixes, reduceCtorEq] at h
      | ok prefixes =>
        simp only [hcfgs, hdevs, hprefixes, Except.ok.injEq] at h
        subst h
        unfold erofsInitDevices at hdevs
        simp only [ne_eq, not_true_eq_false, false_and, if_false, Except.ok.injEq] at hdevs
        refine ⟨rfl, rfl, rfl, ?_⟩
        rw [← hdevs, List.length_map, List.length_range]
        rfl

namespace MkfsSb

/-- The fields in question as `g_sbi` has them after the base is read. -/
structure Loaded (dsb : SuperBlock) (r : MkfsSb) : Prop where
  uuid : r.uuid = dsb.uuid
  volumeName : r.volumeName = zeroPad 16
  packedNid : r.packedNid = dsb.packedNid
  xattrBlkaddr : r.xattrBlkaddr = dsb.xattrBlkaddr
  xattrPrefixStart : r.xattrPrefixStart = dsb.xattrPrefixStart
  devCount : r.devs.length = dsb.ondiskExtradevs
  devtSlotoff : r.devtSlotoff = if dsb.ondiskExtradevs = 0 then 0
    else u16 (roundupPowOfTwo (dsb.ondiskExtradevs + 1) - 1)

theorem readSuperblock_loaded {env : SbEnv} {sbi r : MkfsSb} (hsbi : sbi.Untouched)
    (h : sbi.readSuperblock env = .ok r) :
    r.Loaded (SuperBlock.decode env.disk erofsSuperOffset) := by
  unfold readSuperblock at h
  rw [hsbi.devs, hsbi.volumeName, hsbi.devtSlotoff, List.length_nil] at h
  cases hread : erofsReadSuperblock env 0 with
  | error e =>
    rw [hread] at h
    cases h
  | ok s =>
    rw [hread] at h
    cases h
    obtain ⟨huuid, hnid, hxattr, hdevs⟩ := erofsReadSuperblock_ok hread
    have hnil : s.devs = [] ↔ (SuperBlock.decode env.disk erofsSuperOffset).ondiskExtradevs = 0 := by
      rw [← hdevs, List.length_eq_zero_iff]
    exact {
      uuid := huuid
      volumeName := rfl
      packedNid := hnid
      xattrBlkaddr := hxattr
      xattrPrefixStart := rfl
      devCount := by
        change (if s.devs = [] then [] else s.devs).length = _
        by_cases hempty : s.devs = []
        · rw [if_pos hempty, ← hdevs, hempty]
        · rw [if_neg hempty, hdevs]
      devtSlotoff := by
        change (if s.devs = [] then 0 else u16 (roundupPowOfTwo (s.devs.length + 1) - 1)) = _
        rw [hdevs]
        by_cases hempty : s.devs = []
        · rw [if_pos hempty, if_pos (hnil.1 hempty)]
        · rw [if_neg hempty, if_neg fun hzero => hempty (hnil.2 hzero)] }

theorem decode_erofsWritesb (sbi : MkfsSb) (blocks : ℕ) (disk : Mem)
    (hfits : (sbi.superBlock blocks).Fits) :
    SuperBlock.decode (sbi.erofsWritesb blocks disk) erofsSuperOffset = sbi.superBlock blocks := by
  apply SuperBlock.decode_of_holds hfits
  have hst := (holds_append.1 (holds_store disk 0
    (zeroPad erofsSuperOffset ++ (sbi.superBlock blocks).encode))).2
  rw [length_zeroPad, Nat.zero_add] at hst
  exact hst

/-- What is read and written again without being changed is what the base had, but for the volume
name and the slot of the device table. -/
theorem kept_iff_of_loaded {dsb : SuperBlock} {r sbi' : MkfsSb} (hloaded : r.Loaded dsb)
    (hbuild : r.BuildKeeps sbi') (blocks : ℕ) :
    dsb.Kept (sbi'.superBlock blocks) ↔ dsb.Rewritable := by
  have hvolume : (sbi'.superBlock blocks).volumeName = zeroPad 16 :=
    hbuild.volumeName.trans hloaded.volumeName
  have hcount : (sbi'.superBlock blocks).extraDevices = dsb.ondiskExtradevs :=
    hbuild.devCount.trans hloaded.devCount
  have hslot := hbuild.devtSlotoff.trans hloaded.devtSlotoff
  constructor
  · intro h
    exact {
      volumeName := h.volumeName.symm.trans hvolume
      extraDevices := h.extraDevices.symm.trans hcount
      devtSlotoff := h.devtSlotoff.symm.trans hslot }
  · intro h
    exact {
      uuid := hbuild.uuid.trans hloaded.uuid
      volumeName := hvolume.trans h.volumeName.symm
      packedNid := hbuild.packedNid.trans hloaded.packedNid
      xattrBlkaddr := hbuild.xattrBlkaddr.trans hloaded.xattrBlkaddr
      xattrPrefixStart := hbuild.xattrPrefixStart.trans hloaded.xattrPrefixStart
      extraDevices := hcount.trans h.extraDevices.symm
      devtSlotoff := hslot.trans h.devtSlotoff.symm }

end MkfsSb

/-- An incremental build keeps these fields of its base exactly if the base has no volume name, and
for the slot of the device table the value that the reader leaves in its place. -/
theorem superRewrite_exact {env : SbEnv} {sbi r sbi' : MkfsSb} (hsbi : sbi.Untouched)
    (hread : sbi.readSuperblock env = .ok r) (hbuild : r.BuildKeeps sbi') {blocks : ℕ}
    (hfits : (sbi'.superBlock blocks).Fits) (disk : Mem) :
    (SuperBlock.decode env.disk erofsSuperOffset).Kept
        (SuperBlock.decode (sbi'.erofsWritesb blocks disk) erofsSuperOffset) ↔
      (SuperBlock.decode env.disk erofsSuperOffset).Rewritable := by
  rw [MkfsSb.decode_erofsWritesb sbi' blocks disk hfits]
  exact MkfsSb.kept_iff_of_loaded (MkfsSb.readSuperblock_loaded hsbi hread) hbuild blocks

def namedSb (volumeName : List UInt8) : MkfsSb := { plainSb 12 3 with volumeName := volumeName }

theorem namedSb_fits {volumeName : List UInt8} (h : volumeName.length = 16) :
    ((namedSb volumeName).superBlock 1).Fits :=
  { (plainSb_reachable ⟨by decide, by decide⟩ (by decide) : (plainSb 12 3).Reachable 12 0).fits
      (by decide : 1 < 2 ^ 32) with volumeName := h }

def namedBase (volumeName : List UInt8) : SbEnv :=
  ⟨(namedSb volumeName).erofsWritesb 1 fun _ => 0, 12, zeroPread⟩

theorem plainSb_untouched : (plainSb 12 3).Untouched := ⟨rfl, rfl, rfl⟩

theorem plainSb_buildKeeps {volumeName : List UInt8} (h : volumeName.length = 16) {r : MkfsSb}
    (hread : (plainSb 12 3).readSuperblock (namedBase volumeName) = .ok r) :
    r.BuildKeeps (plainSb 12 3) := by
  have hloaded := MkfsSb.readSuperblock_loaded plainSb_untouched hread
  rw [namedBase, MkfsSb.decode_erofsWritesb _ 1 _ (namedSb_fits h)] at hloaded
  have hnone : ((namedSb volumeName).superBlock 1).ondiskExtradevs = 0 := by
    have hfeatures : ((namedSb volumeName).superBlock 1).featureIncompat = 0 := rfl
    rw [SuperBlock.ondiskExtradevs, hfeatures, if_pos (by decide)]
  have hslot := hloaded.devtSlotoff
  rw [if_pos hnone] at hslot
  exact ⟨hloaded.uuid.symm, hloaded.volumeName.symm, hloaded.packedNid.symm,
    hloaded.xattrBlkaddr.symm, hloaded.xattrPrefixStart.symm,
    (hloaded.devCount.trans hnone).symm, hslot.symm⟩

def twoDeviceBase : SbEnv := ⟨twoDeviceSb.image 4096 (fun _ => 0) 100 16, 12, twoDevicePread⟩

def twoDeviceBuild : MkfsSb := { twoDeviceSb with devtSlotoff := 3, inos := 9, rootNid := 40 }

theorem twoDeviceBuild_fits : (twoDeviceBuild.superBlock 20).Fits :=
  { twoDeviceSb_reachable.fits (by decide : 20 < 2 ^ 32) with
    rootNid := (by decide : 40 < 2 ^ 16)
    inos := (by decide : 9 < 2 ^ 64)
    devtSlotoff := (by decide : 3 < 2 ^ 16) }

theorem twoDeviceBuild_keeps {r : MkfsSb}
    (hread : (plainSb 12 3).readSuperblock twoDeviceBase = .ok r) : r.BuildKeeps twoDeviceBuild := by
  have hloaded := MkfsSb.readSuperblock_loaded plainSb_untouched hread
  have himage := image_holds twoDeviceSb_reachable (fun _ => 0) 100 (by decide : 16 < 2 ^ 32)
  obtain ⟨checksum, -, hdecode⟩ := himage.superBlock
  dsimp only [twoDeviceBase] at hloaded
  rw [hdecode] at hloaded
  rw [imageSb, if_pos (by decide)] at hloaded
  have htwo : (twoDeviceSb.superBlock 16).ondiskExtradevs = 2 := by decide +kernel
  have hcount : r.devs.length = (twoDeviceSb.superBlock 16).ondiskExtradevs := hloaded.devCount
  have hslot : r.devtSlotoff = if (twoDeviceSb.superBlock 16).ondiskExtradevs = 0 then 0
      else u16 (roundupPowOfTwo ((twoDeviceSb.superBlock 16).ondiskExtradevs + 1) - 1) :=
    hloaded.devtSlotoff
  rw [htwo] at hcount hslot
  exact ⟨hloaded.uuid.symm, hloaded.volumeName.symm, hloaded.packedNid.symm,
    hloaded.xattrBlkaddr.symm, hloaded.xattrPrefixStart.symm,
    hcount.symm, hslot.symm⟩

theorem superRewrite_exact_twoDevices :
    ∃ r, (plainSb 12 3).readSuperblock twoDeviceBase = .ok r ∧
      ((SuperBlock.decode twoDeviceBase.disk erofsSuperOffset).Kept
        (SuperBlock.decode (twoDeviceBuild.erofsWritesb 20 twoDeviceBase.disk) erofsSuperOffset) ↔
        (SuperBlock.decode twoDeviceBase.disk erofsSuperOffset).Rewritable) := by
  cases hread : (plainSb 12 3).readSuperblock twoDeviceBase with
  | error e =>
    have hok : ((plainSb 12 3).readSuperblock twoDeviceBase).isOk = true := by
      decide +kernel
    rw [hread] at hok
    cases hok
  | ok r =>
    exact ⟨r, rfl, superRewrite_exact plainSb_untouched hread (twoDeviceBuild_keeps hread)
      twoDeviceBuild_fits _⟩

/-- The volume name "base" of the base is gone. -/
theorem superRewrite_name_lost :
    ∃ r, (plainSb 12 3).readSuperblock (namedBase ([98, 97, 115, 101] ++ zeroPad 12)) = .ok r ∧
      r.BuildKeeps (plainSb 12 3) ∧
      ¬ (SuperBlock.decode (namedBase ([98, 97, 115, 101] ++ zeroPad 12)).disk
          erofsSuperOffset).Kept
        (SuperBlock.decode ((plainSb 12 3).erofsWritesb 1
          (namedBase ([98, 97, 115, 101] ++ zeroPad 12)).disk) erofsSuperOffset) := by
  have hlen : ([98, 97, 115, 101] ++ zeroPad 12).length = 16 := rfl
  cases hread : (plainSb 12 3).readSuperblock (namedBase ([98, 97, 115, 101] ++ zeroPad 12)) with
  | error e =>
    have hok : ((plainSb 12 3).readSuperblock
        (namedBase ([98, 97, 115, 101] ++ zeroPad 12))).isOk = true := by decide +kernel
    rw [hread] at hok
    cases hok
  | ok r =>
    refine ⟨r, rfl, plainSb_buildKeeps hlen hread, ?_⟩
    rw [namedBase, MkfsSb.decode_erofsWritesb _ 1 _ (namedSb_fits hlen),
      MkfsSb.decode_erofsWritesb (plainSb 12 3) 1 _ (namedSb_fits (length_zeroPad 16))]
    intro h
    have hname : zeroPad 16 = [98, 97, 115, 101] ++ zeroPad 12 := h.volumeName
    exact absurd hname (by decide)

end ErofsUtils
