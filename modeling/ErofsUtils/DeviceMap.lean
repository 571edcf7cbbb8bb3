import ErofsUtils.RawData
import ErofsUtils.SuperRoundTrip

/-!
# Addresses on extra devices

`erofs_mkfs_dump_blobs` maps the extra devices one after the other behind the primary device, and
`erofs_read_one_data` finds out which of them an address lies on. `erofs_map_dev` subtracts the
start of the device from the address but leaves the device id at zero, so the primary device is
read.
-/

namespace ErofsUtils
open ByteMemory

/-- The device table as a reader keeps it, from the slots that `erofs_mkfs_dump_blobs` wrote at
`bhDevt`. -/
def loadedDevs (sbi : MkfsSb) (bhDevt nblocks : ℕ) (disk : Mem) : List (ℕ × ℕ) :=
  (List.range sbi.devs.length).map fun i =>
    let dis := DeviceSlot.decode (sbi.erofsMkfsDumpBlobs bhDevt nblocks disk)
      (sbi.devtSlotoff * erofsDevtSlotSize + i * erofsDevtSlotSize)
    (dis.mappedBlkaddr, dis.blocks)

/-- The address lies in the range of a device that is mapped. -/
def InDevice (sbi : SbInfo) (dev : ℕ × ℕ) (pa : ℕ) : Prop :=
  dev.1 ≠ 0 ∧ sbi.pos dev.1 ≤ pa ∧ pa < sbi.pos dev.1 + sbi.pos dev.2

instance (sbi : SbInfo) (dev : ℕ × ℕ) (pa : ℕ) : Decidable (InDevice sbi dev pa) :=
  inferInstanceAs (Decidable (_ ∧ _ ∧ _))

def ReadsDevice (env : DataEnv) (vi : DataInode) (map : DataMap) (dev : List UInt8) (pa : ℕ) :
    Prop :=
  ∀ offset len, erofsReadOneData env vi map offset len =
    .ok (fileBytes dev (pa + offset) (pa + offset + len))

/-- The device and the address that `map` stands for are the ones that are read: without a device
id the primary device below all ranges, and the device of a range at its offset in the range; with
a device id this device. -/
structure DeviceResolved (env : DataEnv) (vi : DataInode) (map : DataMap) : Prop where
  below : map.mDeviceid = 0 →
    (∀ dev ∈ env.devs, dev.1 ≠ 0 → dev.2 ≠ 0 → map.mPa < vi.sbi.pos dev.1) →
      ReadsDevice env vi map env.primary map.mPa
  mapped : map.mDeviceid = 0 → ∀ (i : ℕ) (dev : ℕ × ℕ) (blob : List UInt8),
    env.devs[i]? = some dev → InDevice vi.sbi dev map.mPa → env.blobs[i]? = some blob →
      ReadsDevice env vi map blob (map.mPa - vi.sbi.pos dev.1)
  given : ∀ (i : ℕ) (blob : List UInt8), map.mDeviceid = i + 1 → i < env.devs.length →
    env.blobs[i]? = some blob → ReadsDevice env vi map blob map.mPa

section Table

/-- The reader has the ranges that the writer computed. -/
theorem loadedDevs_eq (sbi : MkfsSb) {bhDevt nblocks : ℕ}
    (hpos : sbi.devtSlotoff * erofsDevtSlotSize = bhDevt) (hn : nblocks < 2 ^ 32) (disk : Mem)
    (hdevs : ∀ d ∈ sbi.devs, d.tag.length = 64 ∧ d.blocks < 2 ^ 32) :
    loadedDevs sbi bhDevt nblocks disk =
      (deviceSlots nblocks sbi.devs).map fun d => (d.mappedBlkaddr, d.blocks) := by
  have hread := @readSlots (sbi.erofsMkfsDumpBlobs bhDevt nblocks disk)
    bhDevt _ (deviceSlots_fits hn hdevs) (holds_store _ _ _)
  rw [deviceSlots_length] at hread
  rw [loadedDevs, hpos, ← hread, List.map_map]
  rfl

end Table

section Resolve

variable {sbi : SbInfo} {pa : ℕ}

theorem erofsMapDev_cons (dev : ℕ × ℕ) (devs : List (ℕ × ℕ)) :
    erofsMapDev sbi (dev :: devs) pa =
      if InDevice sbi dev pa then pa - sbi.pos dev.1 else erofsMapDev sbi devs pa := by
  rw [erofsMapDev]
  rfl

theorem erofsMapDev_of_notIn {devs : List (ℕ × ℕ)} (h : ∀ dev ∈ devs, ¬ InDevice sbi dev pa) :
    erofsMapDev sbi devs pa = pa := by
  induction devs with
  | nil => rfl
  | cons dev devs ih =>
    rw [List.forall_mem_cons] at h
    rw [erofsMapDev_cons, if_neg h.1, ih h.2]

/-- The first device whose range the address lies in is subtracted. -/
theorem erofsMapDev_of_in {devs : List (ℕ × ℕ)} (h : ∃ dev ∈ devs, InDevice sbi dev pa) :
    ∃ (i : ℕ) (dev : ℕ × ℕ), devs[i]? = some dev ∧ InDevice sbi dev pa ∧
      erofsMapDev sbi devs pa = pa - sbi.pos dev.1 := by
  induction devs with
  | nil => simp at h
  | cons dev devs ih =>
    by_cases hin : InDevice sbi dev pa
    · refine ⟨0, dev, rfl, hin, ?_⟩
      rw [erofsMapDev_cons, if_pos hin]
    · obtain ⟨d, hd, hind⟩ := h
      have hrest : ∃ d ∈ devs, InDevice sbi d pa := by
        rcases List.mem_cons.mp hd with rfl | hd
        · exact absurd hind hin
        · exact ⟨d, hd, hind⟩
      obtain ⟨i, d, hi, hind, hmap⟩ := ih hrest
      refine ⟨i + 1, d, hi, hind, ?_⟩
      rw [erofsMapDev_cons, if_neg hin, hmap]

variable {env : DataEnv} {vi : DataInode} {map : DataMap}

theorem readsDevice_primary (hid : map.mDeviceid = 0) :
    ReadsDevice env vi map env.primary (erofsMapDev vi.sbi env.devs map.mPa) := by
  intro offset len
  rw [erofsReadOneData, erofsMapDevId, hid, if_neg (not_not.mpr rfl)]
  rfl

theorem readsDevice_given {i : ℕ} {blob : List UInt8} (hid : map.mDeviceid = i + 1)
    (hi : i < env.devs.length) (hblob : env.blobs[i]? = some blob) :
    ReadsDevice env vi map blob map.mPa := by
  intro offset len
  rw [erofsReadOneData, erofsMapDevId, hid, if_pos (Nat.succ_ne_zero i), if_neg (by omega)]
  simp only [DataEnv.devRead, List.getElem?_cons_succ, hblob]

def onesEnv (devs : List (ℕ × ℕ)) (size : ℕ) : DataEnv where
  devs := devs
  deviceIdMask := 0
  primary := List.replicate size 1
  blobs := List.replicate devs.length []
  decoder := fun _ _ => .error .eio
  packedPread := fun _ _ => .error .eio

/-- In the range of a device the primary device is read instead of it. -/
theorem not_deviceResolved {devs : List (ℕ × ℕ)} (hid : map.mDeviceid = 0)
    (hin : ∃ dev ∈ devs, InDevice vi.sbi dev map.mPa) :
    ¬ DeviceResolved (onesEnv devs (map.mPa + 1)) vi map := by
  intro h
  obtain ⟨i, dev, hi, hind, hmap⟩ := erofsMapDev_of_in hin
  have hlt : i < devs.length := (List.getElem?_eq_some_iff.mp hi).1
  have hblob : (onesEnv devs (map.mPa + 1)).blobs[i]? = some [] := by
    rw [onesEnv, List.getElem?_replicate, if_pos hlt]
  have hwant := h.mapped hid i dev [] hi hind hblob 0 1
  have hhave := @readsDevice_primary (onesEnv devs (map.mPa + 1)) vi map hid 0 1
  rw [hwant] at hhave
  have hbyte := congrArg (·[0]?) (Except.ok.inj hhave)
  rw [getElem?_fileBytes (by omega), getElem?_fileBytes (by omega), Option.some.injEq] at hbyte
  have hone : (onesEnv devs (map.mPa + 1)).primary = List.replicate (map.mPa + 1) 1 := rfl
  have hdevs : (onesEnv devs (map.mPa + 1)).devs = devs := rfl
  rw [hone, hdevs, hmap, fileByte, fileByte, List.getElem?_nil, List.getElem?_replicate,
    if_pos (by omega)] at hbyte
  exact absurd hbyte (by decide)

/-- The right device is read, whatever the devices hold, exactly if the map has a device id or its
address is in the range of no extra device. -/
theorem deviceResolved_iff (sbi : MkfsSb) (bhDevt nblocks : ℕ) (disk : Mem) (vi : DataInode)
    (map : DataMap) :
    (∀ env : DataEnv, env.devs = loadedDevs sbi bhDevt nblocks disk →
      env.blobs.length = env.devs.length → DeviceResolved env vi map) ↔
      (map.mDeviceid = 0 →
        ∀ dev ∈ loadedDevs sbi bhDevt nblocks disk, ¬ InDevice vi.sbi dev map.mPa) := by
  constructor
  · intro h hid dev hdev hin
    exact not_deviceResolved hid ⟨dev, hdev, hin⟩
      (h (onesEnv _ _) rfl (List.length_replicate ..))
  · rintro h env hdevs -
    constructor
    · intro hid _
      have hread := @readsDevice_primary env vi map hid
      rw [hdevs, erofsMapDev_of_notIn (h hid)] at hread
      exact hread
    · intro hid i dev blob hi hin
      rw [hdevs] at hi
      exact absurd hin (h hid dev (List.mem_of_getElem? hi))
    · intro i blob hid hi hblob
      exact readsDevice_given hid hi hblob

/-- A file system with one extra device of eight blocks. -/
def oneDeviceSb : MkfsSb where
  blkszbits := 12
  featureCompat := 0
  featureIncompat := 8
  rootNid := 0
  inos := 1
  buildTime := 0
  buildTimeNsec := 0
  metaBlkaddr := 0
  xattrBlkaddr := 0
  xattrPrefixStart := 0
  xattrPrefixes := []
  packedNid := 0
  uuid := List.replicate 16 0
  volumeName := List.replicate 16 0
  availableComprAlgs := 0
  compr := ⟨0, 0, fun _ => 0⟩
  devs := [⟨List.replicate 64 0, 8, 0⟩]
  devtSlotoff := 9

def blobInode : DataInode where
  sbi := ⟨12, 5, 0, false⟩
  zInited := false
  nid := 36
  iSize := 4096
  datalayout := .flatPlain
  inodeIsize := 32
  xattrIsize := 0
  zAdvise := ⟨false, false, false, false, false, false⟩
  zAlgorithmtype := 0
  zLogicalClusterbits := 0
  idataSize := 0
  zTailextentHeadlcn := 0
  fragmentoff := 0
  iBlkaddr := 101
  chunkIndexes := false
  chunkbits := 0

/-- The second block of the extra device, which is mapped behind 100 blocks, is read from the primary
device. -/
theorem deviceResolved_primary : ¬ ∀ (sbi : MkfsSb) (bhDevt nblocks : ℕ) (disk : Mem)
    (vi : DataInode) (map : DataMap) (env : DataEnv),
      env.devs = loadedDevs sbi bhDevt nblocks disk →
      env.blobs.length = env.devs.length → DeviceResolved env vi map := by
  intro h
  have htable : loadedDevs oneDeviceSb 1152 100 (fun _ => 0) = [(100, 8)] := by
    rw [loadedDevs_eq oneDeviceSb (by decide) (by decide) _ (by decide)]
    rfl
  have hin : ∃ dev ∈ [(100, 8)], InDevice blobInode.sbi dev (101 * 4096) :=
    ⟨_, List.mem_singleton_self _, by decide⟩
  apply @not_deviceResolved blobInode { mPa := 101 * 4096 } _ rfl hin
  exact h oneDeviceSb 1152 100 (fun _ => 0) _ _ _ htable.symm (List.length_replicate ..)

end Resolve

end ErofsUtils
