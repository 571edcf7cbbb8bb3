import ErofsUtils.Superblock

/-!
# Reading back what the superblock area holds

The superblock, a device slot and a record of metadata are read back from a device that holds
their bytes.
-/

namespace ErofsUtils
open ByteMemory CString

@[simp] theorem length_zeroPad (n : ℕ) : (zeroPad n).length = n := List.length_replicate

/-- A superblock none of whose fields exceeds its on-disk width. -/
structure SuperBlock.Fits (sb : SuperBlock) : Prop where
  magic : sb.magic < 2 ^ 32
  checksum : sb.checksum < 2 ^ 32
  featureCompat : sb.featureCompat < 2 ^ 32
  blkszbits : sb.blkszbits < 2 ^ 8
  sbExtslots : sb.sbExtslots < 2 ^ 8
  rootNid : sb.rootNid < 2 ^ 16
  inos : sb.inos < 2 ^ 64
  buildTime : sb.buildTime < 2 ^ 64
  buildTimeNsec : sb.buildTimeNsec < 2 ^ 32
  blocks : sb.blocks < 2 ^ 32
  metaBlkaddr : sb.metaBlkaddr < 2 ^ 32
  xattrBlkaddr : sb.xattrBlkaddr < 2 ^ 32
  uuid : sb.uuid.length = 16
  volumeName : sb.volumeName.length = 16
  featureIncompat : sb.featureIncompat < 2 ^ 32
  u1 : sb.u1 < 2 ^ 16
  extraDevices : sb.extraDevices < 2 ^ 16
  devtSlotoff : sb.devtSlotoff < 2 ^ 16
  dirblkbits : sb.dirblkbits < 2 ^ 8
  xattrPrefixCount : sb.xattrPrefixCount < 2 ^ 8
  xattrPrefixStart : sb.xattrPrefixStart < 2 ^ 32
  packedNid : sb.packedNid < 2 ^ 64
  xattrFilterReserved : sb.xattrFilterReserved < 2 ^ 8
  reserved2 : sb.reserved2.length = 23

theorem SuperBlock.Fits.length {sb : SuperBlock} (hf : sb.Fits) : sb.encode.length = 128 := by
  unfold SuperBlock.encode
  simp only [List.length_append, length_leBytes, hf.uuid, hf.volumeName, hf.reserved2]

theorem SuperBlock.decode_of_holds {sb : SuperBlock} (hf : sb.Fits) {mem : Mem} {pos : ℕ}
    (h : Holds mem pos sb.encode) : SuperBlock.decode mem pos = sb := by
  unfold SuperBlock.encode at h
  simp only [holds_append, length_leBytes, hf.uuid, hf.volumeName, Nat.add_assoc,
    Nat.reduceAdd] at h
  obtain ⟨h1, h2, h3, h4, h5, h6, h7, h8, h9, h10, h11, h12, h13, h14, h15, h16, h17, h18, h19,
    h20, h21, h22, h23, h24⟩ := h
  unfold SuperBlock.decode
  rw [leNat_of_holds_of_lt h1 hf.magic, leNat_of_holds_of_lt h2 hf.checksum,
    leNat_of_holds_of_lt h3 hf.featureCompat, leNat_of_holds_of_lt h4 hf.blkszbits,
    leNat_of_holds_of_lt h5 hf.sbExtslots, leNat_of_holds_of_lt h6 hf.rootNid,
    leNat_of_holds_of_lt h7 hf.inos, leNat_of_holds_of_lt h8 hf.buildTime,
    leNat_of_holds_of_lt h9 hf.buildTimeNsec, leNat_of_holds_of_lt h10 hf.blocks,
    leNat_of_holds_of_lt h11 hf.metaBlkaddr, leNat_of_holds_of_lt h12 hf.xattrBlkaddr,
    slice_of_holds h13 hf.uuid, slice_of_holds h14 hf.volumeName,
    leNat_of_holds_of_lt h15 hf.featureIncompat, leNat_of_holds_of_lt h16 hf.u1,
    leNat_of_holds_of_lt h17 hf.extraDevices, leNat_of_holds_of_lt h18 hf.devtSlotoff,
    leNat_of_holds_of_lt h19 hf.dirblkbits, leNat_of_holds_of_lt h20 hf.xattrPrefixCount,
    leNat_of_holds_of_lt h21 hf.xattrPrefixStart, leNat_of_holds_of_lt h22 hf.packedNid,
    leNat_of_holds_of_lt h23 hf.xattrFilterReserved, slice_of_holds h24 hf.reserved2]

/-- A device slot none of whose fields exceeds its on-disk width. -/
structure DeviceSlot.Fits (d : DeviceSlot) : Prop where
  tag : d.tag.length = 64
  blocks : d.blocks < 2 ^ 32
  mappedBlkaddr : d.mappedBlkaddr < 2 ^ 32

theorem DeviceSlot.Fits.length {d : DeviceSlot} (hf : d.Fits) :
    d.encode.length = erofsDevtSlotSize := by
  unfold DeviceSlot.encode
  simp only [List.length_append, length_leBytes, length_zeroPad, hf.tag]
  rfl

theorem DeviceSlot.decode_of_holds {d : DeviceSlot} (hf : d.Fits) {mem : Mem} {pos : ℕ}
    (h : Holds mem pos d.encode) : DeviceSlot.decode mem pos = d := by
  unfold DeviceSlot.encode at h
  simp only [holds_append, length_leBytes, hf.tag, Nat.add_assoc, Nat.reduceAdd] at h
  obtain ⟨h1, h2, h3, -⟩ := h
  unfold DeviceSlot.decode
  rw [slice_of_holds h1 hf.tag, leNat_of_holds_of_lt h2 hf.blocks,
    leNat_of_holds_of_lt h3 hf.mappedBlkaddr]

/-! ## Records of metadata -/

theorem readMetadataLoop_eq (disk : Mem) (blkszbits : ℕ) {fuel offset left : ℕ}
    (h : left ≤ fuel) : readMetadataLoop disk blkszbits fuel offset left =
      slice disk offset left := by
  induction fuel generalizing offset left with
  | zero =>
    have h0 : left = 0 := by omega
    rw [h0]
    rfl
  | succ fuel ih =>
    unfold readMetadataLoop
    by_cases h0 : left = 0
    · rw [if_pos h0, h0]
      rfl
    rw [if_neg h0]
    simp only
    have hmod := Nat.mod_lt offset (Nat.two_pow_pos blkszbits)
    have hdiv := Nat.div_add_mod offset (2 ^ blkszbits)
    rw [Nat.mul_comm] at hdiv
    have hdata : slice (fun k => disk (offset / 2 ^ blkszbits * 2 ^ blkszbits + k))
        (offset % 2 ^ blkszbits) (min (2 ^ blkszbits - offset % 2 ^ blkszbits) left) =
          slice disk offset (min (2 ^ blkszbits - offset % 2 ^ blkszbits) left) := by
      apply slice_congr
      intro k _
      rw [← Nat.add_assoc, hdiv]
    rw [hdata, ih (by omega), ← slice_add]
    congr 1
    omega

theorem erofsReadMetadataBdi_of_holds {disk : Mem} {blkszbits offset : ℕ} {data : List UInt8}
    (h4 : 4 ∣ offset) (hpos : 0 < data.length) (hlen : data.length < 2 ^ 16)
    (h : Holds disk offset (leBytes 2 data.length ++ data)) :
    erofsReadMetadataBdi disk blkszbits offset = .ok (data, offset + 2 + data.length) := by
  obtain ⟨hsize, hdata⟩ := holds_append.1 h
  rw [length_leBytes] at hdata
  have hdiv := Nat.div_add_mod offset (2 ^ blkszbits)
  rw [Nat.mul_comm] at hdiv
  have hread : leNat (fun k => disk (offset / 2 ^ blkszbits * 2 ^ blkszbits + k))
      (offset % 2 ^ blkszbits) 2 = data.length := by
    rw [← leNat_of_holds_of_lt hsize hlen]
    apply leNat_congr
    intro k _
    rw [← Nat.add_assoc, hdiv]
  unfold erofsReadMetadataBdi
  rw [roundUp_of_dvd (by decide) h4]
  simp only
  rw [hread, if_neg (by omega), readMetadataLoop_eq disk blkszbits le_rfl,
    slice_of_holds hdata rfl]

theorem erofsReadMetadataNid_of_holds {pread : ℕ → ℕ → Except Errno (List UInt8)} {file : Mem}
    {size pos offset : ℕ} {data : List UInt8}
    (hread : ∀ off n, off + n ≤ size → pread off n = .ok (slice file off n))
    (h4 : roundUp pos 4 = offset) (hpos : 0 < data.length) (hlen : data.length < 2 ^ 16)
    (hsize : offset + 2 + data.length ≤ size)
    (h : Holds file offset (leBytes 2 data.length ++ data)) :
    erofsReadMetadataNid pread pos = .ok (data, offset + 2 + data.length) := by
  obtain ⟨hword, hdata⟩ := holds_append.1 h
  rw [length_leBytes] at hdata
  unfold erofsReadMetadataNid
  rw [h4]
  simp only
  rw [hread offset 2 (by omega)]
  simp only
  have hget : leNat (fun k => (slice file offset 2).getD k 0) 0 2 = data.length := by
    rw [← leNat_of_holds_of_lt hword hlen]
    apply leNat_congr
    intro k hk
    rw [Nat.zero_add, List.getD_eq_getElem?_getD, getElem?_slice_of_lt file offset 2 hk,
      Option.getD_some]
  rw [hget, if_neg (by omega), hread (offset + 2) data.length (by omega)]
  simp only
  rw [slice_of_holds hdata rfl]

end ErofsUtils
