import ErofsUtils.ReflectedCrc
import ErofsUtils.SuperRoundTrip

/-!
# The checksum of the superblock

`erofs_enable_sb_chksum` computes the checksum over what it has read, with the old checksum in it,
and writes back the first block. `erofs_check_sb_chksum` clears the field, and takes everything from
the superblock to the end of the first block.
-/

namespace ErofsUtils
open ByteMemory CString

section Crc

theorem crc32c_bit (x : UInt32) :
    ((x >>> 1) ^^^ if x &&& 1 ≠ 0 then 0x82F63B78 else 0 : UInt32).toBitVec =
      ReflectedCrc.shift 0x82F63B78#32 x.toBitVec := by
  have hlow : x &&& 1 ≠ 0 ↔ x.toBitVec.getLsbD 0 = true := by
    have hand : (x &&& 1).toBitVec = BitVec.setWidth 32 (BitVec.ofBool (x.toBitVec.getLsbD 0)) := by
      rw [UInt32.toBitVec_and]
      exact BitVec.and_one_eq_setWidth_ofBool_getLsbD
    rw [Ne, ← UInt32.toBitVec_inj, hand]
    cases x.toBitVec.getLsbD 0 <;> decide
  unfold ReflectedCrc.shift
  rw [UInt32.toBitVec_xor]
  congr 1
  by_cases h : x &&& 1 ≠ 0
  · rw [if_pos h, if_pos (hlow.1 h)]
    rfl
  · rw [if_neg h, if_neg fun hc => h (hlow.2 hc)]
    rfl

theorem crc32c_bits (turns : List ℕ) (x : UInt32) :
    (turns.foldl (fun (crc : UInt32) _ => (crc >>> 1) ^^^ if crc &&& 1 ≠ 0 then 0x82F63B78 else 0)
      x).toBitVec = ReflectedCrc.shifts 0x82F63B78#32 turns.length x.toBitVec := by
  induction turns generalizing x with
  | nil => rfl
  | cons _ turns ih => rw [List.foldl_cons, ih, crc32c_bit, List.length_cons, ReflectedCrc.shifts]

theorem erofsCrc32c_eq (crc : UInt32) (p : List UInt8) :
    (erofsCrc32c crc p).toBitVec = ReflectedCrc.crc 0x82F63B78#32 crc.toBitVec p := by
  unfold erofsCrc32c ReflectedCrc.crc
  induction p generalizing crc with
  | nil => rfl
  | cons b p ih =>
    rw [List.foldl_cons, ih, List.foldl_cons, crc32c_bits, List.length_range, UInt32.toBitVec_xor,
      UInt8.toBitVec_toUInt32, ReflectedCrc.byte]

/-- Four bytes anywhere in the data do not change without changing the checksum. -/
theorem erofsCrc32c_window {crc : UInt32} {front p q back : List UInt8} (hp : p.length = 4)
    (hq : q.length = 4)
    (h : erofsCrc32c crc (front ++ (p ++ back)) = erofsCrc32c crc (front ++ (q ++ back))) :
    p = q := by
  have heq := congrArg UInt32.toBitVec h
  rw [erofsCrc32c_eq, erofsCrc32c_eq] at heq
  exact ReflectedCrc.crc_window _ (by decide) (by omega) (by omega) _ front back heq

end Crc

section Memory

theorem leBytes_leNat (mem : Mem) (pos w : ℕ) :
    leBytes w (leNat mem pos w) = slice mem pos w := by
  induction w generalizing pos with
  | zero => rfl
  | succ w ih =>
    have hb : (mem pos).toNat < 256 := (mem pos).toNat_lt
    have hlow : UInt8.ofNat ((mem pos).toNat + 256 * leNat mem (pos + 1) w) = mem pos := by
      apply UInt8.toNat.inj
      rw [UInt8.toNat_ofNat']
      omega
    rw [leNat, leBytes, hlow, Nat.add_mul_div_left _ _ (by decide), Nat.div_eq_of_lt hb,
      Nat.zero_add, ih, slice]

theorem store_slice {mem mem' : Mem} {pos n : ℕ}
    (h : ∀ k, pos ≤ k → k < pos + n → mem' k = mem k) : store mem pos (slice mem' pos n) = mem := by
  funext k
  by_cases hk : pos ≤ k ∧ k < pos + n
  · rw [store, if_pos hk.1, getElem?_slice_of_lt _ _ _ (by omega), Option.getD_some,
      Nat.add_sub_cancel' hk.1, h k hk.1 hk.2]
  · by_cases hpos : pos ≤ k
    · exact store_of_ge _ (by rw [length_slice]; omega)
    · exact store_of_lt _ (by omega)

theorem store_apply_congr {mem mem' : Mem} {pos k : ℕ} (bs : List UInt8)
    (h : ¬ (pos ≤ k ∧ k < pos + bs.length) → mem k = mem' k) :
    store mem pos bs k = store mem' pos bs k := by
  by_cases hk : pos ≤ k ∧ k < pos + bs.length
  · rw [store, store, if_pos hk.1, if_pos hk.1, List.getElem?_eq_getElem (by omega)]
    rfl
  · rw [store, store, h hk]

theorem store_store {mem : Mem} {pos : ℕ} {xs ys : List UInt8} (h : xs.length = ys.length) :
    store (store mem pos xs) pos ys = store mem pos ys := by
  funext k
  apply store_apply_congr
  intro hk
  by_cases hlt : k < pos
  · exact store_of_lt _ hlt
  · exact store_of_ge _ (by omega)

theorem store_comm (mem : Mem) {pos pos' : ℕ} {xs ys : List UInt8} (h : pos + xs.length ≤ pos') :
    store (store mem pos xs) pos' ys = store (store mem pos' ys) pos xs := by
  funext k
  by_cases hk : pos' ≤ k
  · rw [@store_of_ge (store mem pos' ys) pos k xs (by omega)]
    exact store_apply_congr ys fun _ => store_of_ge _ (by omega)
  · rw [@store_of_lt (store mem pos xs) pos' k ys (by omega)]
    exact store_apply_congr xs fun _ => (store_of_lt _ (by omega)).symm

/-- A structure of which two neighbouring words are replaced, the rest stored as it was read. -/
theorem store_words (mem : Mem) (pos n m : ℕ) {xs ys : List UInt8} :
    store mem pos (slice mem pos n ++ (xs ++ (ys ++
        slice mem (pos + n + xs.length + ys.length) m))) =
      store (store mem (pos + n) xs) (pos + n + xs.length) ys := by
  rw [← store_append, store_slice fun _ _ _ => rfl, length_slice, ← store_append,
    ← store_append]
  apply store_slice
  intro k hk _
  rw [store_of_ge _ hk, store_of_ge _ (by omega)]

end Memory

theorem encode_decode (disk : Mem) (pos checksum features : ℕ) :
    { SuperBlock.decode disk pos with featureCompat := features, checksum := checksum }.encode =
      slice disk pos 4 ++ (leBytes 4 checksum ++ (leBytes 4 features ++
        slice disk (pos + 12) 116)) := by
  unfold SuperBlock.encode SuperBlock.decode
  simp only [leBytes_leNat]
  rfl

/-- `erofs_check_sb_chksum` with the block size and the checksum of `g_sbi`. It reads one block; the
length is an `unsigned int`, and the check has no value where it goes beyond what was read. -/
def erofsCheckSbChksum (disk : Mem) (blkszbits checksum : ℕ) : Bool :=
  let buf := store disk (erofsSuperOffset + 4) (zeroPad 4)
  let len := u32 (2 ^ blkszbits + 2 ^ 32 - erofsSuperOffset)
  if 2 ^ blkszbits < erofsSuperOffset + len then false
  else (erofsCrc32c 0xFFFFFFFF (slice buf erofsSuperOffset len)).toNat = checksum

/-- The superblock of `disk'` carries the feature and a checksum that the check accepts; but for the
checksum and that feature the images `disk` and `disk'` are the same. -/
structure ChksumEnabled (disk disk' : Mem) (blkszbits : ℕ) : Prop where
  feature : (SuperBlock.decode disk' erofsSuperOffset).featureCompat =
    (SuperBlock.decode disk erofsSuperOffset).featureCompat ||| featureCompatSbChksum
  accepted : erofsCheckSbChksum disk' blkszbits
    (SuperBlock.decode disk' erofsSuperOffset).checksum = true
  frame : ∀ k, ¬ (erofsSuperOffset + 4 ≤ k ∧ k < erofsSuperOffset + 12) → disk' k = disk k

namespace MkfsSb

variable (sbi : MkfsSb) (disk : Mem)

/-- `feature_compat` with the feature on. -/
def chksumFeatures : ℕ :=
  (SuperBlock.decode disk erofsSuperOffset).featureCompat ||| featureCompatSbChksum

def withChksum (checksum : ℕ) : Mem :=
  store (store disk (erofsSuperOffset + 4) (leBytes 4 checksum)) (erofsSuperOffset + 4 + 4)
    (leBytes 4 (chksumFeatures disk))

theorem store_superblock (checksum : ℕ) :
    store disk erofsSuperOffset
      { SuperBlock.decode disk erofsSuperOffset with
        featureCompat := chksumFeatures disk
        checksum := checksum }.encode = withChksum disk checksum := by
  rw [encode_decode]
  exact store_words disk erofsSuperOffset 4 116

theorem withChksum_self :
    store disk erofsSuperOffset
      { SuperBlock.decode disk erofsSuperOffset with
        featureCompat := chksumFeatures disk }.encode =
      withChksum disk (SuperBlock.decode disk erofsSuperOffset).checksum :=
  store_superblock disk (SuperBlock.decode disk erofsSuperOffset).checksum

/-- The checksum that `erofs_enable_sb_chksum` computes. -/
def enabledCrc : UInt32 :=
  erofsCrc32c 0xFFFFFFFF
    (slice (withChksum disk (SuperBlock.decode disk erofsSuperOffset).checksum) erofsSuperOffset
      (if erofsSuperOffset < 2 ^ sbi.blkszbits then 2 ^ sbi.blkszbits - erofsSuperOffset
        else 2 ^ sbi.blkszbits))

theorem erofsEnableSbChksum_eq
    (hmagic : (SuperBlock.decode disk erofsSuperOffset).magic = erofsSuperMagicV1) :
    sbi.erofsEnableSbChksum disk = fun k => if k < 2 ^ sbi.blkszbits then
      withChksum disk (sbi.enabledCrc disk).toNat k else disk k := by
  unfold erofsEnableSbChksum
  simp only
  rw [if_neg fun h => h hmagic, enabledCrc, ← withChksum_self, ← store_superblock]
  rfl

theorem withChksum_of_outside {checksum k : ℕ}
    (hk : ¬ (erofsSuperOffset + 4 ≤ k ∧ k < erofsSuperOffset + 12)) :
    withChksum disk checksum k = disk k := by
  unfold withChksum
  by_cases hlt : k < erofsSuperOffset + 4
  · rw [store_of_lt _ (by omega), store_of_lt _ hlt]
  · rw [store_of_ge _ (by rw [length_leBytes]; omega), store_of_ge _ (by rw [length_leBytes]; omega)]

/-- A block that ends in front of the superblock is written back as it was. -/
theorem erofsEnableSbChksum_small (hbits : sbi.blkszbits ≤ 10)
    (hmagic : (SuperBlock.decode disk erofsSuperOffset).magic = erofsSuperMagicV1) :
    sbi.erofsEnableSbChksum disk = disk := by
  have hblk : 2 ^ sbi.blkszbits ≤ 2 ^ 10 := blksz_le hbits
  have hoff : erofsSuperOffset = 2 ^ 10 := rfl
  rw [erofsEnableSbChksum_eq sbi disk hmagic]
  funext k
  by_cases hk : k < 2 ^ sbi.blkszbits
  · rw [if_pos hk]
    exact withChksum_of_outside disk (by omega)
  · rw [if_neg hk]

theorem erofsEnableSbChksum_large (hbits : 11 ≤ sbi.blkszbits)
    (hmagic : (SuperBlock.decode disk erofsSuperOffset).magic = erofsSuperMagicV1) :
    sbi.erofsEnableSbChksum disk = withChksum disk (sbi.enabledCrc disk).toNat := by
  have hblk : 2 ^ 11 ≤ 2 ^ sbi.blkszbits := blksz_le hbits
  have hoff : erofsSuperOffset = 1024 := rfl
  rw [erofsEnableSbChksum_eq sbi disk hmagic]
  funext k
  by_cases hk : k < 2 ^ sbi.blkszbits
  · rw [if_pos hk]
  · rw [if_neg hk, withChksum_of_outside disk (by omega)]

theorem chksumFeatures_lt : chksumFeatures disk < 2 ^ 32 :=
  Nat.or_lt_two_pow (leNat_lt disk _ 4) (by decide)

theorem decode_withChksum_checksum {checksum : ℕ} (h : checksum < 2 ^ 32) :
    (SuperBlock.decode (withChksum disk checksum) erofsSuperOffset).checksum = checksum := by
  have hlow := holds_store disk (erofsSuperOffset + 4) (leBytes 4 checksum)
  have hholds : Holds (withChksum disk checksum) (erofsSuperOffset + 4) (leBytes 4 checksum) :=
    holds_congr (fun k _ hk => store_of_lt _ (by rw [length_leBytes] at hk; omega)) hlow
  exact leNat_of_holds_of_lt hholds h

theorem decode_withChksum_features (checksum : ℕ) :
    (SuperBlock.decode (withChksum disk checksum) erofsSuperOffset).featureCompat =
      chksumFeatures disk :=
  leNat_of_holds_of_lt (holds_store _ (erofsSuperOffset + 4 + 4) _) (chksumFeatures_lt disk)

theorem slice_withChksum (checksum : ℕ) {len : ℕ} (hlen : 12 ≤ len) :
    slice (withChksum disk checksum) erofsSuperOffset len =
      slice disk erofsSuperOffset 4 ++ (leBytes 4 checksum ++
        slice (withChksum disk 0) (erofsSuperOffset + 8) (len - 8)) := by
  have hfront : slice (withChksum disk checksum) erofsSuperOffset 4 =
      slice disk erofsSuperOffset 4 :=
    slice_congr fun k hk => withChksum_of_outside disk (by omega)
  have hfield : slice (withChksum disk checksum) (erofsSuperOffset + 4) 4 =
      leBytes 4 checksum := by
    apply slice_of_holds _ (length_leBytes 4 checksum)
    refine holds_congr (fun k _ hk => ?_) (holds_store disk (erofsSuperOffset + 4) _)
    exact store_of_lt _ (by rw [length_leBytes] at hk; omega)
  have hback : slice (withChksum disk checksum) (erofsSuperOffset + 4 + 4) (len - 8) =
      slice (withChksum disk 0) (erofsSuperOffset + 4 + 4) (len - 8) := by
    apply slice_congr
    intro k _
    apply store_apply_congr
    intro hk
    rw [store_of_ge _ (by rw [length_leBytes]; omega), store_of_ge _ (by rw [length_leBytes]; omega)]
  obtain ⟨n, rfl⟩ : ∃ n, len = 4 + (4 + n) := ⟨len - 8, by omega⟩
  have hn : 4 + (4 + n) - 8 = n := by omega
  rw [hn] at hback ⊢
  rw [slice_add, slice_add, hfront, hfield, hback]

theorem store_withChksum (checksum : ℕ) :
    store (withChksum disk checksum) (erofsSuperOffset + 4) (zeroPad 4) = withChksum disk 0 := by
  have hzero : leBytes 4 0 = zeroPad 4 := rfl
  unfold withChksum
  rw [← store_comm _ (by rw [length_zeroPad]), store_store (by rw [length_leBytes, length_zeroPad]),
    hzero]

/-- The check on what was written compares with the data in which the checksum is cleared. -/
theorem check_large (hbits : 11 ≤ sbi.blkszbits ∧ sbi.blkszbits < 32) :
    erofsCheckSbChksum (withChksum disk (sbi.enabledCrc disk).toNat) sbi.blkszbits
        (sbi.enabledCrc disk).toNat = true ↔
      (SuperBlock.decode disk erofsSuperOffset).checksum = 0 := by
  have hlow : 2 ^ 11 ≤ 2 ^ sbi.blkszbits := blksz_le hbits.1
  have hhigh : 2 ^ sbi.blkszbits ≤ 2 ^ 31 := blksz_le (by omega)
  have hoff : erofsSuperOffset = 1024 := rfl
  have hlen : u32 (2 ^ sbi.blkszbits + 2 ^ 32 - erofsSuperOffset) =
      2 ^ sbi.blkszbits - erofsSuperOffset := by
    unfold u32
    omega
  have hlt : (SuperBlock.decode disk erofsSuperOffset).checksum < 2 ^ 32 := leNat_lt disk _ 4
  unfold erofsCheckSbChksum
  simp only
  rw [hlen, if_neg (by omega), store_withChksum, decide_eq_true_iff, UInt32.toNat_inj]
  unfold enabledCrc
  rw [if_pos (by omega), slice_withChksum disk 0 (by omega),
    slice_withChksum disk (SuperBlock.decode disk erofsSuperOffset).checksum (by omega)]
  constructor
  · intro hcrc
    have hbytes := erofsCrc32c_window (length_leBytes 4 _) (length_leBytes 4 _) hcrc
    have hread := leNat_of_holds_of_lt (holds_store disk 0 (leBytes 4 _)) hlt
    rw [← hbytes] at hread
    rw [← hread]
    exact leNat_of_holds_of_lt (holds_store disk 0 (leBytes 4 0)) (by decide)
  · intro hzero
    rw [hzero]

/-- With blocks of 1024 bytes the check takes in no data, with blocks of 512 bytes more than a
buffer holds. -/
theorem check_small (hbits : sbi.blkszbits = 9 ∨ sbi.blkszbits = 10) (checksum : ℕ) :
    erofsCheckSbChksum disk sbi.blkszbits checksum = true ↔
      sbi.blkszbits = 10 ∧ checksum = 2 ^ 32 - 1 := by
  rcases hbits with hbits | hbits
  · rw [hbits]
    unfold erofsCheckSbChksum
    simp only
    rw [if_pos (by decide)]
    simp
  · rw [hbits]
    unfold erofsCheckSbChksum
    simp only
    have hlen : u32 (2 ^ 10 + 2 ^ 32 - erofsSuperOffset) = 0 := by decide
    have hnone : (erofsCrc32c 0xFFFFFFFF
        (slice (store disk (erofsSuperOffset + 4) (zeroPad 4)) erofsSuperOffset 0)).toNat =
        2 ^ 32 - 1 := rfl
    rw [hlen, if_neg (by decide), hnone, decide_eq_true_iff, eq_comm]
    simp

end MkfsSb

/-- Either the superblock lies in the first block and its checksum field is clear, or the block size
is 1024 and the image already carries what the check accepts. -/
def ChksumMatches (disk : Mem) (blkszbits : ℕ) : Prop :=
  11 ≤ blkszbits ∧ (SuperBlock.decode disk erofsSuperOffset).checksum = 0 ∨
    blkszbits = 10 ∧ (SuperBlock.decode disk erofsSuperOffset).featureCompat % 2 = 1 ∧
      (SuperBlock.decode disk erofsSuperOffset).checksum = 2 ^ 32 - 1

theorem or_one_eq_self {n : ℕ} : n = n ||| featureCompatSbChksum ↔ n % 2 = 1 := by
  have hbit : n ||| featureCompatSbChksum = n - n % 2 + 1 := by
    rw [← even_or_one]
    apply Nat.eq_of_testBit_eq
    intro i
    rw [Nat.testBit_or, Nat.testBit_or]
    cases i with
    | zero =>
      have hone : featureCompatSbChksum.testBit 0 = true := rfl
      rw [hone, Bool.or_true, Bool.or_true]
    | succ i =>
      have hhalf : (n - n % 2) / 2 = n / 2 := by omega
      have hsucc : ∀ m : ℕ, m.testBit (i + 1) = (m / 2).testBit i := fun _ => Nat.testBit_succ ..
      rw [hsucc n, hsucc (n - n % 2), hhalf]
  rw [hbit]
  omega

/-- Enabling the checksum leaves an image that the check accepts exactly if the superblock is written
with the first block and its checksum field was clear (or the check takes in nothing, and the image
was accepted before). -/
theorem erofsEnableSbChksum_exact (sbi : MkfsSb) (disk : Mem)
    (hbits : 9 ≤ sbi.blkszbits ∧ sbi.blkszbits < 32)
    (hmagic : (SuperBlock.decode disk erofsSuperOffset).magic = erofsSuperMagicV1) :
    ChksumEnabled disk (sbi.erofsEnableSbChksum disk) sbi.blkszbits ↔
      ChksumMatches disk sbi.blkszbits := by
  by_cases hlarge : 11 ≤ sbi.blkszbits
  · rw [sbi.erofsEnableSbChksum_large disk hlarge hmagic]
    have hcrc : (sbi.enabledCrc disk).toNat < 2 ^ 32 := (sbi.enabledCrc disk).toNat_lt
    have hread := MkfsSb.decode_withChksum_checksum disk hcrc
    have hcheck := sbi.check_large disk ⟨hlarge, hbits.2⟩
    constructor
    · intro h
      have haccepted := h.accepted
      rw [hread, hcheck] at haccepted
      exact Or.inl ⟨hlarge, haccepted⟩
    · rintro (⟨-, hzero⟩ | ⟨h10, -⟩)
      · exact {
          feature := MkfsSb.decode_withChksum_features disk _
          accepted := by
            rw [hread]
            exact hcheck.2 hzero
          frame := fun k hk => MkfsSb.withChksum_of_outside disk hk }
      · omega
  · rw [sbi.erofsEnableSbChksum_small disk (by omega) hmagic]
    have hcheck := sbi.check_small disk (by omega)
      (SuperBlock.decode disk erofsSuperOffset).checksum
    constructor
    · intro h
      obtain ⟨h10, hall⟩ := hcheck.1 h.accepted
      exact Or.inr ⟨h10, or_one_eq_self.1 h.feature, hall⟩
    · rintro (⟨h11, -⟩ | ⟨h10, hodd, hall⟩)
      · exact absurd h11 hlarge
      · exact ⟨or_one_eq_self.2 hodd, hcheck.2 ⟨h10, hall⟩, fun _ _ => rfl⟩

/-- The image of a file system with two extra devices and a name prefix, before its checksum. -/
def twoDeviceImage : Mem :=
  twoDeviceSb.erofsWritesb 16
    (twoDeviceSb.erofsMkfsDumpBlobs 4096 100 (twoDeviceSb.zErofsBuildComprCfgs fun _ => 0))

theorem erofsEnableSbChksum_exact_twoDevices :
    ChksumEnabled twoDeviceImage (twoDeviceSb.erofsEnableSbChksum twoDeviceImage)
        twoDeviceSb.blkszbits ↔ ChksumMatches twoDeviceImage twoDeviceSb.blkszbits :=
  erofsEnableSbChksum_exact twoDeviceSb _ ⟨by decide, by decide⟩ (by decide +kernel)

/-- With blocks of 1024 bytes, which `mkfs` accepts, the superblock stays as it was. -/
theorem erofsEnableSbChksum_1024 :
    (SuperBlock.decode ((plainSb 10 3).erofsWritesb 1 fun _ => 0) erofsSuperOffset).magic =
        erofsSuperMagicV1 ∧
      ¬ ChksumEnabled ((plainSb 10 3).erofsWritesb 1 fun _ => 0)
        ((plainSb 10 3).erofsEnableSbChksum ((plainSb 10 3).erofsWritesb 1 fun _ => 0))
        (plainSb 10 3).blkszbits := by
  have hmagic : (SuperBlock.decode ((plainSb 10 3).erofsWritesb 1 fun _ => 0)
      erofsSuperOffset).magic = erofsSuperMagicV1 := by decide +kernel
  refine ⟨hmagic, ?_⟩
  rw [(plainSb 10 3).erofsEnableSbChksum_small _ (by decide) hmagic]
  intro h
  have heven : (SuperBlock.decode ((plainSb 10 3).erofsWritesb 1 fun _ => 0)
      erofsSuperOffset).featureCompat % 2 = 0 := by decide +kernel
  have hodd := or_one_eq_self.1 h.feature
  omega

end ErofsUtils
