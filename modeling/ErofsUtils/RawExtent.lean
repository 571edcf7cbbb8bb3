import ErofsUtils.ReadDataCorrect
import ErofsUtils.ZeroPadding

/-!
# Uncompressed extents

A raw extent is written by `write_uncompressed_extent`, or recorded as inline data, which is stored
behind the index or, when there is no room for it, in a block of its own. Only the first of them
rotates the data for `Z_EROFS_ADVISE_INTERLACED_PCLUSTER`; the reader goes by the flag alone.
-/

namespace ErofsUtils

open ByteMemory CString

/-- `write_uncompressed_extent`: what it leaves at `dst`, and the bytes it takes from the queue. -/
def writeUncompressedExtent (sbi : SbInfo) (zAdvise : Advise) (clusterofs : ℕ)
    (queue : List UInt8) (dst : Mem) : Mem × ℕ :=
  let count := min sbi.blksz queue.length
  let interlacedOffset := if zAdvise.interlacedPcluster then clusterofs else 0
  let rightpart := min (sbi.blksz - interlacedOffset) count
  let dst := store dst 0 (List.replicate sbi.blksz 0)
  let dst := store dst interlacedOffset (queue.take rightpart)
  (store dst 0 ((queue.drop rightpart).take (count - rightpart)), count)

structure InlineData where
  idata : List UInt8
  compressedIdata : Bool

/-- `z_erofs_fill_inline_data`; also returns `z_advise`. -/
def zErofsFillInlineData (zAdvise : Advise) (data : List UInt8) (raw : Bool) :
    Advise × InlineData :=
  ({ zAdvise with inlinePcluster := true }, { idata := data, compressedIdata := !raw })

/-- `z_erofs_drop_inline_pcluster` on the inline data: prepared raw data replaces it. -/
def InlineData.drop (d : InlineData) (eofTailraw : Option (List UInt8)) : InlineData :=
  match eofTailraw with
  | none => d
  | some tail => { idata := tail, compressedIdata := false }

def erofsBhFlushWriteInline (dev : Mem) (off : ℕ) (d : InlineData) : Mem := store dev off d.idata

inductive RawPlace
  /-- `write_uncompressed_extent`. -/
  | block
  /-- `z_erofs_fill_inline_data`, and the data stays inline. -/
  | inlined
  /-- `z_erofs_fill_inline_data`, and `erofs_write_tail_end` writes the data to a block. -/
  | tailEnd
  /-- `eof_tailraw`, which replaces the compressed inline data `idata` that was dropped. -/
  | tailRaw (idata : List UInt8)

/-- A raw extent of an inode: its head, its length, and where it is stored. The head is the one of
the inline pcluster exactly when the data is inline. -/
structure RawExtent where
  vi : Inode
  lcn : ℕ
  clusterofs : ℕ
  pblk : ℕ
  length : ℕ
  place : RawPlace
  lclusterbits : vi.zLogicalClusterbits = vi.sbi.blkszbits
  bits_le : vi.sbi.blkszbits ≤ 16
  clusterofs_lt : clusterofs < vi.sbi.blksz
  length_pos : 0 < length
  length_le : length ≤ vi.sbi.blksz
  inlined_iff : (vi.zAdvise.inlinePcluster = true ∧ lcn = vi.zTailextentHeadlcn) ↔
    place = .inlined
  not_fragment : ¬ (vi.zAdvise.fragmentPcluster = true ∧ lcn = vi.zTailextentHeadlcn)
  idataSize : place = .inlined → vi.idataSize = length

namespace RawExtent

variable (x : RawExtent)

def la : ℕ := (x.lcn * 2 ^ x.vi.zLogicalClusterbits) ||| x.clusterofs

/-- The recorder of `z_erofs_do_map_blocks` at the head of the extent. -/
def head : Maprecorder :=
  { Maprecorder.init with lcn := x.lcn, clusterofs := x.clusterofs, pblk := x.pblk }

/-- The map of the extent, as the second half of `z_erofs_do_map_blocks` completes it. -/
def map : Except Errno MapBlocks :=
  match zErofsMapPcluster x.vi (fun _ => none) x.head
      { mLa := x.la, mLlen := x.length, mFlags := { mapped := true, encoded := true } } with
  | .error e => .error e
  | .ok (m, map) => .ok { map with mAlgorithmformat := mapFormat x.vi m.headtype }

def taken (queue : List UInt8) : ℕ :=
  match x.place with
  | .block => min x.vi.sbi.blksz queue.length
  | _ => queue.length

def write (lz4ZeroPadding : Bool) (queue : List UInt8) (dst dev : Mem) : Mem :=
  let sbi := x.vi.sbi
  let tailEnd (d : InlineData) :=
    erofsWriteTailEnd sbi lz4ZeroPadding d.compressedIdata dev (sbi.pos x.pblk) d.idata
  match x.place with
  | .block => store dev (sbi.pos x.pblk)
      (slice (writeUncompressedExtent sbi x.vi.zAdvise x.clusterofs queue dst).1 0 sbi.blksz)
  | .inlined =>
    erofsBhFlushWriteInline dev x.vi.zIdataoff (zErofsFillInlineData x.vi.zAdvise queue true).2
  | .tailEnd => tailEnd ((zErofsFillInlineData x.vi.zAdvise queue true).2.drop none)
  | .tailRaw idata =>
    tailEnd ((zErofsFillInlineData x.vi.zAdvise idata false).2.drop (some queue))

def mPa : ℕ := match x.place with
  | .inlined => x.vi.zIdataoff
  | _ => x.vi.sbi.pos x.pblk

def mPlen : ℕ := match x.place with
  | .inlined => x.length
  | _ => x.vi.sbi.blksz

end RawExtent

/-- Reads return what the device holds, and `pa` is on the primary device. -/
structure ReadEnv.On (env : ReadEnv) (sbi : SbInfo) (dev : Mem) (pa : ℕ) : Prop where
  devRead : ∀ off len, env.devRead off len = .ok (slice dev off len)
  primary : erofsMapDev sbi env.devs pa = pa

/-- The extent is read back, whatever its bytes are: from every byte of it on. -/
def RawExtent.ReadsBack (x : RawExtent) : Prop :=
  ∃ map, x.map = .ok map ∧ ∀ (lz4ZeroPadding : Bool) (queue : List UInt8) (dst dev : Mem)
    (env : ReadEnv), x.taken queue = x.length →
    env.On x.vi.sbi (x.write lz4ZeroPadding queue dst dev) map.mPa →
    ∀ skip < x.length, ∀ trimmed, zErofsReadOneData env x.vi map skip x.length trimmed =
      .ok ((queue.take x.length).drop skip)

namespace RawExtent

variable (x : RawExtent)

theorem la_eq : x.la = x.lcn * x.vi.sbi.blksz + x.clusterofs := by
  have hlt := x.clusterofs_lt
  unfold SbInfo.blksz at hlt
  unfold la SbInfo.blksz
  rw [x.lclusterbits, Nat.mul_comm]
  exact (Nat.two_pow_add_eq_or_of_lt hlt _).symm

theorem blkoff_la : x.vi.sbi.blkoff x.la = x.clusterofs := by
  unfold SbInfo.blkoff
  rw [x.la_eq, Nat.mul_add_mod', Nat.mod_eq_of_lt x.clusterofs_lt]

/-- The map of the extent: its pcluster, and the format by the flag of the inode. -/
theorem exists_map : ∃ map, x.map = .ok map ∧ map.mLa = x.la ∧ map.mPa = x.mPa ∧
    map.mPlen = x.mPlen ∧ map.mFlags.fragment = false ∧
    map.mAlgorithmformat = if x.vi.zAdvise.interlacedPcluster then .interlaced else .shifted := by
  have hplace := x.inlined_iff
  have hidata := x.idataSize
  have hfrag := x.not_fragment
  unfold RawExtent.map zErofsMapPcluster RawExtent.mPa RawExtent.mPlen
  have hlcn : x.head.lcn = x.lcn := rfl
  rw [hlcn]
  cases hp : x.place with
  | inlined =>
      rw [if_pos (hplace.mpr hp)]
      exact ⟨_, rfl, rfl, rfl, hidata hp, rfl, rfl⟩
  | block | tailEnd | tailRaw =>
      have hout : ¬ (x.vi.zAdvise.inlinePcluster = true ∧ x.lcn = x.vi.zTailextentHeadlcn) := by
        rw [hplace, hp]
        exact fun h => RawPlace.noConfusion h
      have hlen : 2 ^ x.vi.zLogicalClusterbits = x.vi.sbi.blksz := by
        rw [x.lclusterbits]
        rfl
      rw [if_neg hout, if_neg hfrag]
      exact ⟨_, rfl, rfl, rfl, hlen, rfl, rfl⟩

/-- What a read of the pcluster returns for the byte `i` of the extent, in the place where its
writer has put it. -/
def stored (i : ℕ) : ℕ := match x.place with
  | .block => ((if x.vi.zAdvise.interlacedPcluster then x.clusterofs else 0) + i) % x.vi.sbi.blksz
  | _ => i

end RawExtent

/-- The bytes of the extent at `dst`, rotated when its data is interlaced. -/
theorem writeUncompressedExtent_byte {sbi : SbInfo} {zAdvise : Advise} {clusterofs : ℕ}
    (hofs : clusterofs < sbi.blksz) (queue : List UInt8) (dst : Mem) {i : ℕ} {b : UInt8}
    (hi : i < sbi.blksz) (hb : queue[i]? = some b) :
    (writeUncompressedExtent sbi zAdvise clusterofs queue dst).1
      (((if zAdvise.interlacedPcluster then clusterofs else 0) + i) % sbi.blksz) = b := by
  have hlen := (List.getElem?_eq_some_iff.mp hb).1
  unfold writeUncompressedExtent
  have hlt : (if zAdvise.interlacedPcluster then clusterofs else 0) < sbi.blksz := by
    split_ifs <;> omega
  generalize (if zAdvise.interlacedPcluster then clusterofs else 0) = ofs at hlt ⊢
  dsimp only
  rcases Nat.lt_or_ge (ofs + i) sbi.blksz with hright | hleft
  · -- right of the offset: the second copy ends in front of it
    rw [Nat.mod_eq_of_lt hright, store_of_ge _ (by rw [List.length_take]; omega)]
    apply holds_store _ ofs _ i b
    rw [List.getElem?_take_of_lt (by omega)]
    exact hb
  · rw [Nat.mod_eq_sub_mod hleft, Nat.mod_eq_of_lt (by omega)]
    have hidx : min (sbi.blksz - ofs) (min sbi.blksz queue.length) + (ofs + i - sbi.blksz) = i := by
      omega
    have hcopy := holds_store (store (store dst 0 (List.replicate sbi.blksz 0)) ofs
      (queue.take (min (sbi.blksz - ofs) (min sbi.blksz queue.length)))) 0
      ((queue.drop (min (sbi.blksz - ofs) (min sbi.blksz queue.length))).take
        (min sbi.blksz queue.length - min (sbi.blksz - ofs) (min sbi.blksz queue.length)))
      (ofs + i - sbi.blksz) b
    rw [List.getElem?_take_of_lt (by omega), List.getElem?_drop, hidx, Nat.zero_add] at hcopy
    exact hcopy hb

/-- A tail that is not compressed is stored from the start of its block on. -/
theorem erofsWriteTailEnd_raw (sbi : SbInfo) (lz4ZeroPadding : Bool) (dev : Mem) (pos : ℕ)
    {idata : List UInt8} (hlen : idata.length ≤ sbi.blksz) :
    slice (erofsWriteTailEnd sbi lz4ZeroPadding false dev pos idata) pos sbi.blksz =
      idata ++ List.replicate (sbi.blksz - idata.length) 0 := by
  apply slice_of_holds
  · unfold erofsWriteTailEnd
    simp only [Bool.and_false, Bool.false_eq_true, if_false]
    apply holds_append.mpr
    split_ifs with hlt
    · refine ⟨?_, holds_store _ _ _⟩
      apply holds_congr _ (holds_store dev pos idata)
      intro k _ hk
      exact store_of_lt _ hk
    · rw [show sbi.blksz - idata.length = 0 by omega]
      exact ⟨holds_store dev pos idata, holds_nil _ _⟩
  · rw [List.length_append, List.length_replicate]
    omega

namespace RawExtent

variable {x : RawExtent} {lz4ZeroPadding : Bool} {queue : List UInt8} {dst dev : Mem}

theorem slice_write_inlined (hp : x.place = .inlined) (hq : x.taken queue = x.length) :
    slice (x.write lz4ZeroPadding queue dst dev) x.mPa x.mPlen = queue := by
  unfold RawExtent.taken at hq
  unfold RawExtent.write RawExtent.mPa RawExtent.mPlen
  simp only [hp] at hq ⊢
  exact slice_of_holds (holds_store dev _ _) hq

theorem slice_write_tail (hp : x.place = .tailEnd ∨ ∃ idata, x.place = .tailRaw idata)
    (hq : x.taken queue = x.length) :
    slice (x.write lz4ZeroPadding queue dst dev) x.mPa x.mPlen =
      queue ++ List.replicate (x.vi.sbi.blksz - queue.length) 0 := by
  have hle := x.length_le
  unfold RawExtent.taken at hq
  unfold RawExtent.write RawExtent.mPa RawExtent.mPlen
  have hraw (hlen : queue.length = x.length) := erofsWriteTailEnd_raw x.vi.sbi lz4ZeroPadding dev
    (x.vi.sbi.pos x.pblk) (show queue.length ≤ x.vi.sbi.blksz by omega)
  rcases hp with hp | ⟨idata, hp⟩
  · simp only [hp] at hq ⊢
    exact hraw hq
  · simp only [hp] at hq ⊢
    exact hraw hq

theorem getElem?_write {i : ℕ} (hq : x.taken queue = x.length) (hi : i < x.length) :
    (slice (x.write lz4ZeroPadding queue dst dev) x.mPa x.mPlen)[x.stored i]? = queue[i]? := by
  have hle := x.length_le
  cases hp : x.place with
  | inlined =>
      rw [slice_write_inlined hp hq]
      unfold RawExtent.stored
      rw [hp]
  | tailEnd | tailRaw =>
      have hlen : queue.length = x.length := by
        unfold RawExtent.taken at hq
        rwa [hp] at hq
      rw [slice_write_tail (by simp [hp]) hq]
      unfold RawExtent.stored
      simp only [hp]
      exact List.getElem?_append_left (by omega)
  | block =>
      have hlen : x.length ≤ queue.length := by
        unfold RawExtent.taken at hq
        rw [hp] at hq
        change min _ _ = _ at hq
        omega
      obtain ⟨b, hb⟩ : ∃ b, queue[i]? = some b := ⟨_, List.getElem?_eq_getElem (by omega)⟩
      have hmod := Nat.mod_lt ((if x.vi.zAdvise.interlacedPcluster then x.clusterofs else 0) + i)
        x.vi.sbi.blksz_pos
      unfold RawExtent.stored RawExtent.write RawExtent.mPa RawExtent.mPlen
      simp only [hp]
      rw [getElem?_slice_of_lt _ _ _ hmod, hb]
      congr 1
      apply holds_store
      rw [getElem?_slice_of_lt _ _ _ hmod, Nat.zero_add,
        writeUncompressedExtent_byte x.clusterofs_lt queue dst (by omega) hb]

/-- The reader finds each byte where the writer has put it. -/
theorem readsBack_of_stored (h : ∀ i < x.length, x.stored i =
    if x.vi.zAdvise.interlacedPcluster then (x.clusterofs + i) % x.vi.sbi.blksz else i) :
    x.ReadsBack := by
  obtain ⟨map, hmap, hla, hpa, hplen, hfrag, halg⟩ := x.exists_map
  refine ⟨map, hmap, ?_⟩
  intro lz4ZeroPadding queue dst dev env hq henv skip hskip trimmed
  have hle := x.length_le
  have hblk : x.vi.sbi.blksz ≤ 2 ^ 16 := Nat.pow_le_pow_right (by decide) x.bits_le
  have hpl : x.mPlen ≤ x.vi.sbi.blksz := by
    unfold RawExtent.mPlen
    split <;> omega
  have hlen : x.length ≤ queue.length := by
    unfold RawExtent.taken at hq
    split at hq <;> omega
  have hfile (i : ℕ) (hi : i < x.length) :
      queue[i]? = some (fileByte (List.replicate x.la 0 ++ queue) (x.la + i)) := by
    unfold fileByte
    rw [List.getElem?_append_right (by rw [List.length_replicate]; omega), List.length_replicate,
      Nat.add_sub_cancel_left, List.getElem?_eq_getElem (by omega)]
    rfl
  have hraw (i : ℕ) (hi : i < x.length) :
      (slice (x.write lz4ZeroPadding queue dst dev) x.mPa x.mPlen)[x.stored i]? =
        some (fileByte (List.replicate x.la 0 ++ queue) (x.la + i)) := by
    rw [getElem?_write hq hi, hfile i hi]
  have hdrop : (queue.take x.length).drop skip =
      fileBytes (List.replicate x.la 0 ++ queue) (x.la + skip) (x.la + x.length) := by
    rw [List.drop_take]
    exact take_drop_eq_fileBytes (Nat.le_refl _) hfile
  unfold zErofsReadOneData
  simp only [hfrag, Bool.false_eq_true, if_false, henv.primary, henv.devRead]
  rw [u32_of_lt (show x.length < 2 ^ 32 by omega), u32_of_lt (show skip < 2 ^ 32 by omega),
    hplen, u32_of_lt (show x.mPlen < 2 ^ 32 by omega), hdrop, hpa]
  unfold zErofsDecompress
  by_cases hint : x.vi.zAdvise.interlacedPcluster = true
  · rw [if_pos hint] at halg
    simp only [halg, if_true]
    rw [if_neg (by omega), if_neg (by omega), if_neg (by omega), hla]
    congr 1
    apply interlaced_eq_fileBytes x.vi.sbi.blksz_pos hle (Nat.le_refl _) hskip.le
    intro i hi
    have hmod : (x.la + i) % x.vi.sbi.blksz = x.stored i := by
      rw [h i hi, if_pos hint, ← Nat.mod_add_mod]
      change (x.vi.sbi.blkoff x.la + i) % _ = _
      rw [x.blkoff_la]
    rw [hmod]
    exact hraw i hi
  · rw [if_neg hint] at halg
    simp only [halg]
    have hstored (i : ℕ) (hi : i < x.length) : x.stored i = i := by
      rw [h i hi, if_neg hint]
    have hin : x.length ≤ x.mPlen := by
      unfold RawExtent.mPlen
      split <;> omega
    rw [if_neg (by omega)]
    congr 1
    apply take_drop_eq_fileBytes (Nat.le_refl _)
    intro i hi
    have := hraw i hi
    rwa [hstored i hi] at this

/-- Bytes that are not rotated are not read back by the interlaced reader: it starts behind the
first of them. -/
theorem unrotated_ne {b ofs len : ℕ} (k : ℕ) (hofs : 0 < ofs) (hlt : ofs < b) (hlen : 0 < len) :
    (((1 : UInt8) :: List.replicate k 0).drop ofs).take (min (b - ofs) len) ++
        ((1 : UInt8) :: List.replicate k 0).take (len - min (b - ofs) len) ≠
      1 :: List.replicate (len - 1) 0 := by
  intro heq
  have hpos : 0 < min (b - ofs) len := by omega
  obtain ⟨n, rfl⟩ := Nat.exists_eq_add_one_of_ne_zero hofs.ne'
  rw [List.drop_succ_cons, List.drop_replicate] at heq
  cases hk : k - n with
  | zero =>
      have hcount := congrArg List.length heq
      rw [hk, List.replicate_zero, List.take_nil, List.nil_append, List.length_take,
        List.length_cons, List.length_cons, List.length_replicate, List.length_replicate] at hcount
      omega
  | succ m =>
      obtain ⟨r, hr⟩ := Nat.exists_eq_add_one_of_ne_zero hpos.ne'
      rw [hk, hr, List.replicate_succ, List.take_succ_cons, List.cons_append] at heq
      exact absurd (List.cons.inj heq).1 (by decide)

def oneByte (x : RawExtent) : List UInt8 := 1 :: List.replicate (x.length - 1) 0

theorem length_oneByte : x.oneByte.length = x.length := by
  have := x.length_pos
  unfold RawExtent.oneByte
  rw [List.length_cons, List.length_replicate]
  omega

/-- The pcluster of such an extent, stored without rotation. -/
theorem slice_oneByte (hp : x.place ≠ .block) : x.taken x.oneByte = x.length ∧
    ∃ k, slice (x.write lz4ZeroPadding x.oneByte dst dev) x.mPa x.mPlen =
      1 :: List.replicate k 0 := by
  have hq : x.taken x.oneByte = x.length := by
    unfold RawExtent.taken
    split
    · next hb => exact absurd hb hp
    · exact length_oneByte
  refine ⟨hq, ?_⟩
  cases hplace : x.place with
  | block => exact absurd hplace hp
  | inlined =>
      rw [slice_write_inlined hplace hq]
      exact ⟨_, rfl⟩
  | tailEnd | tailRaw =>
      rw [slice_write_tail (by simp [hplace]) hq]
      unfold RawExtent.oneByte
      rw [List.cons_append, List.replicate_append_replicate]
      exact ⟨_, rfl⟩

def plainEnv (dev : Mem) : ReadEnv where
  devs := []
  devRead := fun off len => .ok (slice dev off len)
  decoder := fun _ _ => .error .eopnotsupp
  packedPread := fun _ _ => .error .enoent

theorem plainEnv_on (sbi : SbInfo) (dev : Mem) (pa : ℕ) : (plainEnv dev).On sbi dev pa :=
  ⟨fun _ _ => rfl, rfl⟩

theorem not_readsBack (hp : x.place ≠ .block) (hint : x.vi.zAdvise.interlacedPcluster = true)
    (hofs : x.clusterofs ≠ 0) : ¬ x.ReadsBack := by
  obtain ⟨map, hmap, hla, hpa, hplen, hfrag, halg⟩ := x.exists_map
  rintro ⟨map', hmap', hread⟩
  obtain rfl : map = map' := Except.ok.inj (hmap.symm.trans hmap')
  obtain ⟨hq, k, hraw⟩ := @slice_oneByte x false (fun _ => 0) (fun _ => 0) hp
  have hle := x.length_le
  have hblk : x.vi.sbi.blksz ≤ 2 ^ 16 := Nat.pow_le_pow_right (by decide) x.bits_le
  have hpl : x.mPlen ≤ x.vi.sbi.blksz := by
    unfold RawExtent.mPlen
    split <;> omega
  have hres := hread false x.oneByte (fun _ => 0) (fun _ => 0) _ hq
    (plainEnv_on x.vi.sbi _ map.mPa) 0 x.length_pos false
  rw [if_pos hint] at halg
  unfold zErofsReadOneData plainEnv erofsMapDev at hres
  simp only [hfrag, Bool.false_eq_true, if_false] at hres
  rw [u32_of_lt (show x.length < 2 ^ 32 by omega), u32_of_lt (show 0 < 2 ^ 32 by omega),
    hplen, u32_of_lt (show x.mPlen < 2 ^ 32 by omega), hpa, hraw] at hres
  unfold zErofsDecompress at hres
  simp only [halg, if_true] at hres
  rw [if_neg (by omega), if_neg (by omega), if_neg (by omega), hla, x.blkoff_la, Nat.add_zero,
    Nat.sub_zero, List.drop_zero, List.take_of_length_le length_oneByte.le] at hres
  have hcut : x.vi.sbi.blkoff x.clusterofs = x.clusterofs := Nat.mod_eq_of_lt x.clusterofs_lt
  rw [hcut] at hres
  exact unrotated_ne k (Nat.pos_of_ne_zero hofs) x.clusterofs_lt x.length_pos (Except.ok.inj hres)

end RawExtent

/-- Raw extents are read back unless they are inline data, or were meant to be, in an inode with
interlaced pclusters, and do not start at a block boundary of the file. -/
theorem rawExtent_readsBack_iff (x : RawExtent) :
    x.ReadsBack ↔
      x.place = .block ∨ x.vi.zAdvise.interlacedPcluster = false ∨ x.clusterofs = 0 := by
  constructor
  · intro h
    by_contra hnot
    obtain ⟨hp, hint, hofs⟩ : x.place ≠ .block ∧ x.vi.zAdvise.interlacedPcluster = true ∧
        x.clusterofs ≠ 0 := by
      simpa [not_or] using hnot
    exact RawExtent.not_readsBack hp hint hofs h
  · intro h
    apply RawExtent.readsBack_of_stored
    intro i hi
    have hmod : i % x.vi.sbi.blksz = i := Nat.mod_eq_of_lt (lt_of_lt_of_le hi x.length_le)
    unfold RawExtent.stored
    rcases h with hp | hint | hofs
    · simp only [hp]
      split_ifs
      · rfl
      · rw [Nat.zero_add, hmod]
    · simp only [hint, Bool.false_eq_true, if_false, Nat.zero_add, hmod]
      split <;> rfl
    · simp only [hofs, ite_self, Nat.zero_add, hmod]
      split <;> rfl

/-- The tail of a packed inode of an image with both fragments and inline pclusters: 20 bytes at
offset 4196. -/
def packedTail : RawExtent where
  vi := { sbi := ⟨12, 5, 0, false⟩, zInited := true, nid := 40, iSize := 4216,
          datalayout := .compressedFull, inodeIsize := 64, xattrIsize := 0,
          zAdvise := ⟨false, false, false, true, true, false⟩, zAlgorithmtype := 0,
          zLogicalClusterbits := 12, idataSize := 20, zTailextentHeadlcn := 1, fragmentoff := 0 }
  lcn := 1
  clusterofs := 100
  pblk := 3
  length := 20
  place := .inlined
  lclusterbits := rfl
  bits_le := by decide
  clusterofs_lt := by decide
  length_pos := by decide
  length_le := by decide
  inlined_iff := by simp
  not_fragment := by simp
  idataSize := by simp

/-- Its first byte is read from offset 100 of the inline data, which has 20 bytes. -/
theorem packedTail_not_readsBack : ¬ packedTail.ReadsBack := by
  apply RawExtent.not_readsBack
  · exact fun h => RawPlace.noConfusion h
  · rfl
  · decide

end ErofsUtils
