import ErofsUtils.XattrSet

/-!
# The xattrs of an inode on an image

An image with the exported area of an inode and with the shared entries gives the reader a record for
each xattr that the inode has set, inline from the end of its list and then shared. A name that is
set once is found with its value.
-/

namespace ErofsUtils
open ByteMemory CString

/-- The fields of an entry hold the value, and those of a request the name. -/
def KeyFits (key value : List UInt8) : Prop :=
  value.length ≤ 65535 ∧ ∀ index len, erofsXattrPrefixMatches key = some (index, len) →
    (key.drop len).length ≤ erofsNameLen

/-- The size that `erofs_prepare_xattr_ibody` gives the area of an inode. -/
def PreparedSize (s : XattrHeap) (ino size : ℕ) : Prop :=
  ∃ fuel target noroom ret, target < 2 ^ 32 ∧ 0 ≤ ret ∧
    erofsPrepareXattrIbody fuel ((s.ixattrs ino).filterMap s.items) target noroom = some (ret, size)

/-- What `erofs_iflush` writes behind an inode. -/
def exportedBytes (nameFilter size ino : ℕ) (s : XattrHeap) : Option (List UInt8) :=
  if size = 0 then some []
  else (exportXattrs ino s).bind fun r => erofsExportXattrIbody nameFilter size r.1 r.2.1

structure HoldsInode (cfg : XattrCfg) (s : XattrHeap) (size : ℕ) (bytes : List UInt8)
    (dev : XattrDev) (sb : XattrSb) (vi : XattrInode) : Prop where
  table : TableOf sb cfg.prefixes
  icount : vi.iXattrIcount.toNat = erofsInodeXattrIcount size
  body : Holds (dev.blockMem sb) (vi.xattrPos sb) bytes
  shared : ∀ id ∈ s.shared, ∀ item, s.items id = some item → ∀ n : ℕ, item.sharedXattrId = n →
    ∀ k < (erofsWriteXattrEntry item).length,
      dev.blockMem sb (sb.sharedPos n + k) = s.area (4 * n + k)

/-- The records of an area; one of a header and nothing else holds none. -/
def AreaRecords (dev : XattrDev) (sb : XattrSb) (vi : XattrInode) (rs : List XattrRecord) : Prop :=
  (vi.xattrIsize ≤ xattrHeaderSize ∧ rs = []) ∨
    ∃ inline shared, StoresXattrs dev sb vi inline shared ∧ rs = inline ++ shared

/-- `erofs_getxattr` returns a value, if no read fails and the buffer is large enough. -/
def GetsValue (dev : XattrDev) (sb : XattrSb) (vi : XattrInode) (key value : List UInt8) : Prop :=
  ∀ buffer size, let g := erofsGetxattr dev sb vi key buffer size
    (g.1 = eIo ∧ dev.Fails) ∨
      match buffer with
      | none => g.1 = value.length
      | some _ =>
        if u32 size < value.length then g.1 = eRange
        else g.1 = value.length ∧ ∃ b, g.2 = some b ∧ Holds b 0 value

section Keys

variable {nodes : List EaTypeNode} {sb : XattrSb} {key value : List UInt8} {index len : ℕ}
variable {item : XattrItem}

theorem matches_of_node {t : EaTypeNode} (hpre : t.pre <+: key) :
    ∃ p, xattrTypes t.baseIndex = some p ∧ p <+: t.pre ∧
      erofsXattrPrefixMatches key = some (t.baseIndex, p.length) := by
  obtain ⟨p, hp, hpt, -⟩ := erofsXattrPrefixMatches_some t.base_eq
  obtain ⟨rest, hrest⟩ := hpt.trans hpre
  exact ⟨p, hp, hpt, by rw [← hrest]; exact erofsXattrPrefixMatches_append hp rest⟩

/-- What is left of a name behind its prefix is no longer than what is left behind the predefined
one. -/
theorem tail_length_le (h : newXattritem nodes key value = some item)
    (hm : erofsXattrPrefixMatches key = some (index, len)) :
    item.tail.length ≤ (key.drop len).length := by
  have hlen : len ≤ item.prefixLen := by
    obtain ⟨-, -, ⟨i, t, -, hpre, -, hplen⟩ | ⟨p, hp, hpre, hplen⟩⟩ := newXattritem_spec h
    · obtain ⟨p, -, hpt, hm'⟩ := matches_of_node hpre
      rw [hm] at hm'
      cases hm'
      rw [hplen]
      exact hpt.length_le
    · obtain ⟨rest, hrest⟩ := hpre
      rw [← hrest, erofsXattrPrefixMatches_append hp rest] at hm
      cases hm
      exact hplen.ge
  rw [XattrItem.tail, (newXattritem_spec h).1, List.length_drop, List.length_drop]
  omega

theorem KeyFits.fits (hn : Numbered nodes) (h : newXattritem nodes key value = some item)
    (hfits : KeyFits key value) : item.Fits := by
  have hsome : (erofsXattrPrefixMatches key).isSome := by
    rw [← newXattritem_isSome nodes key value, h]
    rfl
  obtain ⟨⟨index, len⟩, hm⟩ := Option.isSome_iff_exists.mp hsome
  refine ⟨(tail_length_le h hm).trans (hfits.2 index len hm), ?_, ?_⟩
  · rw [(newXattritem_spec h).2.1]
    exact hfits.1
  · exact prefixIndex_lt hn h

theorem record_matches (htable : TableOf sb nodes) (hn : Numbered nodes)
    (h : newXattritem nodes key value = some item)
    (hm : erofsXattrPrefixMatches key = some (index, len)) :
    XattrMatches sb index (key.drop len) item.record := by
  have htail : item.record.name = key.drop item.prefixLen := by
    rw [← (newXattritem_spec h).1]
    rfl
  obtain ⟨-, -, ⟨i, t, hi, hpre, hindex, hplen⟩ | ⟨p, hp, hpre, hplen⟩⟩ := newXattritem_spec h
  · obtain ⟨p, hp, hpt, hm'⟩ := matches_of_node hpre
    rw [hm] at hm'
    cases hm'
    obtain ⟨q, hq, hbase, -⟩ := xattrBaseInfix_of_table htable hn hi
    rw [hp] at hq
    cases hq
    refine ⟨t.pre.drop p.length, ?_, ?_⟩
    · have hname : item.record.nameIndex = t.index := hindex
      rw [hname, hbase]
    · obtain ⟨rest, rfl⟩ := hpre
      rw [htail, hplen, List.drop_left, List.drop_append_of_le_length hpt.length_le]
  · obtain ⟨hlt, h0⟩ := xattrTypes_lt hp
    obtain ⟨rest, rfl⟩ := hpre
    rw [erofsXattrPrefixMatches_append hp rest] at hm
    cases hm
    refine ⟨[], ?_, ?_⟩
    · have hname : item.record.nameIndex = item.prefixIndex := rfl
      rw [hname, xattrBaseInfix, if_neg]
      rw [xattrTypesSize] at hlt
      rw [xattrLongPrefix]
      omega
    · rw [htail, hplen, List.nil_append]

theorem record_key (htable : TableOf sb nodes) (hn : Numbered nodes)
    (h : newXattritem nodes key value = some item) : xattrKey sb item.record = some key := by
  have hname : item.record.nameIndex = item.prefixIndex := rfl
  have hkey := (newXattritem_spec h).1
  have hrest : item.record.name = key.drop item.prefixLen := by
    rw [← hkey]
    rfl
  rw [xattrKey_of_item htable hn h hname, hrest, List.take_append_drop]

theorem zeroRecord_key (sb : XattrSb) : xattrKey sb zeroRecord = none := by
  have hbase : xattrBaseInfix sb zeroRecord.nameIndex = some (0, []) := rfl
  rw [xattrKey, hbase]
  rfl

end Keys

def recordOf (items : ItemMem) (id : ℕ) : XattrRecord :=
  ((items id).map XattrItem.record).getD zeroRecord

/-- The records of an area: the inline items, what was filled up, and the shared items. -/
def areaRecords (items : ItemMem) (ids : List ℕ) (k : ℕ) : List XattrRecord :=
  (splitXattrs items 0 ids).2.map (recordOf items) ++ List.replicate k zeroRecord ++
    (splitXattrs items 0 ids).1.map (recordOf items)

section Area

variable {cfg : XattrCfg} {s : XattrHeap} {ino : ℕ} {size : ℕ} {bytes : List UInt8}
variable {dev : XattrDev} {sb : XattrSb} {vi : XattrInode}

theorem recordOf_some {items : ItemMem} {id : ℕ} {item : XattrItem} (h : items id = some item) :
    recordOf items id = item.record := by
  rw [recordOf, h, Option.map_some, Option.getD_some]

theorem XattrHeap.Tracked.record_key (ht : s.Tracked cfg) (htable : TableOf sb cfg.prefixes)
    {id : ℕ} {item : XattrItem} (hi : s.items id = some item) :
    xattrKey sb item.record = some item.key := by
  have hkey := ErofsUtils.record_key htable cfg.numbered (ht.made id item hi)
  exact hkey

theorem XattrHeap.Tracked.record_matches (ht : s.Tracked cfg) (htable : TableOf sb cfg.prefixes)
    {id index len : ℕ} {item : XattrItem} (hi : s.items id = some item)
    (hm : erofsXattrPrefixMatches item.key = some (index, len)) :
    XattrMatches sb index (item.key.drop len) item.record := by
  have hmatch := ErofsUtils.record_matches htable cfg.numbered (ht.made id item hi) hm
  exact hmatch

theorem mem_splitXattrs_shared {items : ItemMem} {id : ℕ} (ids : List ℕ) : ∀ {n : ℕ},
    id ∈ (splitXattrs items n ids).1 → ∀ item, items id = some item → 0 ≤ item.sharedXattrId := by
  induction ids with
  | nil =>
      intro n hid
      exact absurd hid List.not_mem_nil
  | cons x ids ih =>
      intro n hid item hi
      rw [splitXattrs] at hid
      split at hid
      · exact ih hid item hi
      next hshared =>
        rcases List.mem_cons.mp hid with rfl | hid
        · rw [hi, Option.any_some, decide_eq_true_eq] at hshared
          omega
        · exact ih hid item hi

theorem splitXattrs_perm (items : ItemMem) (ids : List ℕ) :
    ((splitXattrs items 0 ids).2 ++ (splitXattrs items 0 ids).1).Perm ids := by
  refine List.perm_iff_count.mpr fun x => ?_
  rw [List.count_append, Nat.add_comm]
  exact splitXattrs_count x ids 0

theorem fits_of_mem (ht : s.Tracked cfg) (hfits : ∀ kv ∈ s.xattrsOf ino, KeyFits kv.1 kv.2)
    {id : ℕ} {item : XattrItem} (hid : id ∈ s.ixattrs ino) (hi : s.items id = some item) :
    item.Fits := by
  have hmem : (item.key, item.value) ∈ s.xattrsOf ino :=
    List.mem_filterMap.mpr ⟨id, hid, by rw [keyValue, hi, Option.map_some]⟩
  have hf := KeyFits.fits cfg.numbered (ht.made id item hi) (hfits _ hmem)
  exact ⟨hf.tail_le, hf.value_le, hf.index_lt⟩

theorem sharedRecord_eq (ht : s.Tracked cfg) (hfits : ∀ kv ∈ s.xattrsOf ino, KeyFits kv.1 kv.2)
    (himage : HoldsInode cfg s size bytes dev sb vi) {id : ℕ}
    (hid : id ∈ (splitXattrs s.items 0 (s.ixattrs ino)).1) :
    dev.sharedRecord sb (sharedIdOf s.items id % 2 ^ 32).toNat = recordOf s.items id := by
  have hmem : id ∈ s.ixattrs ino := mem_splitXattrs.mp (Or.inl hid)
  obtain ⟨item, hi⟩ := ht.balanced.ixattrs_live hmem
  have hnonneg := mem_splitXattrs_shared _ hid item hi
  obtain ⟨hshared, n, hn, hlt, hheld⟩ := ht.placed id item hi hnonneg
  have hidn : (sharedIdOf s.items id % 2 ^ 32).toNat = n := by
    rw [sharedIdOf, hi, Option.map_some, Option.getD_some, hn]
    omega
  have hcopy := himage.shared id hshared item hi n hn
  have hheld' : Holds (dev.blockMem sb) (sb.sharedPos n) (erofsWriteXattrEntry item) := by
    intro i b hb
    rw [hcopy i (List.getElem?_eq_some_iff.mp hb).1]
    exact hheld i b hb
  rw [hidn, recordOf_some hi, XattrDev.sharedRecord, read_record (fits_of_mem ht hfits hmem hi) hheld']

theorem map_record_written {ids : List ℕ} {written : List XattrItem}
    (h : List.Forall₂ (SameItem s.items) ids written) :
    written.map XattrItem.record = ids.map (recordOf s.items) := by
  induction h with
  | nil => rfl
  | @cons id item ids written hitem _ ih =>
      obtain ⟨orig, horig, heq⟩ := hitem
      have hrec : item.record = orig.record := by
        rw [heq]
        rfl
      rw [List.map_cons, List.map_cons, ih, recordOf_some horig, hrec]

theorem XattrHeap.Balanced.ixattrs_isSome (hb : s.Balanced) :
    ∀ id ∈ s.ixattrs ino, (s.items id).isSome := by
  intro id hid
  obtain ⟨item, hi⟩ := hb.ixattrs_live hid
  rw [hi]
  rfl

theorem fits_written {ids : List ℕ} {written : List XattrItem}
    (hfits : ∀ id ∈ ids, ∀ item, s.items id = some item → item.Fits)
    (h : List.Forall₂ (SameItem s.items) ids written) : ∀ item ∈ written, item.Fits := by
  induction h with
  | nil => exact fun item hitem => absurd hitem List.not_mem_nil
  | @cons id item ids written hsame _ ih =>
      intro x hx
      rcases List.mem_cons.mp hx with rfl | hx
      · obtain ⟨orig, horig, heq⟩ := hsame
        have hf := hfits id List.mem_cons_self orig horig
        rw [heq]
        exact ⟨hf.tail_le, hf.value_le, hf.index_lt⟩
      · exact ih (fun y hy => hfits y (List.mem_cons_of_mem id hy)) x hx

theorem lt_areaSize {ids : List ℕ} (hne : ids ≠ []) (hlive : ∀ id ∈ ids, (s.items id).isSome) :
    xattrHeaderSize < areaSize s.items ids := by
  obtain ⟨id, ids, rfl⟩ := List.exists_cons_of_ne_nil hne
  obtain ⟨item, hi⟩ := Option.isSome_iff_exists.mp (hlive id List.mem_cons_self)
  rw [areaSize, splitXattrs]
  split
  · have hspace : entrySpace s.items id = roundUp (4 + item.body) 4 := by
      rw [entrySpace, hi, Option.map_some, Option.getD_some]
    have hround := roundUp_four_eq (4 + item.body)
    simp only [List.map_append, List.map_cons, List.map_nil, List.sum_append, List.sum_cons,
      List.sum_nil, hspace]
    omega
  · rw [List.length_cons]
    omega

theorem areaSize_le_size (ht : s.Tracked cfg) (hsize : PreparedSize s ino size)
    (harea : areaSize s.items (s.ixattrs ino) < 2 ^ 32) (hcount : CountFits size) :
    size % 4 = 0 ∧ (size = 0 → s.ixattrs ino = []) ∧
      (size ≠ 0 → areaSize s.items (s.ixattrs ino) ≤ size) := by
  obtain ⟨fuel, target, noroom, ret, -, hret, hprep⟩ := hsize
  obtain ⟨hmax, hmod⟩ := erofsPrepareXattrIbody_size hret hprep
  by_cases hnil : s.ixattrs ino = []
  · refine ⟨hmod, fun _ => hnil, fun hne => ?_⟩
    have hempty : areaSize s.items [] = xattrHeaderSize := rfl
    rw [hnil, hempty]
    exact (hcount.resolve_left hne).1
  · have hlive := @XattrHeap.Balanced.ixattrs_isSome _ ino ht.balanced
    rw [xattrsSize_eq hnil hlive harea] at hmax
    have h12 := lt_areaSize hnil hlive
    refine ⟨hmod, fun hzero => ?_, fun _ => ?_⟩
    · omega
    · omega

/-- What `mkfs.erofs` writes for an inode, and what the reader finds there. -/
theorem exported_area (ht : s.Tracked cfg) (hfits : ∀ kv ∈ s.xattrsOf ino, KeyFits kv.1 kv.2)
    {nameFilter : ℕ} (hsize : PreparedSize s ino size)
    (harea : areaSize s.items (s.ixattrs ino) < 2 ^ 32) (hcount : CountFits size) :
    ∃ bytes, exportedBytes nameFilter size ino s = some bytes ∧
      ∀ dev sb vi, HoldsInode cfg s size bytes dev sb vi →
        (vi.xattrIsize ≤ xattrHeaderSize ∧ s.ixattrs ino = []) ∨
          ∃ inline shared k, StoresXattrs dev sb vi inline shared ∧
            inline ++ shared = areaRecords s.items (s.ixattrs ino) k := by
  obtain ⟨hmod, hzero, hle⟩ := areaSize_le_size ht hsize harea hcount
  have hisize : ∀ {bytes dev sb vi}, HoldsInode cfg s size bytes dev sb vi →
      vi.xattrIsize = size := by
    intro bytes dev sb vi himage
    have hlt : size < 2 ^ 32 := by
      rcases hcount with h | ⟨-, h, -⟩
      · omega
      · rw [xattrHeaderSize] at h
        omega
    rw [XattrInode.xattrIsize, himage.icount]
    exact (icount_survives_iff hmod hlt).mpr hcount
  by_cases hsize0 : size = 0
  · refine ⟨[], if_pos hsize0, fun dev sb vi himage => Or.inl ⟨?_, hzero hsize0⟩⟩
    rw [hisize himage, hsize0]
    exact Nat.zero_le _
  · have hcov := ht.balanced.covered fun id =>
      Nat.le.intro ((Nat.add_comm _ _).trans (count_ixattrs (s := s) ino id))
    obtain ⟨written, heq, hall⟩ := exportXattrs_eq (fun id item hi => ht.balanced.count_pos hi) hcov
    have hroom : xattrHeaderSize +
        4 * ((splitXattrs s.items 0 (s.ixattrs ino)).1.map (sharedIdOf s.items)).length +
          (written.flatMap xattrEntryBytes).length ≤ size := by
      rw [List.length_map, length_flatMap_written hall]
      exact hle hsize0
    have hbytes := @erofsExportXattrIbody_eq nameFilter _ _ _ hroom
    refine ⟨_, by rw [exportedBytes, if_neg hsize0, heq, Option.bind_some, hbytes],
      fun dev sb vi himage => ?_⟩
    rcases Nat.lt_or_ge xattrHeaderSize size with h12 | h12
    · refine Or.inr ?_
      obtain ⟨k, hstores⟩ := exported_stores hbytes hroom hmod h12 (hisize himage)
        (by
          rw [List.length_map]
          exact splitXattrs_length_le _ (Nat.zero_le _))
        (fits_written (fun id hid item hi =>
          fits_of_mem ht hfits (mem_splitXattrs.mp (Or.inr hid)) hi) hall) himage.body
      refine ⟨_, _, k, hstores, ?_⟩
      rw [areaRecords, map_record_written hall, List.map_map]
      refine congrArg _ (List.map_congr_left fun id hid => ?_)
      exact sharedRecord_eq ht hfits himage hid
    · refine Or.inl ⟨by rw [hisize himage]; exact h12, ?_⟩
      by_contra hne
      have hlt := lt_areaSize hne ht.balanced.ixattrs_isSome
      have hle' := hle hsize0
      omega

theorem filterMap_xattrKey (sb : XattrSb) (rs : List XattrRecord) :
    rs.filterMap (xattrKey sb) = ((namedXattrs sb rs).map valued).map Prod.fst := by
  rw [namedXattrs, List.map_filterMap, List.map_filterMap]
  refine List.filterMap_congr fun r _ => ?_
  cases xattrKey sb r <;> rfl

theorem namedXattrs_records (ht : s.Tracked cfg) (htable : TableOf sb cfg.prefixes) {ids : List ℕ}
    (hsub : ids ⊆ s.ixattrs ino) :
    (namedXattrs sb (ids.map (recordOf s.items))).map valued =
      ids.filterMap (keyValue s.items) := by
  rw [namedXattrs, List.map_filterMap, List.filterMap_map]
  refine List.filterMap_congr fun id hid => ?_
  obtain ⟨item, hi⟩ := ht.balanced.ixattrs_live (hsub hid)
  rw [Function.comp_apply, recordOf_some hi, ht.record_key htable hi, keyValue, hi]
  rfl

theorem namedXattrs_area (ht : s.Tracked cfg) (htable : TableOf sb cfg.prefixes) (k : ℕ) :
    ((namedXattrs sb (areaRecords s.items (s.ixattrs ino) k)).map valued).Perm
      (s.xattrsOf ino) := by
  have hperm := splitXattrs_perm s.items (s.ixattrs ino)
  have hzero : namedXattrs sb (List.replicate k zeroRecord) = [] := by
    rw [namedXattrs, List.filterMap_eq_nil_iff]
    intro r hr
    rw [List.eq_of_mem_replicate hr, zeroRecord_key]
    rfl
  have happ : ∀ rs rs', namedXattrs sb (rs ++ rs') = namedXattrs sb rs ++ namedXattrs sb rs' :=
    fun rs rs' => List.filterMap_append
  rw [areaRecords, happ, happ, hzero, List.append_nil, List.map_append,
    namedXattrs_records ht htable fun x hx => hperm.subset (List.mem_append_left _ hx),
    namedXattrs_records ht htable fun x hx => hperm.subset (List.mem_append_right _ hx),
    ← List.filterMap_append]
  exact hperm.filterMap _

/-- With one entry for a name, the reader returns its value. -/
theorem getsValue_of_mem (ht : s.Tracked cfg) (htable : TableOf sb cfg.prefixes)
    {inline shared : List XattrRecord} {k : ℕ} (hs : StoresXattrs dev sb vi inline shared)
    (heq : inline ++ shared = areaRecords s.items (s.ixattrs ino) k)
    (hnodup : ((inline ++ shared).filterMap (xattrKey sb)).Nodup) {key value : List UInt8}
    (hfits : KeyFits key value) (hmem : (key, value) ∈ s.xattrsOf ino) :
    GetsValue dev sb vi key value := by
  obtain ⟨id, hid, hkv⟩ := List.mem_filterMap.mp hmem
  obtain ⟨⟨index, len⟩, hm⟩ := Option.isSome_iff_exists.mp (ht.isSome_of_keyValue hkv)
  obtain ⟨item, hi, hkv⟩ := Option.map_eq_some_iff.mp hkv
  obtain ⟨rfl, rfl⟩ := Prod.mk.inj hkv
  obtain ⟨p, hp, ⟨rest, hrest⟩, rfl⟩ := erofsXattrPrefixMatches_some hm
  have hrec : item.record ∈ inline ++ shared := by
    rw [heq, areaRecords, ← recordOf_some hi]
    rcases mem_splitXattrs.mpr hid with h | h
    · exact List.mem_append_right _ (List.mem_map_of_mem h)
    · exact List.mem_append_left _ (List.mem_append_left _ (List.mem_map_of_mem h))
  have hfind : (inline ++ shared).find? (XattrMatches sb index (item.key.drop p.length) ·) =
      some item.record := by
    refine find_eq_of_nodup hnodup hrec (ht.record_key htable hi)
      (decide_eq_true (ht.record_matches htable hi hm)) fun x _ hx => ?_
    rw [(of_decide_eq_true hx).key_eq hp, ← hrest, List.drop_left]
  intro buffer size
  have hspec := @erofsGetxattr_spec _ _ _ _ _ hs _ _ _ size buffer hm (hfits.2 _ _ hm)
  rw [hfind] at hspec
  exact hspec

theorem getxattr_of_not_mem {inline shared : List XattrRecord}
    (hs : StoresXattrs dev sb vi inline shared) {key : List UInt8}
    (hno : key ∉ (inline ++ shared).filterMap (xattrKey sb)) (buffer : Option Mem) (size : ℕ) :
    (erofsGetxattr dev sb vi key buffer size).1 < 0 := by
  by_cases hlong : ∀ index len, erofsXattrPrefixMatches key = some (index, len) →
      erofsNameLen < (key.drop len).length
  · exact erofsGetxattr_refused hs hlong
  push Not at hlong
  obtain ⟨index, len, hm, hle⟩ := hlong
  have hspec := @erofsGetxattr_spec _ _ _ _ _ hs _ _ _ size buffer hm hle
  rcases hspec with ⟨hio, -⟩ | hspec
  · rw [hio]
    decide
  · cases hfind : (inline ++ shared).find? (XattrMatches sb index (key.drop len) ·) with
    | none =>
        rw [hfind] at hspec
        rw [hspec]
        decide
    | some r =>
        obtain ⟨p, hp, ⟨rest, hrest⟩, rfl⟩ := erofsXattrPrefixMatches_some hm
        have hmatch : XattrMatches sb index (key.drop p.length) r := by
          simpa using List.find?_some hfind
        have hkey := hmatch.key_eq hp
        rw [← hrest, List.drop_left, hrest] at hkey
        exact absurd (List.mem_filterMap.mpr ⟨r, List.mem_of_find?_eq_some hfind, hkey⟩) hno

/-- An area without room behind its header is refused. -/
theorem getxattr_of_small (h : vi.xattrIsize ≤ xattrHeaderSize) (key : List UInt8)
    (buffer : Option Mem) (size : ℕ) : (erofsGetxattr dev sb vi key buffer size).1 < 0 := by
  have herr : ∃ err, initInodeXattrs dev sb vi = .error err ∧ err < 0 := by
    rw [initInodeXattrs]
    split
    · exact ⟨_, rfl, by decide⟩
    next hne =>
      rw [if_pos (by omega)]
      split
      · exact ⟨_, rfl, by decide⟩
      · exact ⟨_, rfl, by decide⟩
  obtain ⟨err, heq, hneg⟩ := herr
  rw [erofsGetxattr, heq]
  exact hneg

end Area

end ErofsUtils
