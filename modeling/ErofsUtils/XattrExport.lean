import ErofsUtils.XattrTable

/-!
# The exported xattr area

`erofs_export_xattr_ibody` writes a header, the ids of the shared items and the entries of the
others, and fills up the size that was prepared. On an image that holds these bytes the reader sees
one record for each item, and empty ones in what was filled up.
-/

namespace ErofsUtils
open ByteMemory CString

def xattrEntryBytes (item : XattrItem) : List UInt8 :=
  erofsWriteXattrEntry item ++ List.replicate (roundUp (4 + item.body) 4 - (4 + item.body)) 0

def leSharedId (id : ℤ) : List UInt8 := leBytes 4 (id % 2 ^ 32).toNat

/-- The buffer of `erofs_export_xattr_ibody` for a name filter and the lists that its loops go
through. -/
def erofsExportXattrIbody (nameFilter size : ℕ) (ids : List ℤ) (written : List XattrItem) :
    Option (List UInt8) :=
  let buf := leBytes 4 nameFilter ++ (leBytes 1 ids.length ++ (List.replicate 7 0 ++
    (ids.flatMap leSharedId ++ written.flatMap xattrEntryBytes)))
  if buf.length ≤ size then some (buf ++ List.replicate (size - buf.length) 0) else none

def XattrItem.record (item : XattrItem) : XattrRecord where
  nameIndex := item.prefixIndex
  name := item.tail
  value := item.value

def zeroRecord : XattrRecord where
  nameIndex := 0
  name := []
  value := []

/-- An entry whose fields hold its lengths and its index. -/
structure XattrItem.Fits (item : XattrItem) : Prop where
  tail_le : item.tail.length ≤ 255
  value_le : item.value.length ≤ 65535
  index_lt : item.prefixIndex < 256

def entrySpace (items : ItemMem) (id : ℕ) : ℕ :=
  ((items id).map fun item => roundUp (4 + item.body) 4).getD 0

def areaSize (items : ItemMem) (ids : List ℕ) : ℕ :=
  xattrHeaderSize + 4 * (splitXattrs items 0 ids).1.length +
    ((splitXattrs items 0 ids).2.map (entrySpace items)).sum

section Entries

variable {item : XattrItem} {mem : Mem} {pos : ℕ}

theorem XattrItem.body_eq (item : XattrItem) : item.body = item.tail.length + item.value.length := by
  have hle := item.prefixLen_le
  rw [body, tail, List.length_drop]
  omega

theorem length_erofsWriteXattrEntry (item : XattrItem) :
    (erofsWriteXattrEntry item).length = 4 + item.body := by
  rw [erofsWriteXattrEntry, List.length_append, XattrEntry.length_encode, List.length_append,
    item.body_eq]

theorem length_xattrEntryBytes (item : XattrItem) :
    (xattrEntryBytes item).length = roundUp (4 + item.body) 4 := by
  have hle : 4 + item.body ≤ roundUp (4 + item.body) 4 := le_roundUp (by decide)
  rw [xattrEntryBytes, List.length_append, length_erofsWriteXattrEntry, List.length_replicate]
  omega

theorem XattrItem.record_size (item : XattrItem) :
    item.record.size = roundUp (4 + item.body) 4 := by
  have hsize : item.record.size = roundUp (4 + item.tail.length + item.value.length) 4 := rfl
  rw [hsize, item.body_eq, Nat.add_assoc]

theorem read_record (hfits : item.Fits) (h : Holds mem pos (erofsWriteXattrEntry item)) :
    XattrRecord.read mem pos = item.record := by
  obtain ⟨hindex, hname, hvalue⟩ := read_written h
  have hlen : item.tail.length < 256 := Nat.lt_succ_of_le hfits.tail_le
  have hval := hvalue hlen (Nat.lt_succ_of_le hfits.value_le)
  rw [Nat.mod_eq_of_lt hfits.index_lt] at hindex
  rw [Nat.mod_eq_of_lt hlen, List.take_length] at hname
  cases hr : XattrRecord.read mem pos with
  | mk nameIndex name value =>
      rw [hr] at hindex hname hval
      dsimp only at hindex hname hval
      rw [hindex, hname, hval]
      rfl

theorem read_zero (h : Holds mem pos (List.replicate 4 0)) :
    XattrRecord.read mem pos = zeroRecord := by
  have hword : ∀ i w, i + w ≤ 4 → leNat mem (pos + i) w = 0 := by
    intro i w
    induction w generalizing i with
    | zero => exact fun _ => rfl
    | succ w ih =>
        intro hle
        have hbyte : mem (pos + i) = 0 := h i 0 (by
          rw [List.getElem?_replicate, if_pos (by omega)])
        rw [leNat, hbyte, Nat.add_assoc, ih (i + 1) (by omega)]
        rfl
  have hlen : leNat mem pos 1 = 0 := hword 0 1 (by omega)
  rw [XattrRecord.read, XattrEntry.decode, hlen, hword 1 1 (by omega), hword 2 2 (by omega)]
  rfl

theorem entries_zero (k : ℕ) (h : Holds mem pos (List.replicate (4 * k) 0)) :
    XattrEntries mem pos (4 * k) (List.replicate k zeroRecord) := by
  induction k generalizing pos with
  | zero => exact XattrEntries.nil pos
  | succ k ih =>
      rw [Nat.mul_succ, Nat.add_comm, List.replicate_add, holds_append,
        List.length_replicate] at h
      have hread := read_zero h.1
      have hsize : (XattrRecord.read mem pos).size = 4 := by
        rw [hread]
        rfl
      have hcons := XattrEntries.cons (by
          rw [hsize]
          exact ih h.2)
      rw [hread, show zeroRecord.size = 4 from rfl] at hcons
      rw [Nat.mul_succ, Nat.add_comm, List.replicate_succ]
      exact hcons

theorem entries_written {written : List XattrItem} {k : ℕ} (hfits : ∀ item ∈ written, item.Fits)
    (h : Holds mem pos (written.flatMap xattrEntryBytes ++ List.replicate (4 * k) 0)) :
    XattrEntries mem pos ((written.flatMap xattrEntryBytes).length + 4 * k)
      (written.map XattrItem.record ++ List.replicate k zeroRecord) := by
  induction written generalizing pos with
  | nil =>
      rw [List.flatMap_nil, List.length_nil, Nat.zero_add]
      exact entries_zero k h
  | cons item written ih =>
      rw [List.flatMap_cons, List.append_assoc, holds_append] at h
      have hread : XattrRecord.read mem pos = item.record := by
        refine read_record (hfits item List.mem_cons_self) ?_
        exact (holds_append.mp h.1).1
      have hsize : (XattrRecord.read mem pos).size = (xattrEntryBytes item).length := by
        rw [hread, item.record_size, length_xattrEntryBytes]
      have hrest := ih (fun item' hmem => hfits item' (List.mem_cons_of_mem item hmem)) h.2
      rw [← hsize] at hrest
      have hcons := XattrEntries.cons hrest
      rw [hsize, hread] at hcons
      rw [List.flatMap_cons, List.length_append, Nat.add_assoc]
      exact hcons

end Entries

section Sizes

variable {items : ItemMem}

theorem xattrListSize_eq (ids : List ℕ) : ∀ {n ret : ℕ}, ret % 4 = 0 →
    (∀ id ∈ ids, (items id).isSome) →
    ret + 4 * (splitXattrs items n ids).1.length +
      ((splitXattrs items n ids).2.map (entrySpace items)).sum < 2 ^ 32 →
    xattrListSize (ids.filterMap items) n ret =
      ret + 4 * (splitXattrs items n ids).1.length +
        ((splitXattrs items n ids).2.map (entrySpace items)).sum := by
  induction ids with
  | nil =>
      intro n ret hmod hlive hlt
      simp [xattrListSize, splitXattrs]
  | cons id ids ih =>
      intro n ret hmod hlive hlt
      obtain ⟨item, hi⟩ := Option.isSome_iff_exists.mp (hlive id List.mem_cons_self)
      have hlive' : ∀ id ∈ ids, (items id).isSome := fun x hx =>
        hlive x (List.mem_cons_of_mem id hx)
      have hany : (items id).any (·.sharedXattrId < 0) = decide (item.sharedXattrId < 0) := by
        rw [hi, Option.any_some]
      have hspace : entrySpace items id = roundUp (4 + item.body) 4 := by
        rw [entrySpace, hi, Option.map_some, Option.getD_some]
      rw [List.filterMap_cons_some hi, xattrListSize]
      rw [splitXattrs, hany] at hlt ⊢
      simp only [decide_eq_true_eq] at hlt ⊢
      by_cases hinline : item.sharedXattrId < 0 ∨ ucharMax ≤ n
      · rw [if_pos hinline] at hlt ⊢
        rw [if_neg (by omega)]
        simp only [List.map_append, List.map_cons, List.map_nil, List.sum_append, List.sum_cons,
          List.sum_nil, hspace] at hlt ⊢
        have halign : erofsNextXattrAlign ret item = ret + roundUp (4 + item.body) 4 := by
          rw [erofsNextXattrAlign, Nat.add_assoc, roundUp_add (by decide) (Nat.dvd_of_mod_eq_zero hmod), u32_of_lt (by omega)]
        have hround := roundUp_four_eq (4 + item.body)
        rw [halign, ih (by omega) hlive' (by omega)]
        omega
      · rw [if_neg hinline] at hlt ⊢
        rw [if_pos (by omega)]
        simp only [List.length_cons] at hlt ⊢
        rw [u32_of_lt (by omega), ih (by omega) hlive' (by omega)]
        omega

theorem xattrsSize_eq {ids : List ℕ} (hne : ids ≠ []) (hlive : ∀ id ∈ ids, (items id).isSome)
    (hlt : areaSize items ids < 2 ^ 32) : xattrsSize (ids.filterMap items) = areaSize items ids := by
  have hfilter : ids.filterMap items ≠ [] := by
    obtain ⟨id, hid⟩ := List.exists_mem_of_ne_nil ids hne
    obtain ⟨item, hi⟩ := Option.isSome_iff_exists.mp (hlive id hid)
    exact List.ne_nil_of_mem (List.mem_filterMap.mpr ⟨id, hid, hi⟩)
  rw [xattrsSize, if_neg hfilter]
  exact xattrListSize_eq ids rfl hlive hlt

theorem erofsPrepareXattrIbody_size {fuel target size : ℕ} {ixattrs : List XattrItem}
    {noroom : Bool} {ret : ℤ} (hret : 0 ≤ ret)
    (h : erofsPrepareXattrIbody fuel ixattrs target noroom = some (ret, size)) :
    size = max (xattrsSize ixattrs) (roundUp target 4) ∧ size % 4 = 0 := by
  have hmod := xattrsSize_mod ixattrs
  have hround := roundUp_four_eq target
  unfold erofsPrepareXattrIbody at h
  split at h
  · cases h
  next r hr =>
    have htop : target ≤ 2 ^ 32 - 4 := by
      by_contra hgt
      rw [fillXattrSize_none hmod (xattrsSize_lt ixattrs) (not_le.mp hgt)] at hr
      cases hr
    obtain rfl := fillXattrSize_unique hmod htop hr
    split at h
    · cases h
      exact absurd hret (by decide)
    · cases h
      exact ⟨rfl, by omega⟩

end Sizes

section Image

variable {dev : XattrDev} {sb : XattrSb} {vi : XattrInode}

/-- The byte of the header counts the shared ids, and there are no more than it can count. -/
theorem splitXattrs_length_le {items : ItemMem} (ids : List ℕ) : ∀ {n : ℕ}, n ≤ ucharMax →
    (splitXattrs items n ids).1.length + n ≤ ucharMax := by
  induction ids with
  | nil =>
      intro n hn
      rw [splitXattrs, List.length_nil, Nat.zero_add]
      exact hn
  | cons id ids ih =>
      intro n hn
      rw [splitXattrs]
      split
      · exact ih hn
      next hroom =>
        rw [List.length_cons, Nat.add_assoc, Nat.add_comm 1]
        exact ih (by omega)

theorem length_written (written : List XattrItem) :
    (written.flatMap xattrEntryBytes).length % 4 = 0 := by
  induction written with
  | nil => rfl
  | cons item written ih =>
      have hround := roundUp_four_eq (4 + item.body)
      rw [List.flatMap_cons, List.length_append, length_xattrEntryBytes]
      omega

theorem length_ibody (nameFilter : ℕ) (ids : List ℤ) (written : List XattrItem) :
    (leBytes 4 nameFilter ++ (leBytes 1 ids.length ++ (List.replicate 7 0 ++
      (ids.flatMap leSharedId ++ written.flatMap xattrEntryBytes)))).length =
      xattrHeaderSize + 4 * ids.length + (written.flatMap xattrEntryBytes).length := by
  have hids : (ids.flatMap leSharedId).length = 4 * ids.length :=
    length_flatMap_records (fun _ => length_leBytes 4 _) ids
  simp only [List.length_append, length_leBytes, List.length_replicate, hids, xattrHeaderSize]
  omega

theorem erofsExportXattrIbody_eq {nameFilter size : ℕ} {ids : List ℤ} {written : List XattrItem}
    (hle : xattrHeaderSize + 4 * ids.length + (written.flatMap xattrEntryBytes).length ≤ size) :
    erofsExportXattrIbody nameFilter size ids written =
      some (leBytes 4 nameFilter ++ (leBytes 1 ids.length ++ (List.replicate 7 0 ++
        (ids.flatMap leSharedId ++ written.flatMap xattrEntryBytes))) ++
        List.replicate (size - (xattrHeaderSize + 4 * ids.length +
          (written.flatMap xattrEntryBytes).length)) 0) := by
  unfold erofsExportXattrIbody
  dsimp only
  rw [length_ibody, if_pos hle]

theorem length_flatMap_written {items : ItemMem} {ids : List ℕ} {written : List XattrItem}
    (h : List.Forall₂ (SameItem items) ids written) :
    (written.flatMap xattrEntryBytes).length = (ids.map (entrySpace items)).sum := by
  induction h with
  | nil => rfl
  | @cons id item ids written hitem _ ih =>
      obtain ⟨orig, horig, heq⟩ := hitem
      have hbody : item.body = orig.body := by
        rw [heq]
        rfl
      rw [List.flatMap_cons, List.length_append, length_xattrEntryBytes, ih, List.map_cons,
        List.sum_cons, entrySpace, horig, hbody]
      rfl

theorem exported_stores {nameFilter size : ℕ} {ids : List ℤ} {written : List XattrItem}
    {bytes : List UInt8} (h : erofsExportXattrIbody nameFilter size ids written = some bytes)
    (hle : xattrHeaderSize + 4 * ids.length + (written.flatMap xattrEntryBytes).length ≤ size)
    (hmod : size % 4 = 0) (h12 : xattrHeaderSize < size) (hsize : vi.xattrIsize = size)
    (hids : ids.length ≤ ucharMax) (hfits : ∀ item ∈ written, item.Fits)
    (hheld : Holds (dev.blockMem sb) (vi.xattrPos sb) bytes) :
    ∃ k, StoresXattrs dev sb vi (written.map XattrItem.record ++ List.replicate k zeroRecord)
      (ids.map fun id => dev.sharedRecord sb (id % 2 ^ 32).toNat) := by
  rw [erofsExportXattrIbody_eq hle] at h
  cases h
  have hwritten := length_written written
  have hlenIds : (ids.flatMap leSharedId).length = 4 * ids.length :=
    length_flatMap_records (fun _ => length_leBytes 4 _) ids
  have h255 : ucharMax = 255 := rfl
  have h12' : xattrHeaderSize = 12 := rfl
  obtain ⟨k, hk⟩ : ∃ k, size - (xattrHeaderSize + 4 * ids.length +
      (written.flatMap xattrEntryBytes).length) = 4 * k := by
    exact ⟨(size - (xattrHeaderSize + 4 * ids.length +
      (written.flatMap xattrEntryBytes).length)) / 4, by omega⟩
  rw [hk] at hheld
  simp only [List.append_assoc, holds_append, length_leBytes, List.length_replicate, hlenIds] at hheld
  obtain ⟨-, hcount, -, hshared, hentries⟩ := hheld
  have hbyte : (dev.blockMem sb (vi.xattrPos sb + 4)).toNat = ids.length := by
    have hone := leNat_of_holds_of_lt hcount (by omega)
    rw [leNat, leNat, Nat.mul_zero, Nat.add_zero] at hone
    exact hone
  have hspan : xattrHeaderSpan (dev.blockMem sb) (vi.xattrPos sb) =
      xattrHeaderSize + 4 * ids.length := by
    rw [xattrHeaderSpan, hbyte]
  refine ⟨k, ⟨by omega, by rw [hspan]; omega, ?_, ?_⟩⟩
  · have hall := entries_written hfits (holds_append.mpr hentries)
    rw [hspan, hsize]
    have hpos : vi.xattrPos sb + 4 + 1 + 7 + 4 * ids.length =
        vi.xattrPos sb + (xattrHeaderSize + 4 * ids.length) := by omega
    have hlen : (written.flatMap xattrEntryBytes).length + 4 * k =
        size - (xattrHeaderSize + 4 * ids.length) := by omega
    rw [hpos, hlen] at hall
    exact hall
  · rw [XattrDev.sharedIds, hbyte, List.map_map]
    refine List.ext_getElem (by simp) fun i hi hi' => ?_
    rw [List.length_map] at hi
    have hrec := holds_record (fun _ => length_leBytes 4 _) hshared (List.getElem?_eq_getElem hi)
    have hid := leNat_of_holds_of_lt hrec (by omega)
    rw [List.getElem_map, List.getElem_map, List.getElem_range, Function.comp_apply, ← hid]
    rfl

end Image

end ErofsUtils
