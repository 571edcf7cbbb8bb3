import ErofsUtils.SuperRoundTrip
import ErofsUtils.XattrDump

/-!
# Long xattr name prefixes

The prefixes that `mkfs.erofs` is given are kept in a list, written as records to the packed file,
and read back by the reader of the superblock. An xattr whose name has one of them is stored with
its index and the rest of the name only.
-/

namespace ErofsUtils
open ByteMemory CString

def eOverflow : ℤ := -75

/-- `struct ea_type_node`, with what `erofs_xattr_insert_name_prefix` checks. -/
structure EaTypeNode where
  pre : List UInt8
  index : ℕ
  baseIndex : ℕ
  baseLen : ℕ
  base_eq : erofsXattrPrefixMatches pre = some (baseIndex, baseLen)
  length_le : pre.length ≤ 255

def erofsXattrInsertNamePrefix (nodes : List EaTypeNode) (pre : List UInt8) :
    Except ℤ (List EaTypeNode) :=
  if hlong : 128 ≤ nodes.length ∨ 255 < pre.length then .error eOverflow
  else match hbase : erofsXattrPrefixMatches pre with
    | none => .error eNoAttr
    | some (baseIndex, baseLen) =>
      .ok (nodes ++ [{
        pre
        index := xattrLongPrefix ||| nodes.length
        baseIndex
        baseLen
        base_eq := hbase
        length_le := by omega }])

def configuredPrefixes (pres : List (List UInt8)) : Except ℤ (List EaTypeNode) :=
  pres.foldlM erofsXattrInsertNamePrefix []

/-- What is written for each prefix: its base index and its infix. -/
def prefixPairs (nodes : List EaTypeNode) : List (UInt8 × List UInt8) :=
  nodes.map fun t => (UInt8.ofNat t.baseIndex, t.pre.drop t.baseLen)

/-- `erofs_xattr_write_name_prefixes` at an offset of the packed file: the file, and
`xattr_prefix_start` and `xattr_prefix_count`. -/
def writeNamePrefixes (nodes : List EaTypeNode) (file : Mem) (offset : ℕ) :
    Except ℤ (Mem × ℕ × ℕ) :=
  if nodes.length = 0 then .ok (file, 0, 0)
  else if 2 ^ 32 - 1 < offset then .error eOverflow
  else
    let offset := roundUp offset 4
    .ok (erofsXattrWriteNamePrefixes file offset (prefixPairs nodes), u32 offset / 4, nodes.length)

/-- The item that `get_xattritem` makes: it has the first long prefix that its key has. -/
def newXattritem (nodes : List EaTypeNode) (key value : List UInt8) : Option XattrItem :=
  match hbase : erofsXattrPrefixMatches key with
  | none => none
  | some (baseIndex, baseLen) =>
    match htype : nodes.find? fun t => baseIndex = t.baseIndex ∧ t.pre <+: key with
    | some t =>
      some {
        key, value, count := 1, sharedXattrId := -1, prefixIndex := t.index, baseIndex
        prefixLen := t.pre.length
        prefixLen_le := (by simpa using List.find?_some htype :
          baseIndex = t.baseIndex ∧ t.pre <+: key).2.length_le }
    | none =>
      some {
        key, value, count := 1, sharedXattrId := -1, prefixIndex := baseIndex, baseIndex
        prefixLen := baseLen
        prefixLen_le := by
          obtain ⟨p, -, hp, rfl⟩ := erofsXattrPrefixMatches_some hbase
          exact hp.length_le }

def XattrPrefixItem.record (pf : XattrPrefixItem) : List UInt8 := pf.baseIndex :: pf.infixBytes

section Configured

variable {nodes : List EaTypeNode} {pres : List (List UInt8)}

def Numbered (nodes : List EaTypeNode) : Prop :=
  nodes.length ≤ 128 ∧ ∀ i t, nodes[i]? = some t → t.index = xattrLongPrefix + i

theorem xattrLongPrefix_or {n : ℕ} (h : n < 128) : xattrLongPrefix ||| n = xattrLongPrefix + n := by
  have hor := Nat.two_pow_add_eq_or_of_lt (i := 7) h 1
  rw [Nat.mul_one] at hor
  exact hor.symm

theorem insertNamePrefix_numbered {nodes' : List EaTypeNode} {pre : List UInt8}
    (hn : Numbered nodes) (h : erofsXattrInsertNamePrefix nodes pre = .ok nodes') :
    Numbered nodes' := by
  obtain ⟨hlen, hindex⟩ := hn
  unfold erofsXattrInsertNamePrefix at h
  split at h
  · cases h
  next hroom =>
  split at h
  · cases h
  · cases h
    refine ⟨by rw [List.length_append, List.length_singleton]; omega, fun i t hi => ?_⟩
    rcases Nat.lt_or_ge i nodes.length with hlt | hge
    · rw [List.getElem?_append_left hlt] at hi
      exact hindex i t hi
    · rw [List.getElem?_append_right hge, List.getElem?_singleton] at hi
      split at hi
      · cases hi
        dsimp only
        rw [xattrLongPrefix_or (by omega)]
        omega
      · cases hi

theorem configuredPrefixes_numbered (h : configuredPrefixes pres = .ok nodes) :
    Numbered nodes := by
  have hfold : ∀ (pres : List (List UInt8)) (acc : List EaTypeNode), Numbered acc →
      pres.foldlM erofsXattrInsertNamePrefix acc = .ok nodes → Numbered nodes := by
    intro pres
    induction pres with
    | nil =>
        intro acc hacc h
        cases h
        exact hacc
    | cons pre pres ih =>
        intro acc hacc h
        rw [List.foldlM_cons] at h
        cases hins : erofsXattrInsertNamePrefix acc pre with
        | error err =>
            rw [hins] at h
            cases h
        | ok acc' =>
            rw [hins] at h
            exact ih acc' (insertNamePrefix_numbered hacc hins) h
  refine hfold pres [] ⟨Nat.zero_le _, fun i t hi => ?_⟩ h
  simp at hi

end Configured

section Names

variable {nodes : List EaTypeNode} {key value : List UInt8} {item : XattrItem} {sb : XattrSb}

/-- The prefix that an item is stored with: a long one, or the predefined one. -/
theorem newXattritem_spec (h : newXattritem nodes key value = some item) :
    item.key = key ∧ item.value = value ∧
      ((∃ (i : ℕ) (t : EaTypeNode), nodes[i]? = some t ∧ t.pre <+: key ∧ item.prefixIndex = t.index ∧
          item.prefixLen = t.pre.length) ∨
        ∃ p, xattrTypes item.prefixIndex = some p ∧ p <+: key ∧ item.prefixLen = p.length) := by
  unfold newXattritem at h
  split at h
  · cases h
  · next b l hbase =>
      split at h
      · next t htype =>
          cases h
          have hmatch := List.find?_some htype
          simp only [decide_eq_true_eq] at hmatch
          obtain ⟨i, hi⟩ := List.mem_iff_getElem?.mp (List.mem_of_find?_eq_some htype)
          exact ⟨rfl, rfl, Or.inl ⟨i, t, hi, hmatch.2, rfl, rfl⟩⟩
      · cases h
        obtain ⟨p, hp, hpre, hlen⟩ := erofsXattrPrefixMatches_some hbase
        exact ⟨rfl, rfl, Or.inr ⟨p, hp, hpre, hlen⟩⟩

/-- The table that the records of the configured prefixes make. -/
def TableOf (sb : XattrSb) (nodes : List EaTypeNode) : Prop :=
  sb.xattrPrefixes.map XattrPrefixItem.record = (prefixPairs nodes).map fun p => p.1 :: p.2

theorem xattrBaseInfix_of_table (htable : TableOf sb nodes) (hn : Numbered nodes) {i : ℕ}
    {t : EaTypeNode} (hi : nodes[i]? = some t) :
    ∃ p, xattrTypes t.baseIndex = some p ∧
      xattrBaseInfix sb t.index = some (t.baseIndex, t.pre.drop p.length) ∧
      t.pre = p ++ t.pre.drop p.length := by
  obtain ⟨p, hp, ⟨rest, hrest⟩, hlen⟩ := erofsXattrPrefixMatches_some t.base_eq
  have hlt : i < nodes.length := (List.getElem?_eq_some_iff.mp hi).1
  have hlen128 := hn.1
  have hindex := hn.2 i t hi
  have h128 : xattrLongPrefix = 128 := rfl
  have hitem : sb.xattrPrefixes[i]? =
      some ⟨UInt8.ofNat t.baseIndex, t.pre.drop p.length, by
        have hle := t.length_le
        rw [List.length_drop]
        omega⟩ := by
    have hget := congrArg (·[i]?) htable
    simp only [List.getElem?_map, prefixPairs, hi, Option.map_some] at hget
    obtain ⟨pf, hpf, hrec⟩ := Option.map_eq_some_iff.mp hget
    rw [hpf]
    obtain ⟨base, infixBytes, hle⟩ := pf
    cases hrec
    congr
  have hbase : (UInt8.ofNat t.baseIndex).toNat = t.baseIndex := by
    have h7 := (xattrTypes_lt hp).1
    rw [xattrTypesSize] at h7
    rw [UInt8.toNat_ofNat']
    omega
  refine ⟨p, hp, ?_, ?_⟩
  · rw [xattrBaseInfix, if_pos (by omega), xattrLongItem, hindex, h128, Nat.add_mod_left,
      Nat.mod_eq_of_lt (by omega), hitem, Option.map_some, hbase]
  · rw [← hrest, List.drop_left]

theorem xattrKey_of_item (htable : TableOf sb nodes) (hn : Numbered nodes)
    (h : newXattritem nodes key value = some item) {r : XattrRecord}
    (hr : r.nameIndex = item.prefixIndex) :
    xattrKey sb r = some (key.take item.prefixLen ++ r.name) := by
  obtain ⟨-, -, ⟨i, t, hi, hpre, hindex, hlen⟩ | ⟨p, hp, hpre, hlen⟩⟩ := newXattritem_spec h
  · obtain ⟨p, hp, hbase, hsplit⟩ := xattrBaseInfix_of_table htable hn hi
    have hmatch : XattrMatches sb t.baseIndex (t.pre.drop p.length ++ r.name) r :=
      ⟨_, by rw [hr, hindex, hbase], rfl⟩
    rw [hmatch.key_eq hp, ← List.append_assoc, ← hsplit, hlen, ← List.prefix_iff_eq_take.mp hpre]
  · obtain ⟨hlt, h0⟩ := xattrTypes_lt hp
    have hshort : xattrBaseInfix sb r.nameIndex = some (item.prefixIndex, []) := by
      rw [hr, xattrBaseInfix, if_neg]
      rw [xattrTypesSize] at hlt
      rw [xattrLongPrefix]
      omega
    have hmatch : XattrMatches sb item.prefixIndex r.name r := ⟨[], hshort, rfl⟩
    rw [hmatch.key_eq hp, hlen, ← List.prefix_iff_eq_take.mp hpre]

theorem prefixIndex_lt (hn : Numbered nodes) (h : newXattritem nodes key value = some item) :
    item.prefixIndex < 256 := by
  have h128 : xattrLongPrefix = 128 := rfl
  obtain ⟨-, -, ⟨i, t, hi, -, hindex, -⟩ | ⟨p, hp, -, -⟩⟩ := newXattritem_spec h
  · have hlt : i < nodes.length := (List.getElem?_eq_some_iff.mp hi).1
    have hnum := hn.2 i t hi
    have hle := hn.1
    omega
  · have hlt := (xattrTypes_lt hp).1
    rw [xattrTypesSize] at hlt
    omega

theorem read_written {mem : Mem} {pos : ℕ} (h : Holds mem pos (erofsWriteXattrEntry item)) :
    (XattrRecord.read mem pos).nameIndex = item.prefixIndex % 256 ∧
      (XattrRecord.read mem pos).name = item.tail.take (item.tail.length % 256) ∧
      (item.tail.length < 256 → item.value.length < 65536 →
        (XattrRecord.read mem pos).value = item.value) := by
  unfold erofsWriteXattrEntry XattrEntry.encode at h
  simp only [holds_append, length_leBytes, List.length_append, Nat.add_assoc, Nat.reduceAdd] at h
  obtain ⟨⟨⟨hlen, hindex⟩, hsize⟩, htail, hvalue⟩ := h
  have hname := leNat_of_holds hlen
  have hidx := leNat_of_holds hindex
  have hval := leNat_of_holds hsize
  rw [pow_one] at hname hidx
  simp only [XattrRecord.read, XattrEntry.decode, hname, hidx, hval]
  refine ⟨trivial, ?_, fun hshort hsmall => ?_⟩
  · rw [← take_slice _ (Nat.mod_le _ 256), slice_of_holds htail rfl]
  · rw [Nat.mod_eq_of_lt hshort, Nat.mod_eq_of_lt (by simpa using hsmall), Nat.add_assoc]
    exact slice_of_holds hvalue rfl

end Names

/-- A file system whose superblock names the table, with a packed inode that reads as the packed
file up to where the table ends, or further. -/
structure ReadsTable (env : SbEnv) (dsb : SuperBlock) (file : Mem) (start count fin : ℕ) : Prop where
  start_eq : dsb.xattrPrefixStart = start
  count_eq : dsb.xattrPrefixCount = count
  packed : dsb.packedNid ≠ 0
  pread : ∃ size, fin ≤ size ∧ ∀ off n, off + n ≤ size →
    env.pread dsb.packedNid off n = .ok (slice file off n)

/-- Whatever else the packed file holds, the table that is written at an offset of it is read back,
and a name that is stored with it is found again. -/
def PrefixesRoundTrip (nodes : List EaTypeNode) (offset : ℕ) (item : XattrItem) : Prop :=
  ∀ file file' start count, writeNamePrefixes nodes file offset = .ok (file', start, count) →
    ∀ env dsb, ReadsTable env dsb file' start count
        (prefixesEnd (roundUp offset 4) (prefixPairs nodes)) →
      erofsXattrPrefixesInit env dsb = .ok ((prefixPairs nodes).map fun p => p.1 :: p.2) ∧
        ∀ sb, TableOf sb nodes → ∀ mem pos, Holds mem pos (erofsWriteXattrEntry item) →
          xattrKey sb (XattrRecord.read mem pos) = some item.key

section RoundTrip

variable {nodes : List EaTypeNode} {pres : List (List UInt8)} {offset : ℕ} {item : XattrItem}
variable {key value : List UInt8}

theorem prefixPairs_length_le (nodes : List EaTypeNode) :
    ∀ p ∈ prefixPairs nodes, p.2.length ≤ 255 := by
  intro p hp
  obtain ⟨t, -, rfl⟩ := List.mem_map.mp hp
  have hle := t.length_le
  rw [List.length_drop]
  omega

theorem prefixesInit_ok {file file' : Mem} {start count : ℕ}
    (h : writeNamePrefixes nodes file offset = .ok (file', start, count))
    (hnear : nodes = [] ∨ offset ≤ 2 ^ 32 - 4) {env : SbEnv} {dsb : SuperBlock}
    (hread : ReadsTable env dsb file' start count
      (prefixesEnd (roundUp offset 4) (prefixPairs nodes))) :
    erofsXattrPrefixesInit env dsb = .ok ((prefixPairs nodes).map fun p => p.1 :: p.2) := by
  unfold writeNamePrefixes at h
  split at h
  · next hnil =>
      cases h
      rw [List.length_eq_zero_iff] at hnil
      rw [erofsXattrPrefixesInit, hread.count_eq, hnil]
      rfl
  next hne =>
  split at h
  · cases h
  cases h
  obtain ⟨size, hsize, hpread⟩ := hread.pread
  have hoff : offset ≤ 2 ^ 32 - 4 := by
    rcases hnear with rfl | hoff
    · exact absurd rfl hne
    · exact hoff
  have hround := roundUp_four offset
  have hstart : u32 (roundUp offset 4) / 4 * 4 = roundUp offset 4 := by
    rw [u32_of_lt (by omega)]
    omega
  have hlen : nodes.length = (prefixPairs nodes).length := by rw [prefixPairs, List.length_map]
  rw [erofsXattrPrefixesInit, hread.count_eq, hread.start_eq, hlen]
  apply prefixesLoop_ok _ (fun _ => hread.packed) (prefixPairs_length_le nodes) _ hpread hsize
  rw [hstart, roundUp_of_dvd (by decide) hround.2.2]

/-- A name is found again unless it is too long behind its prefix. -/
theorem xattrKey_written_iff {sb : XattrSb} (htable : TableOf sb nodes) (hn : Numbered nodes)
    (h : newXattritem nodes key value = some item) {mem : Mem} {pos : ℕ}
    (hheld : Holds mem pos (erofsWriteXattrEntry item)) :
    xattrKey sb (XattrRecord.read mem pos) = some item.key ↔ item.tail.length ≤ 255 := by
  obtain ⟨hindex, hname, -⟩ := read_written hheld
  rw [Nat.mod_eq_of_lt (prefixIndex_lt hn h)] at hindex
  obtain ⟨hkey, -⟩ := newXattritem_spec h
  rw [xattrKey_of_item htable hn h hindex, hname, Option.some.injEq]
  have hsplit : item.key = key.take item.prefixLen ++ item.tail := by
    rw [XattrItem.tail, hkey, List.take_append_drop]
  constructor
  · intro heq
    rw [hsplit, List.append_right_inj] at heq
    have hlen := congrArg List.length heq
    rw [List.length_take] at hlen
    omega
  · intro hle
    rw [Nat.mod_eq_of_lt (by omega), List.take_length, ← hsplit]

/-- The table of the configured prefixes, as the reader of names keeps it. -/
def tableSb (nodes : List EaTypeNode) : XattrSb where
  blkszbits := 12
  metaBlkaddr := 0
  xattrBlkaddr := 0
  xattrPrefixes := nodes.map fun t =>
    ⟨UInt8.ofNat t.baseIndex, t.pre.drop t.baseLen, by
      have hle := t.length_le
      rw [List.length_drop]
      omega⟩
  blkszbits_ge := XattrSb.bits4k_ge
  blkszbits_le := XattrSb.bits4k_le

theorem tableOf_tableSb (nodes : List EaTypeNode) : TableOf (tableSb nodes) nodes := by
  rw [TableOf, tableSb, prefixPairs, List.map_map, List.map_map]
  rfl

/-- An image that names a table in the packed file. -/
def tableSuperBlock (start count : ℕ) : SuperBlock :=
  { SuperBlock.decode (fun _ => 0) 0 with
    xattrPrefixStart := start, xattrPrefixCount := count, packedNid := 36 }

def tableEnv (file : Mem) : SbEnv where
  disk := fun _ => 0
  maxBlkszbits := 16
  pread := fun _ off n => .ok (slice file off n)

theorem readsTable_tableEnv (file : Mem) (start count fin : ℕ) :
    ReadsTable (tableEnv file) (tableSuperBlock start count) file start count fin :=
  ⟨rfl, rfl, (by decide : 36 ≠ 0), fin, le_rfl, fun _ _ _ => rfl⟩

theorem prefixesInit_wrapped (hne : nodes ≠ []) (hlow : 2 ^ 32 - 4 < offset)
    (hhigh : offset < 2 ^ 32) :
    ∃ file' start count, writeNamePrefixes nodes (fun _ => 0) offset = .ok (file', start, count) ∧
      erofsXattrPrefixesInit (tableEnv file') (tableSuperBlock start count) =
        .error .efscorrupted := by
  have hround := roundUp_four offset
  have hzero (k : ℕ) (hk : k < roundUp offset 4) :
      erofsXattrWriteNamePrefixes (fun _ => 0) (roundUp offset 4) (prefixPairs nodes) k = 0 :=
    writePrefixes_of_lt _ hk
  refine ⟨_, _, _, by
    rw [writeNamePrefixes, if_neg (by simpa using hne), if_neg (by omega)], ?_⟩
  generalize erofsXattrWriteNamePrefixes (fun _ => 0) (roundUp offset 4) (prefixPairs nodes) = file
    at hzero ⊢
  have hstart : u32 (roundUp offset 4) / 4 = 0 := by
    rw [u32]
    omega
  have hword : leNat (fun k => (slice file 0 2).getD k 0) 0 2 = 0 := by
    simp [slice, leNat, hzero 0 (by omega), hzero 1 (by omega)]
  have hmeta : erofsReadMetadata (tableEnv file) (tableSuperBlock 0 nodes.length).blkszbits 36 0 =
      .error .efscorrupted := by
    rw [erofsReadMetadata, if_pos (by decide), erofsReadMetadataNid]
    change (if leNat (fun k => (slice file 0 2).getD k 0) 0 2 = 0 then _ else _) = _
    rw [if_pos hword]
  obtain ⟨n, hn⟩ : ∃ n, nodes.length = n + 1 :=
    Nat.exists_eq_add_one.mpr (List.length_pos_iff.mpr hne)
  rw [hstart]
  change prefixesLoop (tableEnv file) (tableSuperBlock 0 nodes.length).blkszbits 36 nodes.length 0 = _
  rw [hn, prefixesLoop, ← hn, hmeta]

end RoundTrip

/-- The table and a name stored with it make the round trip exactly when the writer refuses the
offset, or it is rounded up within 32 bits and the name is at most 255 bytes longer than its
prefix. -/
theorem prefixesRoundTrip_iff {pres : List (List UInt8)} {nodes : List EaTypeNode}
    {key value : List UInt8} {item : XattrItem} (offset : ℕ)
    (hnodes : configuredPrefixes pres = .ok nodes)
    (hitem : newXattritem nodes key value = some item) :
    PrefixesRoundTrip nodes offset item ↔
      (nodes ≠ [] ∧ 2 ^ 32 ≤ offset) ∨
        ((nodes = [] ∨ offset ≤ 2 ^ 32 - 4) ∧ item.tail.length ≤ 255) := by
  have hn := configuredPrefixes_numbered hnodes
  constructor
  · intro hround
    by_cases hfar : nodes ≠ [] ∧ 2 ^ 32 ≤ offset
    · exact Or.inl hfar
    refine Or.inr ?_
    have hwrite : ∃ file' start count,
        writeNamePrefixes nodes (fun _ => 0) offset = .ok (file', start, count) := by
      unfold writeNamePrefixes
      split
      · exact ⟨_, _, _, rfl⟩
      · next hne =>
          have hne' : nodes ≠ [] := fun h => hne (by rw [h]; rfl)
          rw [if_neg (by rw [not_and] at hfar; have h := hfar hne'; omega)]
          exact ⟨_, _, _, rfl⟩
    constructor
    · by_contra hgap
      rw [not_or] at hgap
      obtain ⟨hne, hlow⟩ := hgap
      rw [not_and] at hfar
      obtain ⟨file', start, count, hw, hinit⟩ :=
        prefixesInit_wrapped hne (Nat.not_le.mp hlow) (Nat.not_le.mp (hfar hne))
      have hok := (hround _ _ _ _ hw _ _ (readsTable_tableEnv file' start count _)).1
      rw [hinit] at hok
      cases hok
    · obtain ⟨file', start, count, hw⟩ := hwrite
      have hkey := (hround _ _ _ _ hw _ _ (readsTable_tableEnv file' start count _)).2
        (tableSb nodes) (tableOf_tableSb nodes) (store (fun _ => 0) 0 (erofsWriteXattrEntry item)) 0
        (holds_store _ _ _)
      exact (xattrKey_written_iff (tableOf_tableSb nodes) hn hitem (holds_store _ _ _)).mp hkey
  · rintro hcond file file' start count hw env dsb hread
    have hnear : (nodes = [] ∨ offset ≤ 2 ^ 32 - 4) ∧ item.tail.length ≤ 255 := by
      rcases hcond with ⟨hne, hfar⟩ | hcond
      · rw [writeNamePrefixes, if_neg (by simpa using hne), if_pos (by omega)] at hw
        cases hw
      · exact hcond
    refine ⟨prefixesInit_ok hw hnear.1 hread, fun sb htable mem pos hheld => ?_⟩
    exact (xattrKey_written_iff htable hn hitem hheld).mpr hnear.2

def mimePrefix : List UInt8 := xattrUserPrefix ++ asciiBytes ['m', 'i', 'm', 'e', '_']

def mimeKey : List UInt8 := mimePrefix ++ asciiBytes ['t', 'y', 'p', 'e']

def mimeNode : EaTypeNode where
  pre := mimePrefix
  index := 128
  baseIndex := 1
  baseLen := 5
  base_eq := by decide
  length_le := by decide

def mimeItem : XattrItem where
  key := mimeKey
  value := []
  count := 1
  sharedXattrId := -1
  prefixIndex := 128
  baseIndex := 1
  prefixLen := 10
  prefixLen_le := by decide

theorem configured_mime : configuredPrefixes [mimePrefix] = .ok [mimeNode] := by rfl

theorem newXattritem_mime : newXattritem [mimeNode] mimeKey [] = some mimeItem := by rfl

/-- Right below the last offset that works. -/
theorem prefixesRoundTrip_iff_mime :
    PrefixesRoundTrip [mimeNode] (2 ^ 32 - 4) mimeItem ↔
      ([mimeNode] ≠ [] ∧ 2 ^ 32 ≤ 2 ^ 32 - 4) ∨
        (([mimeNode] = [] ∨ 2 ^ 32 - 4 ≤ 2 ^ 32 - 4) ∧ mimeItem.tail.length ≤ 255) :=
  prefixesRoundTrip_iff _ configured_mime newXattritem_mime

/-- One byte further the table is written, and the reader is sent to the start of the file. -/
theorem prefixes_lost :
    (∃ file' start count,
      writeNamePrefixes [mimeNode] (fun _ => 0) (2 ^ 32 - 3) = .ok (file', start, count) ∧
        erofsXattrPrefixesInit (tableEnv file') (tableSuperBlock start count) =
          .error .efscorrupted) ∧
      ¬ PrefixesRoundTrip [mimeNode] (2 ^ 32 - 3) mimeItem := by
  obtain ⟨file', start, count, hw, hinit⟩ :=
    @prefixesInit_wrapped _ (2 ^ 32 - 3) (List.cons_ne_nil _ _)
      (by decide) (by decide)
  refine ⟨⟨file', start, count, hw, hinit⟩, fun hround => ?_⟩
  have hok := (hround _ _ _ _ hw _ _ (readsTable_tableEnv file' start count _)).1
  rw [hinit] at hok
  cases hok

end ErofsUtils
