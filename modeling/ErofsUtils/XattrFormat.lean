import ErofsUtils.Layout

/-!
# Extended attributes on disk and in memory

The table `xattr_types` of predefined name prefixes, the entry and the ibody header of `erofs_fs.h`
with their sizes, and the items that `mkfs.erofs` keeps for the xattrs of its inodes. Keys are
C strings without their NUL.
-/

namespace ErofsUtils
open ByteMemory

def asciiBytes (cs : List Char) : List UInt8 := cs.map fun c => UInt8.ofNat c.toNat

def xattrUserPrefix : List UInt8 := asciiBytes ['u', 's', 'e', 'r', '.']

def xattrNamePosixAclAccess : List UInt8 :=
  asciiBytes ['s', 'y', 's', 't', 'e', 'm', '.', 'p', 'o', 's', 'i', 'x', '_', 'a', 'c', 'l', '_',
    'a', 'c', 'c', 'e', 's', 's']

def xattrNamePosixAclDefault : List UInt8 :=
  asciiBytes ['s', 'y', 's', 't', 'e', 'm', '.', 'p', 'o', 's', 'i', 'x', '_', 'a', 'c', 'l', '_',
    'd', 'e', 'f', 'a', 'u', 'l', 't']

def xattrTrustedPrefix : List UInt8 := asciiBytes ['t', 'r', 'u', 's', 't', 'e', 'd', '.']

def xattrSecurityPrefix : List UInt8 := asciiBytes ['s', 'e', 'c', 'u', 'r', 'i', 't', 'y', '.']

/-- `xattr_types[index].prefix`, where there is one. -/
def xattrTypes : ℕ → Option (List UInt8)
  | 1 => some xattrUserPrefix
  | 2 => some xattrNamePosixAclAccess
  | 3 => some xattrNamePosixAclDefault
  | 4 => some xattrTrustedPrefix
  | 6 => some xattrSecurityPrefix
  | _ => none

/-- `ARRAY_SIZE(xattr_types)`. -/
def xattrTypesSize : ℕ := 7

/-- `erofs_xattr_prefix_matches`: the index and the length of the prefix that a key has. -/
def erofsXattrPrefixMatches (key : List UInt8) : Option (ℕ × ℕ) :=
  (List.range xattrTypesSize).findSome? fun index =>
    match xattrTypes index with
    | some p => if p <+: key then some (index, p.length) else none
    | none => none

section Prefixes

variable {key : List UInt8} {index len : ℕ}

theorem xattrTypes_prefix_inj {i j : ℕ} {p q : List UInt8} (hp : xattrTypes i = some p)
    (hq : xattrTypes j = some q) (h : p <+: q) : i = j := by
  unfold xattrTypes at hp hq
  split at hp <;> split at hq <;> cases hp <;> cases hq <;> revert h <;> decide

theorem xattrTypes_lt {p : List UInt8} (h : xattrTypes index = some p) :
    index < xattrTypesSize ∧ index ≠ 0 := by
  unfold xattrTypes at h
  split at h <;> first | decide | cases h

theorem erofsXattrPrefixMatches_some (h : erofsXattrPrefixMatches key = some (index, len)) :
    ∃ p, xattrTypes index = some p ∧ p <+: key ∧ len = p.length := by
  obtain ⟨i, -, hi⟩ := List.exists_of_findSome?_eq_some h
  split at hi
  · next p hp =>
      split at hi
      · next hpre =>
          cases hi
          exact ⟨p, hp, hpre, rfl⟩
      · cases hi
  · cases hi

theorem erofsXattrPrefixMatches_append {p : List UInt8} (hp : xattrTypes index = some p)
    (name : List UInt8) : erofsXattrPrefixMatches (p ++ name) = some (index, p.length) := by
  cases hm : erofsXattrPrefixMatches (p ++ name) with
  | none =>
      have hall := List.findSome?_eq_none_iff.mp hm index
        (List.mem_range.mpr (xattrTypes_lt hp).1)
      rw [hp] at hall
      simp at hall
  | some r =>
      obtain ⟨q, hq, hpre, hlen⟩ := erofsXattrPrefixMatches_some hm
      have hcmp : p <+: q ∨ q <+: p :=
        List.prefix_or_prefix_of_prefix (List.prefix_append p name) hpre
      have hidx : r.1 = index := by
        rcases hcmp with h | h
        · exact (xattrTypes_prefix_inj hp hq h).symm
        · exact xattrTypes_prefix_inj hq hp h
      rw [hidx, hp] at hq
      cases hq
      rw [← hidx, ← hlen]

end Prefixes

structure XattrEntry where
  eNameLen : ℕ
  eNameIndex : ℕ
  eValueSize : ℕ
  deriving DecidableEq, Repr

namespace XattrEntry

def decode (mem : Mem) (pos : ℕ) : XattrEntry where
  eNameLen := leNat mem pos 1
  eNameIndex := leNat mem (pos + 1) 1
  eValueSize := leNat mem (pos + 2) 2

/-- The four bytes `memcpy` stores for an entry. -/
def encode (e : XattrEntry) : List UInt8 :=
  leBytes 1 e.eNameLen ++ leBytes 1 e.eNameIndex ++ leBytes 2 e.eValueSize

/-- `erofs_xattr_entry_size`. -/
def size (e : XattrEntry) : ℕ := roundUp (4 + e.eNameLen + e.eValueSize) 4

@[simp] theorem length_encode (e : XattrEntry) : e.encode.length = 4 := by
  simp [encode]

theorem size_pos (e : XattrEntry) : 0 < e.size := by
  have hle : 4 + e.eNameLen + e.eValueSize ≤ e.size := le_roundUp (by decide)
  omega

end XattrEntry

/-- `sizeof(struct erofs_xattr_ibody_header)`. -/
def xattrHeaderSize : ℕ := 12

def erofsXattrIbodySize (iXattrIcount : ℕ) : ℕ :=
  if iXattrIcount = 0 then 0 else xattrHeaderSize + 4 * (iXattrIcount - 1)

/-- `EROFS_INODE_XATTR_ICOUNT` as `erofs_iflush` stores it: only the zero test sees the size as
16 bits, and the count is computed in 64 bits and then stored in 16. -/
def erofsInodeXattrIcount (size : ℕ) : ℕ :=
  if u16 size = 0 then 0 else u16 (u64 (sub64 size xattrHeaderSize / 4 + 1))

/-- `struct xattr_item` without its links: `sharedXattrId` is -1 unless the item is shared. -/
structure XattrItem where
  key : List UInt8
  value : List UInt8
  count : ℕ
  sharedXattrId : ℤ
  prefixIndex : ℕ
  baseIndex : ℕ
  prefixLen : ℕ
  prefixLen_le : prefixLen ≤ key.length
  deriving DecidableEq

def XattrItem.body (item : XattrItem) : ℕ := item.key.length + item.value.length - item.prefixLen

def XattrItem.tail (item : XattrItem) : List UInt8 := item.key.drop item.prefixLen

/-- The bytes that `erofs_write_xattr_entry` writes; the lengths are cut to their fields. -/
def erofsWriteXattrEntry (item : XattrItem) : List UInt8 :=
  XattrEntry.encode
      { eNameLen := item.tail.length
        eNameIndex := item.prefixIndex
        eValueSize := item.value.length } ++
    (item.tail ++ item.value)

def erofsNextXattrAlign (pos : ℕ) (item : XattrItem) : ℕ := u32 (roundUp (pos + 4 + item.body) 4)

end ErofsUtils
