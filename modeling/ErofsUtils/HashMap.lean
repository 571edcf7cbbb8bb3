import ErofsUtils.Layout
import ErofsUtils.PointerChain

/-!
# The hash map

Entries that carry a hash are chained from a table whose size is a power of two; a chain begins at
the bucket that the low bits of the hash give. The table grows and shrinks by a factor of four with
the number of entries. An entry stands for its address in memory.
-/

namespace ErofsUtils

def hashmapInitialSize : ℕ := 64

/-- `HASHMAP_RESIZE_BITS`: the table grows and shrinks by `2 ^ 2`. -/
def hashmapResizeBits : ℕ := 2

def hashmapLoadFactor : ℕ := 80

/-- `struct hashmap`: `cells` has the pointers of `table` and the `next` members of all entries. -/
structure HashMap (α : Type*) where
  cells : Cells ℕ α
  size : ℕ
  tablesize : ℕ
  growAt : ℕ
  shrinkAt : ℕ

structure HashmapIter (α : Type*) where
  next : Option α
  tablepos : ℕ

namespace HashMap

variable {α κ : Type*}

def allocTable (map : HashMap α) (size : ℕ) : HashMap α :=
  let growAt := u32 (size * hashmapLoadFactor / 100)
  { map with
    cells := { map.cells with head := fun _ => none }
    tablesize := size
    growAt := growAt
    shrinkAt := if size ≤ hashmapInitialSize then 0 else growAt / (2 ^ hashmapResizeBits + 1) }

def bucketOf (map : HashMap α) (hash : ℕ) : ℕ := hash &&& dec32 map.tablesize

/-- The loop of `hashmap_init` on `size`; `none` when it has not come to an end in so many turns. -/
def initSize : ℕ → ℕ → ℕ → Option ℕ
  | 0, initialSize, size => if size < initialSize then none else some size
  | n + 1, initialSize, size =>
    if size < initialSize then initSize n initialSize (u32 (size * 2 ^ hashmapResizeBits))
    else some size

/-- `hashmap_init` in a memory of entries. The size is zero in 32 bits after 13 turns. -/
def hashmapInit (next : α → Option α) (initialSize : ℕ) : Option (HashMap α) :=
  let initialSize := u32 (u64 (initialSize * 100) / hashmapLoadFactor)
  (initSize 13 initialSize hashmapInitialSize).map fun size =>
    allocTable ⟨⟨fun _ => none, next⟩, 0, 0, 0, 0⟩ size

/-- The loop of `hashmap_iter_next`, with `n` heads left behind `tablepos`. -/
def iterNextLoop (map : HashMap α) : ℕ → ℕ → Option α → Option α × HashmapIter α
  | _, tablepos, some current => (some current, ⟨map.cells.next current, tablepos⟩)
  | 0, tablepos, none => (none, ⟨none, tablepos⟩)
  | n + 1, tablepos, none => iterNextLoop map n (tablepos + 1) (map.cells.head tablepos)

def hashmapIterNext (map : HashMap α) (iter : HashmapIter α) : Option α × HashmapIter α :=
  map.iterNextLoop (map.tablesize - iter.tablepos) iter.tablepos iter.next

def hashmapIterInit : HashmapIter α := ⟨none, 0⟩

def hashmapIterFirst (map : HashMap α) : Option α × HashmapIter α :=
  map.hashmapIterNext hashmapIterInit

/-- `hashmap_free` of a map that has a table: `-EBUSY` while there is an entry. -/
def hashmapFree (map : HashMap α) : ℤ × HashMap α :=
  if map.hashmapIterFirst.1.isSome then (-16, map)
  else (0, ⟨{ map.cells with head := fun _ => none }, 0, 0, 0, 0⟩)

section Entries

variable [DecidableEq α] (hash : α → ℕ)

def bucket (map : HashMap α) (key : α) : ℕ := map.bucketOf (hash key)

/-- `rehash`: no chain is longer than the map has entries. -/
def rehash (map : HashMap α) (newsize : ℕ) : HashMap α :=
  let new := map.allocTable newsize
  { new with
    cells := Cells.moveHeads (new.bucket hash) map.size map.cells.head new.cells map.tablesize 0 }

/-- `find_entry_ptr`, with `entry_equals` for the key as a test. A search of as many entries as
there are, and of the null pointer behind them, goes over any chain. -/
def findEntryPtr (map : HashMap α) (keyHash : ℕ) (equals : α → Bool) : Place ℕ α :=
  map.cells.seek equals (map.size + 1) (.head (map.bucketOf keyHash))

variable (cmpfn : α → α → Option κ → Bool)

/-- `entry_equals`; `cmpfn` says whether the function of the map returns zero. -/
def entryEquals (e₁ e₂ : α) (keydata : Option κ) : Bool :=
  e₁ = e₂ || (hash e₁ = hash e₂ && cmpfn e₁ e₂ keydata)

def hashmapGet (map : HashMap α) (key : α) (keydata : Option κ) : Option α :=
  map.cells.load (map.findEntryPtr (hash key) (entryEquals hash cmpfn · key keydata))

def hashmapAdd (map : HashMap α) (entry : α) : HashMap α :=
  let b := map.bucket hash entry
  let map := { map with cells := map.cells.push b entry, size := u32 (map.size + 1) }
  if map.growAt < map.size then
    map.rehash hash (u32 (map.tablesize * 2 ^ hashmapResizeBits))
  else map

def hashmapRemove (map : HashMap α) (entry : α) : Option α × HashMap α :=
  let e := map.findEntryPtr (hash entry) (· = entry)
  match map.cells.load e with
  | none => (none, map)
  | some old =>
    let cells := (map.cells.store e (map.cells.next old)).store (.next old) none
    let map := { map with cells := cells, size := dec32 map.size }
    (some old,
      if map.size < map.shrinkAt then map.rehash hash (map.tablesize / 2 ^ hashmapResizeBits)
      else map)

end Entries

end HashMap

end ErofsUtils
