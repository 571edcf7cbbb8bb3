import ErofsUtils.Checksums
import ErofsUtils.Sha256

/-!
# The table of compressed extents

`dedupe.c`: a hash table of extents whose encoding is already on disk, searched backwards with
a rolling hash, and the chain of entries that the file in progress has added to it. Pointers
into the queue are positions of a byte list.
-/

namespace ErofsUtils

def erofsConfigComprMaxSz : ℕ := 4000 * 1024

def zErofsComprQueueSz : ℕ := 2 * erofsConfigComprMaxSz

/-- The bytes `[p, p + n)` of a buffer. -/
def bytesAt (queue : List UInt8) (p n : ℕ) : List UInt8 := (queue.drop p).take n

@[simp] theorem length_bytesAt (queue : List UInt8) (p n : ℕ) :
    (bytesAt queue p n).length = min n (queue.length - p) := by
  simp [bytesAt]

def erofsSha256 (inp : List UInt8) : List UInt8 := Sha256.digest inp

/-- It is what `erofs_sha256` returns, whatever its stack holds. -/
theorem erofsSha256_digest (stack : ByteMemory.Mem) (inp : List UInt8) :
    Sha256.erofsSha256 stack inp = some (erofsSha256 inp) :=
  Sha256.erofsSha256_eq stack inp

section RollingHash

def primeNumber : ℤ := 4294967295

def radix : ℤ := 256

/-- `erofs_rolling_hash_init` with `backwards` set: the last byte comes first. -/
def erofsRollingHashInit (input : List UInt8) : ℤ :=
  input.foldr (fun b hash => (radix * hash + b.toNat).tmod primeNumber) 0

def erofsRollingHashAdvance (oldHash : ℤ) (rm : ℕ) (toRemove toAdd : UInt8) : ℤ :=
  let toRemoveVal : ℤ := (toRemove.toNat * rm % 4294967295 : ℕ)
  let hash := (radix * (oldHash - toRemoveVal)).tmod primeNumber
  let hash := (hash + toAdd.toNat).tmod primeNumber
  if hash < 0 then hash + primeNumber else hash

def erofsRollinghashCalcRm (windowSize : ℕ) : ℕ :=
  (List.range (windowSize - 1)).foldl (fun rm _ => rm * 256 % 4294967295) 1

end RollingHash

section Memcmp2

variable (s1 s2 : ℕ → UInt8)

/-- The byte loop of `erofs_memcmp2` over `n` more bytes, `k` bytes behind the start. -/
def memcmp2Bytes : ℕ → ℕ → ℕ
  | 0, k => k
  | n + 1, k => if s1 k = s2 k then memcmp2Bytes n (k + 1) else k

/-- The loop over `n` more words of `sizeof(long)` bytes. -/
def memcmp2Words : ℕ → ℕ → ℕ
  | 0, k => k
  | n + 1, k => if ∀ i < 8, s1 (k + i) = s2 (k + i) then memcmp2Words n (k + 8) else k

/-- `erofs_memcmp2(s1, s2, sz)` for pointers with the values `a1` and `a2`. -/
def erofsMemcmp2 (a1 a2 sz : ℕ) : ℕ :=
  if sz < 8 then memcmp2Bytes s1 s2 sz 0
  else
    -- up to the first aligned byte when both pointers have the same alignment
    let k := if a1 % 8 = a2 % 8 then memcmp2Bytes s1 s2 ((8 - a1 % 8) % 8) 0 else 0
    let k := memcmp2Words s1 s2 ((sz - k) / 8) k
    memcmp2Bytes s1 s2 (sz - k) k

/-- The two buffers agree in front of `k`, and `k` is inside them. -/
structure SamePrefix (sz k : ℕ) : Prop where
  le : k ≤ sz
  eq : ∀ i < k, s1 i = s2 i

variable {s1 s2}

theorem SamePrefix.zero (sz : ℕ) : SamePrefix s1 s2 sz 0 :=
  ⟨Nat.zero_le _, fun _ h => absurd h (Nat.not_lt_zero _)⟩

theorem SamePrefix.memcmp2Bytes {sz n k : ℕ} (h : SamePrefix s1 s2 sz k) (hn : k + n ≤ sz) :
    SamePrefix s1 s2 sz (memcmp2Bytes s1 s2 n k) := by
  induction n generalizing k with
  | zero => exact h
  | succ n ih =>
      rw [ErofsUtils.memcmp2Bytes]
      split_ifs with heq
      · refine ih ⟨by omega, ?_⟩ (by omega)
        intro i hi
        rcases Nat.lt_succ_iff_lt_or_eq.mp hi with hlt | rfl
        · exact h.eq i hlt
        · exact heq
      · exact h

theorem SamePrefix.memcmp2Words {sz n k : ℕ} (h : SamePrefix s1 s2 sz k) (hn : k + 8 * n ≤ sz) :
    SamePrefix s1 s2 sz (memcmp2Words s1 s2 n k) := by
  induction n generalizing k with
  | zero => exact h
  | succ n ih =>
      rw [ErofsUtils.memcmp2Words]
      split_ifs with heq
      · refine ih ⟨by omega, ?_⟩ (by omega)
        intro i hi
        rcases Nat.lt_or_ge i k with hlt | hge
        · exact h.eq i hlt
        · have := heq (i - k) (by omega)
          rwa [Nat.add_sub_cancel' hge] at this
      · exact h

theorem memcmp2Bytes_stop {n k : ℕ} (h : memcmp2Bytes s1 s2 n k < k + n) :
    s1 (memcmp2Bytes s1 s2 n k) ≠ s2 (memcmp2Bytes s1 s2 n k) := by
  induction n generalizing k with
  | zero => exact absurd h (by simp [memcmp2Bytes])
  | succ n ih =>
      rw [memcmp2Bytes] at h ⊢
      split_ifs at h ⊢ with heq
      · exact ih (by omega)
      · exact heq

/-- From a position inside the common start, the two loops reach its end. -/
theorem SamePrefix.rest {sz k : ℕ} (h : SamePrefix s1 s2 sz k) (m : ℕ)
    (hm : m = ErofsUtils.memcmp2Words s1 s2 ((sz - k) / 8) k) :
    SamePrefix s1 s2 sz (ErofsUtils.memcmp2Bytes s1 s2 (sz - m) m) ∧
      (ErofsUtils.memcmp2Bytes s1 s2 (sz - m) m < sz →
        s1 (ErofsUtils.memcmp2Bytes s1 s2 (sz - m) m) ≠
          s2 (ErofsUtils.memcmp2Bytes s1 s2 (sz - m) m)) := by
  have hle := h.le
  have hw : SamePrefix s1 s2 sz m := hm ▸ h.memcmp2Words (by omega)
  have hmle := hw.le
  exact ⟨hw.memcmp2Bytes (by omega), fun hlt => memcmp2Bytes_stop (by omega)⟩

/-- `erofs_memcmp2` returns the length of the common start of the two buffers. -/
theorem erofsMemcmp2_spec (a1 a2 sz : ℕ) :
    SamePrefix s1 s2 sz (erofsMemcmp2 s1 s2 a1 a2 sz) ∧
      (erofsMemcmp2 s1 s2 a1 a2 sz < sz →
        s1 (erofsMemcmp2 s1 s2 a1 a2 sz) ≠ s2 (erofsMemcmp2 s1 s2 a1 a2 sz)) := by
  have h0 : SamePrefix s1 s2 sz 0 := .zero sz
  unfold erofsMemcmp2
  by_cases hsz : sz < 8
  · rw [if_pos hsz]
    exact ⟨h0.memcmp2Bytes (by omega), fun h => memcmp2Bytes_stop (by omega)⟩
  · rw [if_neg hsz]
    by_cases halign : a1 % 8 = a2 % 8
    · rw [if_pos halign]
      have h₁ : SamePrefix s1 s2 sz (memcmp2Bytes s1 s2 ((8 - a1 % 8) % 8) 0) :=
        h0.memcmp2Bytes (by omega)
      exact h₁.rest _ rfl
    · rw [if_neg halign]
      exact h0.rest _ rfl

end Memcmp2

/-- `struct z_erofs_dedupe_item`; `addr` is the address of `extra_data`. -/
structure DedupeItem where
  hash : ℤ
  prefixSha256 : List UInt8
  prefixXxh64 : UInt64
  compressedBlkaddr : ℕ
  compressedBlks : ℕ
  originalLength : ℕ
  partialRef : Bool
  raw : Bool
  addr : ℕ
  extraData : List UInt8
  deriving DecidableEq

/-- Index of the list of `dedupe_tree` for a hash. -/
def dedupeBucket (hash : ℤ) : ℕ := (hash % 65536).toNat

/-- The static variables of `dedupe.c`; `dedupeSubtree` is the chain of the entries added since
the last commit, newest first. -/
structure DedupeTable where
  windowSize : ℕ
  rollinghashRm : ℕ
  dedupeTree : ℕ → List DedupeItem
  dedupeSubtree : List DedupeItem

def zErofsDedupeInit (wsiz : ℕ) : DedupeTable :=
  ⟨wsiz, erofsRollinghashCalcRm wsiz, fun _ => [], []⟩

/-- The entry at which the walk over a list stops: the first with the same rolling hash and
the same xxh64. -/
def dedupeFind (t : DedupeTable) (hash : ℤ) (window : List UInt8) : Option DedupeItem :=
  (t.dedupeTree (dedupeBucket hash)).find? fun e =>
    e.hash = hash ∧ e.prefixXxh64 = xxh64 window 0

/-- `window_size + extra` for the entry `e` and the window at `p`. -/
def dedupeMatchLength (t : DedupeTable) (queue : List UInt8) (qaddr endp p : ℕ)
    (e : DedupeItem) : ℕ :=
  let extra := min (u32 (endp - p - t.windowSize)) (u32 (e.originalLength - t.windowSize))
  u32 (t.windowSize + erofsMemcmp2 (fun i => queue.getD (p + t.windowSize + i) 0)
    (fun i => e.extraData.getD i 0) (qaddr + p + t.windowSize) e.addr extra)

/-- `ctx->e` after a match of `length` bytes with the entry `e`. -/
def dedupeMatchExtent (e : DedupeItem) (length : ℕ) : InmemExtent where
  blkaddr := e.compressedBlkaddr
  compressedblks := e.compressedBlks
  length := length
  raw := e.raw
  partialRef := e.partialRef || decide (length < e.originalLength)
  inlined := false

/-- The loop of `z_erofs_dedupe_match`, which moves `cur = start + n` backwards; `prev` is the
rolling hash of the window one byte further on, when there was one. -/
def dedupeMatchLoop (t : DedupeTable) (queue : List UInt8) (qaddr start endp ctxCur : ℕ) :
    ℕ → Option ℤ → Option (ℕ × InmemExtent)
  | n, prev =>
      let p := start + n
      let window := bytesAt queue p t.windowSize
      let hash := match prev with
        | none => erofsRollingHashInit window
        | some h => erofsRollingHashAdvance h t.rollinghashRm
            (queue.getD (p + t.windowSize) 0) (queue.getD p 0)
      let next := match n with
        | 0 => none
        | n + 1 => dedupeMatchLoop t queue qaddr start endp ctxCur n (some hash)
      match dedupeFind t hash window with
      | none => next
      | some e =>
          if erofsSha256 window ≠ e.prefixSha256 then next
          else
            let length := dedupeMatchLength t queue qaddr endp p e
            if length ≤ ctxCur - p then next
            else some (p, dedupeMatchExtent e length)

/-- `z_erofs_dedupe_match` for the context `start`, `endp`, `cur` over a queue at the address
`qaddr`: the new `ctx->cur` and `ctx->e`, or `none` for `-ENOENT`. -/
def zErofsDedupeMatch (t : DedupeTable) (queue : List UInt8) (qaddr start endp cur : ℕ) :
    Option (ℕ × InmemExtent) :=
  if t.windowSize = 0 then none
  else
    -- `ctx->end - window_size` may lie in front of the queue
    let pos : ℤ := min (cur : ℤ) ((endp : ℤ) - t.windowSize)
    if pos < start then none
    else dedupeMatchLoop t queue qaddr start endp cur (pos - start).toNat none

/-- The item that `z_erofs_dedupe_insert` fills for an extent. -/
def dedupeItemOf (t : DedupeTable) (e : InmemExtent) (originalData : List UInt8) (addr : ℕ) :
    DedupeItem :=
  let window := bytesAt originalData 0 t.windowSize
  { hash := erofsRollingHashInit window
    prefixSha256 := erofsSha256 window
    prefixXxh64 := xxh64 window 0
    compressedBlkaddr := e.blkaddr
    compressedBlks := e.compressedblks
    originalLength := e.length
    partialRef := e.partialRef
    raw := e.raw
    addr := addr
    extraData := bytesAt originalData t.windowSize (e.length - t.windowSize) }

/-- `z_erofs_dedupe_insert`; `addr` is what `malloc` returns. -/
def zErofsDedupeInsert (t : DedupeTable) (e : InmemExtent) (originalData : List UInt8)
    (addr : Option ℕ) : DedupeTable :=
  if t.windowSize = 0 ∨ e.length < t.windowSize then t
  else match addr with
    | none => t
    | some addr =>
        let di := dedupeItemOf t e originalData addr
        let b := dedupeBucket di.hash
        -- skip the same xxh64 hash
        if (t.dedupeTree b).any fun k => k.prefixXxh64 = di.prefixXxh64 then t
        else { t with
          dedupeSubtree := di :: t.dedupeSubtree
          dedupeTree := fun i => if i = b then t.dedupeTree i ++ [di] else t.dedupeTree i }

/-- `list_del` for the items of the chain. Two entries of one list differ in their xxh64, so
the entry is found by its value. -/
def dedupeListDel (tree : ℕ → List DedupeItem) (chain : List DedupeItem) : ℕ → List DedupeItem :=
  chain.foldl (fun tree di i =>
    if i = dedupeBucket di.hash then (tree i).erase di else tree i) tree

def zErofsDedupeCommit (t : DedupeTable) (drop : Bool) : DedupeTable :=
  if drop then
    { t with dedupeTree := dedupeListDel t.dedupeTree t.dedupeSubtree, dedupeSubtree := [] }
  else { t with dedupeSubtree := [] }

end ErofsUtils
