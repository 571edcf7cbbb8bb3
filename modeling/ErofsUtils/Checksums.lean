import Mathlib.Data.List.Basic
import Mathlib.Tactic.Ring

/-!
# Checksums of the deduplication tables

`xxh64` of `xxhash.c` and `erofs_crc32c` on byte lists. Nothing is proved about their values: the
deduplication results hold for whatever they return.
-/

namespace ErofsUtils

section Xxh64

def xxhRotl64 (x r : UInt64) : UInt64 := (x <<< r) ||| (x >>> (64 - r))

def prime64_1 : UInt64 := 11400714785074694791
def prime64_2 : UInt64 := 14029467366897019727
def prime64_3 : UInt64 := 1609587929392839161
def prime64_4 : UInt64 := 9650029242287828579
def prime64_5 : UInt64 := 2870177450012600261

def getUnalignedLe (w : ℕ) (p : List UInt8) : UInt64 :=
  (p.take w).foldr (fun b acc => acc * 256 + b.toUInt64) 0

def xxh64Round (acc input : UInt64) : UInt64 :=
  xxhRotl64 (acc + input * prime64_2) 31 * prime64_1

def xxh64MergeRound (acc val : UInt64) : UInt64 :=
  (acc ^^^ xxh64Round 0 val) * prime64_1 + prime64_4

def xxh64Stripes : ℕ → List UInt8 → UInt64 × UInt64 × UInt64 × UInt64 →
    UInt64 × UInt64 × UInt64 × UInt64
  | 0, _, v => v
  | n + 1, p, (v1, v2, v3, v4) =>
      xxh64Stripes n (p.drop 32)
        (xxh64Round v1 (getUnalignedLe 8 p), xxh64Round v2 (getUnalignedLe 8 (p.drop 8)),
          xxh64Round v3 (getUnalignedLe 8 (p.drop 16)), xxh64Round v4 (getUnalignedLe 8 (p.drop 24)))

def xxh64Words : ℕ → List UInt8 → UInt64 → UInt64
  | 0, _, h64 => h64
  | n + 1, p, h64 =>
      xxh64Words n (p.drop 8)
        (xxhRotl64 (h64 ^^^ xxh64Round 0 (getUnalignedLe 8 p)) 27 * prime64_1 + prime64_4)

def xxh64Bytes (p : List UInt8) (h64 : UInt64) : UInt64 :=
  p.foldl (fun h b => xxhRotl64 (h ^^^ b.toUInt64 * prime64_5) 11 * prime64_1) h64

def xxh64 (input : List UInt8) (seed : UInt64) : UInt64 :=
  let len := input.length
  let head :=
    if 32 ≤ len then
      let (v1, v2, v3, v4) := xxh64Stripes (len / 32) input
        (seed + prime64_1 + prime64_2, seed + prime64_2, seed, seed - prime64_1)
      let h64 := xxhRotl64 v1 1 + xxhRotl64 v2 7 + xxhRotl64 v3 12 + xxhRotl64 v4 18
      xxh64MergeRound (xxh64MergeRound (xxh64MergeRound (xxh64MergeRound h64 v1) v2) v3) v4
    else seed + prime64_5
  let p := input.drop (len / 32 * 32)
  let h64 := xxh64Words (p.length / 8) p (head + UInt64.ofNat len)
  let p := p.drop (p.length / 8 * 8)
  let (h64, p) :=
    if 4 ≤ p.length then
      (xxhRotl64 (h64 ^^^ getUnalignedLe 4 p * prime64_1) 23 * prime64_2 + prime64_3, p.drop 4)
    else (h64, p)
  let h64 := xxh64Bytes p h64
  let h64 := (h64 ^^^ (h64 >>> 33)) * prime64_2
  let h64 := (h64 ^^^ (h64 >>> 29)) * prime64_3
  h64 ^^^ (h64 >>> 32)

end Xxh64

/-! ## CRC32C -/

def erofsCrc32c (crc : UInt32) (p : List UInt8) : UInt32 :=
  p.foldl (fun crc b => (List.range 8).foldl
    (fun crc _ => (crc >>> 1) ^^^ if crc &&& 1 ≠ 0 then 0x82F63B78 else 0)
    (crc ^^^ b.toUInt32)) crc

end ErofsUtils
