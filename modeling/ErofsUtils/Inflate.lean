import ErofsUtils.CanonicalCode

/-!
# Inflate

What a DEFLATE stream decodes to, by RFC 1951. The bits of a byte come from the least significant
one; a stored block begins at the next byte, and the bits in front of it are ignored.
-/

namespace Inflate

def byteBits (b : UInt8) : List Bool := (List.range 8).map b.toNat.testBit

def bytesBits (bytes : List UInt8) : List Bool := bytes.flatMap byteBits

theorem length_byteBits (b : UInt8) : (byteBits b).length = 8 := by simp [byteBits]

theorem length_bytesBits (bytes : List UInt8) : (bytesBits bytes).length = 8 * bytes.length := by
  induction bytes with
  | nil => rfl
  | cons b bytes ih =>
    have hcons : bytesBits (b :: bytes) = byteBits b ++ bytesBits bytes := rfl
    rw [hcons, List.length_append, length_byteBits, ih, List.length_cons]
    omega

/-- The number that bits stand for, the least significant one first. -/
def ofBits : List Bool → ℕ
  | [] => 0
  | b :: bits => b.toNat + 2 * ofBits bits

def takeBits (n : ℕ) (bits : List Bool) : Option (ℕ × List Bool) :=
  if bits.length < n then none else some (ofBits (bits.take n), bits.drop n)

def takeBytes : ℕ → List Bool → Option (List UInt8 × List Bool)
  | 0, bits => some ([], bits)
  | n + 1, bits => do
    let (b, bits) ← takeBits 8 bits
    let (bytes, bits) ← takeBytes n bits
    return (UInt8.ofNat b :: bytes, bits)

/-- The rest of a stream from the next byte on; the whole of it is a number of bytes. -/
def toByte (bits : List Bool) : List Bool := bits.drop (bits.length % 8)

section Stored

def storedBlock (bits : List Bool) (out : List UInt8) : Option (List UInt8 × List Bool) := do
  let (len, bits) ← takeBits 16 (toByte bits)
  let (nlen, bits) ← takeBits 16 bits
  if len + nlen ≠ 65535 then none
  else
    let (bytes, bits) ← takeBytes len bits
    return (out ++ bytes, bits)

end Stored

section Compressed

def lenBase : List ℕ :=
  [3, 4, 5, 6, 7, 8, 9, 10, 11, 13, 15, 17, 19, 23, 27, 31, 35, 43, 51, 59, 67, 83, 99, 115, 131,
    163, 195, 227, 258]

def lenExtra : List ℕ :=
  [0, 0, 0, 0, 0, 0, 0, 0, 1, 1, 1, 1, 2, 2, 2, 2, 3, 3, 3, 3, 4, 4, 4, 4, 5, 5, 5, 5, 0]

def distBase : List ℕ :=
  [1, 2, 3, 4, 5, 7, 9, 13, 17, 25, 33, 49, 65, 97, 129, 193, 257, 385, 513, 769, 1025, 1537, 2049,
    3073, 4097, 6145, 8193, 12289, 16385, 24577]

def distExtra : List ℕ :=
  [0, 0, 0, 0, 1, 1, 2, 2, 3, 3, 4, 4, 5, 5, 6, 6, 7, 7, 8, 8, 9, 9, 10, 10, 11, 11, 12, 12, 13, 13]

/-- `len` bytes from `dist` bytes back, which may be among those just copied. -/
def copyMatch (dist : ℕ) : ℕ → List UInt8 → List UInt8
  | 0, out => out
  | len + 1, out => copyMatch dist len (out ++ [out.getD (out.length - dist) 0])

def symbols (lits dists : List ℕ) :
    ℕ → List Bool → List UInt8 → Option (List UInt8 × List Bool)
  | 0, _, _ => none
  | fuel + 1, bits, out => do
    let (sym, bits) ← CanonicalCode.decode lits bits
    if sym < 256 then symbols lits dists fuel bits (out ++ [UInt8.ofNat sym])
    else if sym = 256 then return (out, bits)
    else if 285 < sym then none
    else
      let (extra, bits) ← takeBits (lenExtra.getD (sym - 257) 0) bits
      let len := lenBase.getD (sym - 257) 0 + extra
      let (sym, bits) ← CanonicalCode.decode dists bits
      if 29 < sym then none
      else
        let (extra, bits) ← takeBits (distExtra.getD sym 0) bits
        let dist := distBase.getD sym 0 + extra
        if out.length < dist then none
        else symbols lits dists fuel bits (copyMatch dist len out)

def compressedBlock (lits dists : List ℕ) (bits : List Bool) (out : List UInt8) :
    Option (List UInt8 × List Bool) :=
  symbols lits dists bits.length bits out

def fixedLits : List ℕ :=
  List.replicate 144 8 ++ List.replicate 112 9 ++ List.replicate 24 7 ++ List.replicate 8 8

def fixedDists : List ℕ := List.replicate 30 5

def lensOrder : List ℕ := [16, 17, 18, 0, 8, 7, 9, 6, 10, 5, 11, 4, 12, 3, 13, 2, 14, 1, 15]

/-- The lengths of the codes for code lengths, in the order of the alphabet. -/
def codeLens : List ℕ → List Bool → List ℕ → Option (List ℕ × List Bool)
  | [], bits, lens => some (lens, bits)
  | i :: order, bits, lens => do
    let (len, bits) ← takeBits 3 bits
    codeLens order bits (lens.set i len)

/-- The `total` code lengths of both alphabets, with their repetitions. -/
def tableLens (lens : List ℕ) (total : ℕ) :
    ℕ → List Bool → List ℕ → Option (List ℕ × List Bool)
  | 0, _, _ => none
  | fuel + 1, bits, table =>
    if total < table.length then none
    else if table.length = total then some (table, bits)
    else do
      let (sym, bits) ← CanonicalCode.decode lens bits
      if sym < 16 then tableLens lens total fuel bits (table ++ [sym])
      else if sym = 16 then
        let (n, bits) ← takeBits 2 bits
        let last ← table.getLast?
        tableLens lens total fuel bits (table ++ List.replicate (3 + n) last)
      else if sym = 17 then
        let (n, bits) ← takeBits 3 bits
        tableLens lens total fuel bits (table ++ List.replicate (3 + n) 0)
      else
        let (n, bits) ← takeBits 7 bits
        tableLens lens total fuel bits (table ++ List.replicate (11 + n) 0)

def dynamicBlock (bits : List Bool) (out : List UInt8) : Option (List UInt8 × List Bool) := do
  let (hlit, bits) ← takeBits 5 bits
  let (hdist, bits) ← takeBits 5 bits
  let (hclen, bits) ← takeBits 4 bits
  let (lens, bits) ← codeLens (lensOrder.take (hclen + 4)) bits (List.replicate 19 0)
  let (table, bits) ← tableLens lens (hlit + 257 + (hdist + 1)) (bits.length + 1) bits []
  compressedBlock (table.take (hlit + 257)) (table.drop (hlit + 257)) bits out

end Compressed

def block (btype : ℕ) (bits : List Bool) (out : List UInt8) : Option (List UInt8 × List Bool) :=
  if btype = 0 then storedBlock bits out
  else if btype = 1 then compressedBlock fixedLits fixedDists bits out
  else if btype = 2 then dynamicBlock bits out
  else none

def blocks : ℕ → List Bool → List UInt8 → Option (List UInt8)
  | 0, _, _ => none
  | fuel + 1, bits, out => do
    let (bfinal, bits) ← takeBits 1 bits
    let (btype, bits) ← takeBits 2 bits
    let (out, bits) ← block btype bits out
    if bfinal = 1 then return out else blocks fuel bits out

/-- The data of a DEFLATE stream; what comes behind the last block is not read. -/
def inflate (bytes : List UInt8) : Option (List UInt8) :=
  blocks (bytesBits bytes).length (bytesBits bytes) []

example : inflate [1, 2, 0, 253, 255, 104, 105] = some [104, 105] := by decide

/-- The bits between the header of a stored block and the next byte do not matter. -/
theorem storedBlock_padding {pad pad' bits : List Bool} (out : List UInt8)
    (hlen : pad.length = pad'.length) (hpad : pad.length < 8) (hbits : 8 ∣ bits.length) :
    storedBlock (pad ++ bits) out = storedBlock (pad' ++ bits) out := by
  have hbyte : ∀ q : List Bool, q.length = pad.length → toByte (q ++ bits) = bits := by
    intro q hq
    have hmod : (q ++ bits).length % 8 = q.length := by
      rw [List.length_append, hq]
      omega
    rw [toByte, hmod, List.drop_left]
  rw [storedBlock, storedBlock, hbyte pad rfl, hbyte pad' hlen.symm]

theorem takeBits_append {n : ℕ} {bits rest : List Bool} (h : bits.length = n) :
    takeBits n (bits ++ rest) = some (ofBits bits, rest) := by
  rw [takeBits, if_neg (by rw [List.length_append]; omega), List.take_left' h, List.drop_left' h]

/-- A first block whose five padding bits are `pad`, behind the header of a non-last stored block. -/
theorem blocks_stored (fuel : ℕ) (pad bits : List Bool) (out : List UInt8) :
    blocks (fuel + 1) ([false, false, false] ++ (pad ++ bits)) out =
      (storedBlock (pad ++ bits) out).bind fun r => blocks fuel r.2 r.1 := by
  have hfinal : takeBits 1 ([false, false, false] ++ (pad ++ bits)) =
      some (0, [false, false] ++ (pad ++ bits)) := @takeBits_append 1 [false] _ rfl
  have htype : takeBits 2 ([false, false] ++ (pad ++ bits)) = some (0, pad ++ bits) :=
    @takeBits_append 2 [false, false] _ rfl
  rw [blocks, hfinal]
  simp only [Option.bind_eq_bind, Option.bind_some, htype, block, if_true, Nat.zero_ne_one, if_false]

/-- A stream that begins with a zero byte has a stored block in front, which is not the last one; the
bit `8` of its first byte is padding. -/
theorem inflate_flag_padding (bytes : List UInt8) : inflate (8 :: bytes) = inflate (0 :: bytes) := by
  have hzero : bytesBits (0 :: bytes) =
      [false, false, false] ++ ([false, false, false, false, false] ++ bytesBits bytes) := rfl
  have height : bytesBits (8 :: bytes) =
      [false, false, false] ++ ([true, false, false, false, false] ++ bytesBits bytes) := rfl
  have hbits : 8 ∣ (bytesBits bytes).length := ⟨_, length_bytesBits bytes⟩
  have hlength : (bytesBits (8 :: bytes)).length = (bytesBits (0 :: bytes)).length := by
    rw [length_bytesBits, length_bytesBits, List.length_cons, List.length_cons]
  obtain ⟨fuel, hfuel⟩ : ∃ fuel, (bytesBits (0 :: bytes)).length = fuel + 1 :=
    ⟨8 * bytes.length + 7, by rw [length_bytesBits, List.length_cons]; omega⟩
  have hstored : storedBlock ([true, false, false, false, false] ++ bytesBits bytes) [] =
      storedBlock ([false, false, false, false, false] ++ bytesBits bytes) [] :=
    storedBlock_padding [] rfl (by decide) hbits
  rw [inflate, inflate, hlength, hfuel, hzero, height, blocks_stored, blocks_stored, hstored]

end Inflate
