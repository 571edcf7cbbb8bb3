import ErofsUtils.BlockFold
import ErofsUtils.CString
import ErofsUtils.Layout

/-!
# SHA-256

The hash that tells chunks and compressed data apart. `erofs_sha256_process` takes a message in
pieces of any lengths and keeps what does not fill a block; the digest is that of the padded message
as a whole, however it came.
-/

namespace ErofsUtils.Sha256
open ByteMemory CString BlockFold

def roundConstants : List UInt32 :=
  [0x428a2f98, 0x71374491, 0xb5c0fbcf, 0xe9b5dba5, 0x3956c25b,
    0x59f111f1, 0x923f82a4, 0xab1c5ed5, 0xd807aa98, 0x12835b01,
    0x243185be, 0x550c7dc3, 0x72be5d74, 0x80deb1fe, 0x9bdc06a7,
    0xc19bf174, 0xe49b69c1, 0xefbe4786, 0x0fc19dc6, 0x240ca1cc,
    0x2de92c6f, 0x4a7484aa, 0x5cb0a9dc, 0x76f988da, 0x983e5152,
    0xa831c66d, 0xb00327c8, 0xbf597fc7, 0xc6e00bf3, 0xd5a79147,
    0x06ca6351, 0x14292967, 0x27b70a85, 0x2e1b2138, 0x4d2c6dfc,
    0x53380d13, 0x650a7354, 0x766a0abb, 0x81c2c92e, 0x92722c85,
    0xa2bfe8a1, 0xa81a664b, 0xc24b8b70, 0xc76c51a3, 0xd192e819,
    0xd6990624, 0xf40e3585, 0x106aa070, 0x19a4c116, 0x1e376c08,
    0x2748774c, 0x34b0bcb5, 0x391c0cb3, 0x4ed8aa4a, 0x5b9cca4f,
    0x682e6ff3, 0x748f82ee, 0x78a5636f, 0x84c87814, 0x8cc70208,
    0x90befffa, 0xa4506ceb, 0xbef9a3f7, 0xc67178f2]

/-- `RORc`. -/
def ror (x n : UInt32) : UInt32 := (x >>> n) ||| (x <<< (32 - n))

def ch (x y z : UInt32) : UInt32 := z ^^^ (x &&& (y ^^^ z))

def maj (x y z : UInt32) : UInt32 := ((x ||| y) &&& z) ||| (x &&& y)

def sigma0 (x : UInt32) : UInt32 := ror x 2 ^^^ ror x 13 ^^^ ror x 22

def sigma1 (x : UInt32) : UInt32 := ror x 6 ^^^ ror x 11 ^^^ ror x 25

def gamma0 (x : UInt32) : UInt32 := ror x 7 ^^^ ror x 18 ^^^ (x >>> 3)

def gamma1 (x : UInt32) : UInt32 := ror x 17 ^^^ ror x 19 ^^^ (x >>> 10)

/-- `state` of `struct sha256_state`. -/
structure Words where
  a : UInt32
  b : UInt32
  c : UInt32
  d : UInt32
  e : UInt32
  f : UInt32
  g : UInt32
  h : UInt32
  deriving DecidableEq

def load32h : List UInt8 → UInt32
  | [x, y, z, w] => (x.toUInt32 <<< 24) ||| (y.toUInt32 <<< 16) ||| (z.toUInt32 <<< 8) ||| w.toUInt32
  | _ => 0

/-- The next words of `W`, of which the last 16 are given, the latest first. -/
def extendSchedule : ℕ → List UInt32 → List UInt32
  | 0, _ => []
  | n + 1, ws =>
    let w := gamma1 (ws.getD 1 0) + ws.getD 6 0 + gamma0 (ws.getD 14 0) + ws.getD 15 0
    w :: extendSchedule n (w :: ws.take 15)

def schedule (buf : List UInt8) : List UInt32 :=
  let input := (List.range 16).map fun i => load32h ((buf.drop (4 * i)).take 4)
  input ++ extendSchedule 48 input.reverse

/-- `RND` for the round with the constant and the word `kw`, and the rotation of the words behind
it. -/
def rnd (s : Words) (kw : UInt32 × UInt32) : Words :=
  let t0 := s.h + sigma1 s.e + ch s.e s.f s.g + kw.1 + kw.2
  let t1 := sigma0 s.a + maj s.a s.b s.c
  ⟨t0 + t1, s.a, s.b, s.c, s.d + t0, s.e, s.f, s.g⟩

def sha256Compress (md : Words) (buf : List UInt8) : Words :=
  let s := (roundConstants.zip (schedule buf)).foldl rnd md
  ⟨md.a + s.a, md.b + s.b, md.c + s.c, md.d + s.d, md.e + s.e, md.f + s.f, md.g + s.g, md.h + s.h⟩

structure Sha256State where
  length : ℕ
  state : Words
  curlen : ℕ
  buf : Mem

def initWords : Words :=
  ⟨0x6A09E667, 0xBB67AE85, 0x3C6EF372, 0xA54FF53A, 0x510E527F, 0x9B05688C, 0x1F83D9AB, 0x5BE0CD19⟩

def erofsSha256Init (buf : Mem) : Sha256State := ⟨0, initWords, 0, buf⟩

/-- The loop of `erofs_sha256_process`; every turn takes a byte or more. -/
def processLoop : ℕ → Sha256State → List UInt8 → Sha256State
  | 0, md, _ => md
  | fuel + 1, md, input =>
    if input = [] then md
    else if md.curlen = 0 ∧ 64 ≤ input.length then
      processLoop fuel { md with
        state := sha256Compress md.state (input.take 64)
        length := u64 (md.length + 512) } (input.drop 64)
    else
      let n := min input.length (64 - md.curlen)
      let buf := store md.buf md.curlen (input.take n)
      let curlen := md.curlen + n
      if curlen = 64 then
        processLoop fuel { md with
          state := sha256Compress md.state (slice buf 0 64)
          length := u64 (md.length + 512)
          buf := buf
          curlen := 0 } (input.drop n)
      else processLoop fuel { md with buf := buf, curlen := curlen } (input.drop n)

/-- `erofs_sha256_process`; `none` stands for -1. -/
def erofsSha256Process (md : Sha256State) (input : List UInt8) : Option Sha256State :=
  if 64 < md.curlen then none else some (processLoop input.length md input)

/-- The first bytes of the digest, from the most significant one on: `STORE32H` and `STORE64H`. -/
def storeHigh (w x : ℕ) : List UInt8 := (leBytes w x).reverse

def storeWords (s : Words) : List UInt8 :=
  [s.a, s.b, s.c, s.d, s.e, s.f, s.g, s.h].flatMap fun x => storeHigh 4 x.toNat

/-- `erofs_sha256_done`: the digest, or `none` for -1. -/
def erofsSha256Done (md : Sha256State) : Option (List UInt8) :=
  if 64 ≤ md.curlen then none
  else
    let length := u64 (md.length + md.curlen * 8)
    let buf := store md.buf md.curlen [0x80]
    let curlen := md.curlen + 1
    let (state, buf, curlen) :=
      if 56 < curlen then
        let buf := store buf curlen (List.replicate (64 - curlen) 0)
        (sha256Compress md.state (slice buf 0 64), buf, 0)
      else (md.state, buf, curlen)
    let buf := store buf curlen (List.replicate (56 - curlen) 0)
    let buf := store buf 56 (storeHigh 8 length)
    some (storeWords (sha256Compress state (slice buf 0 64)))

/-- `erofs_sha256`; `stack` is what its buffer holds at first. -/
def erofsSha256 (stack : Mem) (input : List UInt8) : Option (List UInt8) :=
  (erofsSha256Process (erofsSha256Init stack) input).bind erofsSha256Done

/-! ## The digest of the whole message -/

/-- The message, a bit that is set, zeroes, and the number of its bits in 64 bits: a whole number of
blocks. -/
def paddedMessage (m : List UInt8) : List UInt8 :=
  m ++ (0x80 :: (List.replicate ((119 - m.length % 64) % 64) 0 ++ storeHigh 8 (u64 (8 * m.length))))

/-- The digest, with one compression for each block of the padded message. -/
def digest (m : List UInt8) : List UInt8 :=
  storeWords (wholeBlocks 64 sha256Compress initWords (paddedMessage m))

/-- The state stands for the message `m`: its whole blocks are compressed, and what is left of it is
in the buffer. -/
structure Absorbed (md : Sha256State) (m : List UInt8) : Prop where
  state : md.state = wholeBlocks 64 sha256Compress initWords m
  curlen : md.curlen = m.length % 64
  length : md.length = u64 (512 * (m.length / 64))
  buf : slice md.buf 0 md.curlen = blockRest 64 m

theorem slice_store_end (buf : Mem) (n : ℕ) (bs : List UInt8) :
    slice (store buf n bs) 0 (n + bs.length) = slice buf 0 n ++ bs := by
  have hfront : slice (store buf n bs) 0 n = slice buf 0 n := by
    refine slice_congr ?_
    intro k hk
    exact store_of_lt _ (by omega)
  have hback : slice (store buf n bs) (0 + n) bs.length = bs := by
    refine List.ext_getElem? ?_
    intro i
    rw [getElem?_slice]
    split_ifs with hi
    · rw [List.getElem?_eq_getElem hi, Nat.zero_add]
      exact congrArg some (holds_store buf n bs i _ (List.getElem?_eq_getElem hi))
    · rw [List.getElem?_eq_none (by omega)]
  rw [slice_add, hfront, hback]

theorem erofsSha256Init_absorbed (buf : Mem) : Absorbed (erofsSha256Init buf) [] :=
  ⟨rfl, rfl, rfl, rfl⟩

theorem Absorbed.keep {md : Sha256State} {m piece : List UInt8} (h : Absorbed md m)
    (hlt : md.curlen + piece.length < 64) :
    Absorbed { md with
      buf := store md.buf md.curlen piece
      curlen := md.curlen + piece.length } (m ++ piece) := by
  have hcur := h.curlen
  obtain ⟨hstate, hrest⟩ := append_of_lt (f := sha256Compress) (n := 64) (l := m)
    initWords piece (by rw [length_blockRest]; omega)
  refine ⟨h.state.trans hstate.symm, ?_, ?_, ?_⟩
  · change md.curlen + piece.length = _
    rw [List.length_append]
    omega
  · have hblocks : (m ++ piece).length / 64 = m.length / 64 := by
      rw [List.length_append]
      omega
    rw [hblocks]
    exact h.length
  · rw [slice_store_end, h.buf, hrest]

theorem Absorbed.fill {md : Sha256State} {m piece : List UInt8} (h : Absorbed md m)
    (heq : md.curlen + piece.length = 64) (buf : Mem) :
    Absorbed { md with
      state := sha256Compress md.state (blockRest 64 m ++ piece)
      length := u64 (md.length + 512)
      buf := buf
      curlen := 0 } (m ++ piece) := by
  have hcur := h.curlen
  obtain ⟨hstate, hrest⟩ := append_of_eq (f := sha256Compress) (n := 64) (l := m)
    initWords piece (by omega) (by rw [length_blockRest]; omega)
  refine ⟨?_, ?_, ?_, hrest.symm⟩
  · rw [hstate, h.state]
  · change 0 = _
    rw [List.length_append]
    omega
  · have hblocks : (m ++ piece).length / 64 = m.length / 64 + 1 := by
      rw [List.length_append]
      omega
    change u64 (md.length + 512) = _
    rw [hblocks, h.length]
    unfold u64
    omega

theorem processLoop_absorbed {fuel : ℕ} {md : Sha256State} {m input : List UInt8}
    (h : Absorbed md m) (hfuel : input.length ≤ fuel) :
    Absorbed (processLoop fuel md input) (m ++ input) := by
  induction fuel generalizing md m input with
  | zero =>
      rw [List.eq_nil_of_length_eq_zero (Nat.le_zero.mp hfuel), List.append_nil]
      exact h
  | succ fuel ih =>
      have hlt : md.curlen < 64 := by
        rw [h.curlen]
        exact Nat.mod_lt _ (by omega)
      rw [processLoop]
      dsimp only
      split_ifs with hnil hwhole hfull
      · rw [hnil, List.append_nil]
        exact h
      · obtain ⟨hzero, hlen⟩ := hwhole
        have hempty : blockRest 64 m = [] := by
          rw [← h.buf, hzero]
          rfl
        have hfilled := @Absorbed.fill _ _ (input.take 64) h
          (by rw [hzero, List.length_take]; omega) md.buf
        rw [hempty, List.nil_append] at hfilled
        rw [← List.take_append_drop 64 input, ← List.append_assoc, List.take_append_drop]
        refine ih ?_ (by rw [List.length_drop]; omega)
        convert hfilled using 2
      · have hpos : 0 < input.length := List.length_pos_iff.mpr hnil
        have htake : (input.take (min input.length (64 - md.curlen))).length =
            min input.length (64 - md.curlen) := by
          rw [List.length_take]
          omega
        rw [← List.take_append_drop (min input.length (64 - md.curlen)) input, ← List.append_assoc,
          List.take_append_drop]
        refine ih ?_ (by rw [List.length_drop]; omega)
        have hslice := slice_store_end md.buf md.curlen
          (input.take (min input.length (64 - md.curlen)))
        rw [htake, hfull, h.buf] at hslice
        rw [hslice]
        exact h.fill (by rw [htake]; exact hfull) _
      · have htake : (input.take (min input.length (64 - md.curlen))).length =
            min input.length (64 - md.curlen) := by
          rw [List.length_take]
          omega
        have hpos : 0 < input.length := List.length_pos_iff.mpr hnil
        rw [← List.take_append_drop (min input.length (64 - md.curlen)) input, ← List.append_assoc,
          List.take_append_drop]
        refine ih ?_ (by rw [List.length_drop]; omega)
        have hkept := @Absorbed.keep _ _ (input.take (min input.length (64 - md.curlen))) h
          (by rw [htake]; omega)
        rw [htake] at hkept
        exact hkept

@[simp] theorem length_storeHigh (w x : ℕ) : (storeHigh w x).length = w := by
  rw [storeHigh, List.length_reverse, length_leBytes]

theorem Absorbed.bits {md : Sha256State} {m : List UInt8} (h : Absorbed md m) :
    u64 (md.length + md.curlen * 8) = u64 (8 * m.length) := by
  rw [h.length, h.curlen]
  unfold u64
  omega

theorem slice_lastBlock (buf : Mem) {n : ℕ} (hn : n ≤ 56) (bits : ℕ) :
    slice (store (store buf n (List.replicate (56 - n) 0)) 56 (storeHigh 8 bits)) 0 64 =
      slice buf 0 n ++ (List.replicate (56 - n) 0 ++ storeHigh 8 bits) := by
  have hlen := slice_store_end (store buf n (List.replicate (56 - n) 0)) 56 (storeHigh 8 bits)
  have hzero := slice_store_end buf n (List.replicate (56 - n) 0)
  rw [length_storeHigh] at hlen
  rw [List.length_replicate, Nat.add_sub_cancel' hn] at hzero
  rw [hlen, hzero, List.append_assoc]

/-- `erofs_sha256_done` compresses the padding behind the message, in one block or in two. -/
theorem erofsSha256Done_absorbed {md : Sha256State} {m : List UInt8} (h : Absorbed md m) :
    erofsSha256Done md = some (digest m) := by
  have hcur := h.curlen
  have hlt : md.curlen < 64 := by omega
  have hbits := h.bits
  have hmark := slice_store_end md.buf md.curlen [0x80]
  rw [h.buf, List.length_singleton] at hmark
  rw [erofsSha256Done, if_neg (by omega), digest, paddedMessage, ← hcur]
  dsimp only
  rw [hbits]
  by_cases htwo : 56 < md.curlen + 1
  · rw [if_pos htwo]
    dsimp only
    have hfull := slice_store_end (store md.buf md.curlen [0x80]) (md.curlen + 1)
      (List.replicate (64 - (md.curlen + 1)) 0)
    rw [List.length_replicate, Nat.add_sub_cancel' (by omega), hmark, List.append_assoc] at hfull
    have hlast := slice_lastBlock (store (store md.buf md.curlen [0x80]) (md.curlen + 1)
      (List.replicate (64 - (md.curlen + 1)) 0)) (Nat.zero_le 56) (u64 (8 * m.length))
    rw [hfull, hlast]
    -- the padding is cut where it fills the block of the message
    have hsplit : m ++ (0x80 :: (List.replicate ((119 - md.curlen) % 64) 0 ++
        storeHigh 8 (u64 (8 * m.length)))) =
        m ++ ([0x80] ++ List.replicate (64 - (md.curlen + 1)) 0) ++
          (List.replicate 56 0 ++ storeHigh 8 (u64 (8 * m.length))) := by
      have hzeros : (119 - md.curlen) % 64 = 64 - (md.curlen + 1) + 56 := by omega
      rw [hzeros, List.replicate_add]
      simp only [List.append_assoc, List.cons_append, List.nil_append]
    obtain ⟨hstate, hrest⟩ := append_of_eq (f := sha256Compress) (n := 64) (l := m) initWords
      ([0x80] ++ List.replicate (64 - (md.curlen + 1)) 0) (by omega)
      (by
        rw [length_blockRest, List.length_append, List.length_replicate, List.length_singleton]
        omega)
    obtain ⟨hstate', -⟩ := append_of_eq (f := sha256Compress) (n := 64)
      (l := m ++ ([0x80] ++ List.replicate (64 - (md.curlen + 1)) 0)) initWords
      (List.replicate 56 0 ++ storeHigh 8 (u64 (8 * m.length))) (by omega)
      (by rw [hrest, List.length_append, List.length_replicate, length_storeHigh]; rfl)
    rw [hsplit, hstate', hrest, hstate, h.state]
    rfl
  · rw [if_neg htwo]
    dsimp only
    have hlast := slice_lastBlock (store md.buf md.curlen [0x80]) (n := md.curlen + 1) (by omega)
      (u64 (8 * m.length))
    rw [hlast, hmark, List.append_assoc]
    obtain ⟨hstate, -⟩ := append_of_eq (f := sha256Compress) (n := 64) (l := m) initWords
      (0x80 :: (List.replicate ((119 - md.curlen) % 64) 0 ++ storeHigh 8 (u64 (8 * m.length))))
      (by omega)
      (by
        rw [length_blockRest, List.length_cons, List.length_append, List.length_replicate,
          length_storeHigh]
        omega)
    have hzeros : (119 - md.curlen) % 64 = 56 - (md.curlen + 1) := by omega
    rw [hstate, h.state, hzeros]
    rfl

/-- A message may come in any pieces: the digest is that of the whole message. -/
theorem erofsSha256_stream (stack : Mem) (pieces : List (List UInt8)) :
    (pieces.foldlM erofsSha256Process (erofsSha256Init stack)).bind erofsSha256Done =
      some (digest pieces.flatten) := by
  have hrun : ∀ (md : Sha256State) (m : List UInt8), Absorbed md m →
      (pieces.foldlM erofsSha256Process md).bind erofsSha256Done =
        some (digest (m ++ pieces.flatten)) := by
    induction pieces with
    | nil =>
        intro md m h
        rw [List.flatten_nil, List.append_nil]
        exact erofsSha256Done_absorbed h
    | cons piece pieces ih =>
        intro md m h
        have hcur : ¬ 64 < md.curlen := by
          have := h.curlen
          omega
        rw [List.foldlM_cons, erofsSha256Process, if_neg hcur, List.flatten_cons,
          ← List.append_assoc]
        exact ih _ _ (processLoop_absorbed h le_rfl)
  exact hrun _ [] (erofsSha256Init_absorbed stack)

theorem erofsSha256_eq (stack : Mem) (m : List UInt8) : erofsSha256 stack m = some (digest m) := by
  have h := erofsSha256_stream stack [m]
  rw [List.flatten_singleton] at h
  rw [← h, erofsSha256, List.foldlM_cons]
  cases erofsSha256Process (erofsSha256Init stack) m with
  | none => rfl
  | some md => rfl

end ErofsUtils.Sha256
