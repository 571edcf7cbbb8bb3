import ErofsUtils.Layout

/-!
# Huffman codes of the DEFLATE encoder

The tables of `kite_deflate.c`, the slots of lengths and distances, and the construction of the
codes: `deflate_genhuffcodes`, `Huffman_ReverseBits`, `HeapSort` and `Huffman_Generate`.
-/

namespace ErofsUtils

/-- A C array of unsigned values; nothing reads behind its end. -/
@[ext] structure CArray where
  get : ℕ → ℕ

instance : CoeFun CArray fun _ => ℕ → ℕ := ⟨CArray.get⟩

/-- An array that `memset` or `calloc` has cleared. -/
def CArray.zero : CArray := ⟨fun _ => 0⟩

@[simp] theorem CArray.zero_get (i : ℕ) : CArray.zero i = 0 := rfl

/-- The array `p` after `p[i] = v`. -/
def setAt (p : CArray) (i v : ℕ) : CArray := ⟨fun j => if j = i then v else p j⟩

@[simp] theorem setAt_self (p : CArray) (i v : ℕ) : setAt p i v i = v := if_pos rfl

theorem setAt_of_ne (p : CArray) {i j : ℕ} (v : ℕ) (h : j ≠ i) : setAt p i v j = p j := if_neg h

theorem setAt_apply (p : CArray) (i v j : ℕ) : setAt p i v j = if j = i then v else p j := rfl

/-- The difference of two values of type `u32`. -/
def sub32 (a b : ℕ) : ℕ := (a + (2 ^ 32 - b)) % 2 ^ 32

theorem sub32_of_le {a b : ℕ} (h : b ≤ a) (ha : a < 2 ^ 32) : sub32 a b = a - b := by
  unfold sub32
  omega

section Tables

def kHistorySize32 : ℕ := 2 ^ 15
def kSymbolEndOfBlock : ℕ := 256
def kSymbolMatch : ℕ := kSymbolEndOfBlock + 1
def kNumLenSlots : ℕ := 29
def kMainTableSize : ℕ := kSymbolMatch + kNumLenSlots
def kFixedLenTableSize : ℕ := kSymbolMatch + 31
def kDistTableSize32 : ℕ := 30
def kNumLitLenCodesMin : ℕ := 257
def kNumDistCodesMin : ℕ := 1
def kNumLensCodesMin : ℕ := 4
def kLensTableSize : ℕ := 19
def kMatchMinLen : ℕ := 3
def kTableDirectLevels : ℕ := 16
def kBitLensRepNumber_3_6 : ℕ := kTableDirectLevels
def kBitLens0Number_3_10 : ℕ := kBitLensRepNumber_3_6 + 1
def kBitLens0Number_11_138 : ℕ := kBitLens0Number_3_10 + 1
def kMaxLen : ℕ := 16

def kstaticHuffLitLenLevels : CArray :=
  ⟨fun i => if i ≤ 143 then 8 else if i ≤ 255 then 9 else if i ≤ 279 then 7 else 8⟩

def kLenStart32 (i : ℕ) : ℕ :=
  [0, 1, 2, 3, 4, 5, 6, 7, 8, 10, 12, 14, 16, 20, 24, 28, 32, 40, 48, 56, 64, 80, 96, 112, 128,
    160, 192, 224, 255].getD i 0

def kLenExtraBits32 (i : ℕ) : ℕ :=
  [0, 0, 0, 0, 0, 0, 0, 0, 1, 1, 1, 1, 2, 2, 2, 2, 3, 3, 3, 3, 4, 4, 4, 4, 5, 5, 5, 5, 0].getD i 0

def kDistStart (i : ℕ) : ℕ :=
  [0, 1, 2, 3, 4, 6, 8, 12, 16, 24, 32, 48, 64, 96, 128, 192, 256, 384, 512, 768, 1024, 1536, 2048,
    3072, 4096, 6144, 8192, 12288, 16384, 24576].getD i 0

def kDistExtraBits (i : ℕ) : ℕ :=
  [0, 0, 0, 0, 1, 1, 2, 2, 3, 3, 4, 4, 5, 5, 6, 6, 7, 7, 8, 8, 9, 9, 10, 10, 11, 11, 12, 12, 13,
    13].getD i 0

def kCodeLengthAlphabetOrder (i : ℕ) : ℕ :=
  [16, 17, 18, 0, 8, 7, 9, 6, 10, 5, 11, 4, 12, 3, 13, 2, 14, 1, 15].getD i 0

def kLevelExtraBits (i : ℕ) : ℕ := [2, 3, 7].getD i 0

/-- `g_LenSlots` as `kite_deflate_init_once` fills it, slot after slot. -/
def gLenSlots : CArray :=
  (List.range kNumLenSlots).foldl (fun slots i =>
      (List.range (2 ^ kLenExtraBits32 i)).foldl
        (fun slots k => setAt slots (kLenStart32 i + k) i) slots)
    .zero

/-- `g_FastPos`: the slots of the first distances one after another. -/
def gFastPos : List ℕ :=
  (List.range 18).flatMap fun i => List.replicate (2 ^ kDistExtraBits i) i

def deflateDistSlot (pos : ℕ) : ℕ :=
  let zz := if sub32 511 pos / 2 ^ 28 % 16 / 8 = 1 then 8 else 0
  gFastPos.getD (pos / 2 ^ zz) 0 + zz * 2

end Tables

/-- `nextCodes[1..kMaxLen]` of `deflate_genhuffcodes`. -/
def nextCodes (blCount : CArray) : ℕ → ℕ
  | 0 => 0
  | bits + 1 => 2 * (nextCodes blCount bits + blCount bits)

/-- The loop `p[k] = nextCodes[lens[k]]++`. -/
def genCodesFrom (lens next p : CArray) (nrCodes : ℕ) : CArray × CArray :=
  (List.range nrCodes).foldl (fun (next, p) k =>
    (setAt next (lens k) (next (lens k) + 1), setAt p k (next (lens k)))) (next, p)

def deflateGenhuffcodes (lens p : CArray) (nrCodes : ℕ) (blCount : CArray) : CArray :=
  (genCodesFrom lens ⟨nextCodes blCount⟩ p nrCodes).2

def deflateReversebitsOne (code bits : ℕ) : ℕ :=
  let x := code
  let x := ((x &&& 0x5555) <<< 1) ||| ((x &&& 0xAAAA) >>> 1)
  let x := ((x &&& 0x3333) <<< 2) ||| ((x &&& 0xCCCC) >>> 2)
  let x := ((x &&& 0x0F0F) <<< 4) ||| ((x &&& 0xF0F0) >>> 4)
  (((x &&& 0x00FF) <<< 8) ||| ((x &&& 0xFF00) >>> 8)) >>> (16 - bits)

def huffmanReverseBits (codes lens : CArray) (n : ℕ) : CArray :=
  ⟨fun i => if i < n then deflateReversebitsOne (codes i) (lens i) else codes i⟩

/-- `static_bl_count` of `kite_deflate_init_once`. -/
def staticBlCount : CArray :=
  ⟨fun bits => if bits = 7 then 279 - 256 + 1
    else if bits = 8 then (143 + 1) + (287 - 280 + 1)
    else if bits = 9 then 255 - 144 + 1
    else 0⟩

def kstaticHuffMainCodes : CArray :=
  huffmanReverseBits
    (deflateGenhuffcodes kstaticHuffLitLenLevels .zero kFixedLenTableSize staticBlCount)
    kstaticHuffLitLenLevels kFixedLenTableSize

def kstaticHuffDistCodes : CArray := ⟨fun i => deflateReversebitsOne i 5⟩

section HeapSort

/-- `HeapSortDown` from position `k` with the value `temp` in hand, over a 1-based array. -/
def heapSortDown (size temp : ℕ) : ℕ → ℕ → CArray → CArray
  | 0, k, p => setAt p k temp
  | fuel + 1, k, p =>
      let s := 2 * k
      if size < s then setAt p k temp
      else
        let s := if s < size ∧ p s < p (s + 1) then s + 1 else s
        if p s ≤ temp then setAt p k temp
        else heapSortDown size temp fuel s (setAt p k (p s))

/-- The loop of `HeapSort` that builds the heap, for `i` down to 1. -/
def heapBuild (size : ℕ) : ℕ → CArray → CArray
  | 0, p => p
  | i + 1, p => heapBuild size i (heapSortDown size (p (i + 1)) size (i + 1) p)

/-- The loop `while (size > 3)`, and what is left to do for the last two or three values. -/
def heapDrain : ℕ → CArray → CArray
  | size + 1, p =>
      if 3 < size + 1 then
        let temp := p (size + 1)
        let k := if p 2 < p 3 then 3 else 2
        let p := setAt p (size + 1) (p 1)
        let p := setAt p 1 (p k)
        heapDrain size (heapSortDown size temp size k p)
      else
        let temp := p (size + 1)
        let p := setAt p (size + 1) (p 1)
        if 2 < size + 1 ∧ p 2 < temp then setAt (setAt p 1 (p 2)) 2 temp
        else setAt p 1 temp
  | 0, p => p

def heapSort (p : CArray) (size : ℕ) : CArray :=
  if size ≤ 1 then p
  else
    -- `p--`: the heap is numbered from 1
    let q := heapDrain size (heapBuild size (size / 2) ⟨fun i => p (i - 1)⟩)
    ⟨fun i => q (i + 1)⟩

end HeapSort

section Generate

/-- `NUM_BITS`: the low bits of an entry hold a symbol, the others a frequency, a parent or a
length. -/
def huffmanMask : ℕ := 2 ^ 10

/-- The symbols in use, each with its frequency: `p[0..num)`. -/
def huffmanCollect (freqs : CArray) (numSymbols : ℕ) : List ℕ :=
  ((List.range numSymbols).filter fun i => freqs i ≠ 0).map fun i =>
    i ||| u32 (freqs i * huffmanMask)

/-- The next node of the merge: the leaf `i` or the inner node `b`. -/
def huffmanPick (p : CArray) (num i b e : ℕ) : ℕ × ℕ × ℕ :=
  if i ≠ num ∧ (b = e ∨ p i / huffmanMask ≤ p b / huffmanMask) then (i, i + 1, b) else (b, i, b + 1)

/-- One turn of the merge loop, which makes the inner node `e`. -/
def huffmanMerge (num : ℕ) (st : CArray × ℕ × ℕ) (e : ℕ) : CArray × ℕ × ℕ :=
  let (p, i, b) := st
  let (n, i, b) := huffmanPick p num i b e
  let freq := p n / huffmanMask * huffmanMask
  let p := setAt p n (p n % huffmanMask + e * huffmanMask)
  let (m, i, b) := huffmanPick p num i b e
  let freq := u32 (freq + p m / huffmanMask * huffmanMask)
  let p := setAt p m (p m % huffmanMask + e * huffmanMask)
  (setAt p e (p e % huffmanMask + freq), i, b)

/-- The longest length below `maxLen` that a code still has. -/
def huffmanFindLen (lenCounters : CArray) : ℕ → ℕ
  | 0 => 0
  | len + 1 => if lenCounters (len + 1) = 0 then huffmanFindLen lenCounters len else len + 1

/-- One turn of the loop that computes the depth of the inner node `e` and counts its leaves. -/
def huffmanDepth (maxLen : ℕ) (st : CArray × CArray) (e : ℕ) : CArray × CArray :=
  let (p, lenCounters) := st
  let len := p (p e / huffmanMask) / huffmanMask + 1
  let p := setAt p e (p e % huffmanMask + len * huffmanMask)
  let len := if maxLen ≤ len then huffmanFindLen lenCounters (maxLen - 1) else len
  let lenCounters := setAt lenCounters len (lenCounters len - 1)
  (p, setAt lenCounters (len + 1) (lenCounters (len + 1) + 2))

/-- `for (k = lenCounters[len]; k != 0; k--) lens[p[i++] & MASK] = len`. -/
def huffmanAssignRun (p : CArray) (len : ℕ) : ℕ → ℕ → CArray → ℕ × CArray
  | 0, i, lens => (i, lens)
  | k + 1, i, lens => huffmanAssignRun p len k (i + 1) (setAt lens (p i % huffmanMask) (len % 256))

/-- The loop over the lengths, from `maxLen` down to 1. -/
def huffmanAssign (p lenCounters : CArray) : ℕ → ℕ → CArray → CArray
  | 0, _, lens => lens
  | len + 1, i, lens =>
      let (i, lens) := huffmanAssignRun p (len + 1) (lenCounters (len + 1)) i lens
      huffmanAssign p lenCounters len i lens

/-- The inner nodes with their depths, and the number of codes of each length. -/
def huffmanCounts (p : CArray) (num maxLen : ℕ) : CArray × CArray :=
  let (p, _, _) := (List.range (num - 1)).foldl (huffmanMerge num) (p, 0, 0)
  let p := setAt p (num - 2) (p (num - 2) % huffmanMask)
  (List.range (num - 2)).reverse.foldl (huffmanDepth maxLen) (p, setAt .zero 1 2)

/-- `Huffman_Generate`: the codes and the lengths for the frequencies of `numSymbols` symbols. -/
def huffmanGenerate (freqs p lens : CArray) (numSymbols maxLen : ℕ) : CArray × CArray :=
  let used := huffmanCollect freqs numSymbols
  let num := used.length
  let lens : CArray := ⟨fun i => if i < numSymbols ∧ freqs i = 0 then 0 else lens i⟩
  let p := heapSort ⟨fun i => if i < num then used.getD i 0 else p i⟩ num
  if num < 2 then
    let minCode := 0
    let maxCode := if num = 1 then (if p 0 % huffmanMask = 0 then 1 else p 0 % huffmanMask) else 1
    (setAt (setAt p minCode 0) maxCode 1, setAt (setAt lens minCode 1) maxCode 1)
  else
    let (p, lenCounters) := huffmanCounts p num maxLen
    let lens := huffmanAssign p lenCounters maxLen 0 lens
    (deflateGenhuffcodes lens p numSymbols lenCounters, lens)

end Generate

section Price

def huffmanGetPrice (freqs lens : ℕ → ℕ) (num : ℕ) : ℕ :=
  u32 ((List.range num).map fun i => lens i * freqs i).sum

def huffmanGetPriceEx (freqs lens : ℕ → ℕ) (num : ℕ) (extraBits : ℕ → ℕ) (extraBase : ℕ) : ℕ :=
  u32 (huffmanGetPrice freqs lens num +
    huffmanGetPrice (fun i => freqs (extraBase + i)) extraBits (num - extraBase))

end Price

end ErofsUtils
