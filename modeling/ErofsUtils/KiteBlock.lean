import ErofsUtils.KiteHuffman

/-!
# Blocks of the DEFLATE encoder

The part of `kite_deflate.c` that counts symbols, chooses an encoding and writes a block: the bit
writer, the run-length coded trees, `kite_deflate_fixdynblock`, `deflate_count_code`,
`kite_deflate_tally`, `kite_deflate_endblock` and `kite_deflate_commitblock`.
-/

namespace ErofsUtils

/-- `out[0..pos_out)`, `inflightbits` and `bitpos`. -/
structure KiteSink where
  out : List UInt8
  inflightbits : ℕ
  bitpos : ℕ

def wordBytes (n word : ℕ) : List UInt8 :=
  (List.range n).map fun i => UInt8.ofNat (word / 2 ^ (8 * i))

def writebits (s : KiteSink) (v bits : ℕ) : KiteSink :=
  let rem := 32 - s.bitpos
  -- the mask `!rem - 1` drops the value when the word is full
  let inflightbits := s.inflightbits ||| (if rem = 0 then 0 else u32 (v <<< s.bitpos))
  if rem < bits then
    ⟨s.out ++ wordBytes 4 inflightbits, v >>> rem, bits - rem⟩
  else ⟨s.out, inflightbits, s.bitpos + bits⟩

def flushbits (s : KiteSink) : KiteSink :=
  if s.bitpos = 0 then s
  else ⟨s.out ++ wordBytes (roundUp s.bitpos 8 / 8) s.inflightbits, 0, 0⟩

/-- `struct kite_deflate_symbol`; `dist` is the byte of a literal. -/
structure KiteSymbol where
  len : ℕ
  dist : ℕ
  deriving DecidableEq, Repr

structure KiteDeflateTable where
  mainCodes : CArray
  litLenLevels : CArray
  distCodes : CArray
  distLevels : CArray
  levelCodes : CArray
  levelLens : CArray
  numdistlens : ℕ
  numblcodes : ℕ
  numlitlens : ℕ

def KiteDeflateTable.zero : KiteDeflateTable :=
  ⟨.zero, .zero, .zero, .zero, .zero, .zero, 0, 0, 0⟩

inductive EncodeMode
  | stored | fixedHuffman | dynamicHuffman
  deriving DecidableEq, Repr

/-- The counters that `kite_deflate_scanlens` and `kite_deflate_sendtree` both keep; `none` stands
for the length `-1`. -/
structure LenRun where
  prevlen : Option ℕ
  count : ℕ
  maxCount : ℕ
  minCount : ℕ

def LenRun.start (nextlen : ℕ) : LenRun :=
  if nextlen = 0 then ⟨none, 0, 138, 3⟩ else ⟨none, 0, 7, 4⟩

/-- The limits after a run of `curlen` has been sent. -/
def LenRun.next (curlen : ℕ) (nextlen : Option ℕ) : LenRun :=
  if nextlen = some 0 then ⟨some curlen, 0, 138, 3⟩
  else if nextlen = some curlen then ⟨some curlen, 0, 6, 3⟩
  else ⟨some curlen, 0, 7, 4⟩

/-- The loop of `kite_deflate_scanlens` over the lengths that are left. -/
def scanlensLoop : List ℕ → LenRun → CArray → CArray
  | [], _, freqs => freqs
  | curlen :: rest, r, freqs =>
      let nextlen := rest.head?
      let count := r.count + 1
      if count < r.maxCount ∧ some curlen = nextlen then
        scanlensLoop rest { r with count := count } freqs
      else
        let freqs :=
          if count < r.minCount then setAt freqs curlen (freqs curlen + count)
          else if curlen ≠ 0 then
            let freqs := if some curlen ≠ r.prevlen then setAt freqs curlen (freqs curlen + 1)
              else freqs
            setAt freqs kBitLensRepNumber_3_6 (freqs kBitLensRepNumber_3_6 + 1)
          else if count ≤ 10 then setAt freqs kBitLens0Number_3_10 (freqs kBitLens0Number_3_10 + 1)
          else setAt freqs kBitLens0Number_11_138 (freqs kBitLens0Number_11_138 + 1)
        scanlensLoop rest (.next curlen nextlen) freqs

def kiteDeflateScanlens (lens : List ℕ) (freqs : CArray) : CArray :=
  scanlensLoop lens (.start (lens.headD 0)) freqs

/-- `do { writebits(s, v, bits); } while (--count)` for `count` turns. -/
def writebitsRepeat (v bits : ℕ) : ℕ → KiteSink → KiteSink
  | 0, s => s
  | n + 1, s => writebitsRepeat v bits n (writebits s v bits)

/-- The loop of `kite_deflate_sendtree` over the lengths that are left. -/
def sendtreeLoop (blCodes blLens : CArray) : List ℕ → LenRun → KiteSink → KiteSink
  | [], _, s => s
  | curlen :: rest, r, s =>
      let nextlen := rest.head?
      let count := r.count + 1
      if count < r.maxCount ∧ some curlen = nextlen then
        sendtreeLoop blCodes blLens rest { r with count := count } s
      else
        let s :=
          if count < r.minCount then writebitsRepeat (blCodes curlen) (blLens curlen) count s
          else if curlen ≠ 0 then
            let (s, count) := if some curlen ≠ r.prevlen then
                (writebits s (blCodes curlen) (blLens curlen), count - 1)
              else (s, count)
            let s := writebits s (blCodes kBitLensRepNumber_3_6) (blLens kBitLensRepNumber_3_6)
            writebits s (count - 3) 2
          else if count ≤ 10 then
            let s := writebits s (blCodes kBitLens0Number_3_10) (blLens kBitLens0Number_3_10)
            writebits s (count - 3) 3
          else
            let s := writebits s (blCodes kBitLens0Number_11_138) (blLens kBitLens0Number_11_138)
            writebits s (count - 11) 7
        sendtreeLoop blCodes blLens rest (.next curlen nextlen) s

def kiteDeflateSendtree (blCodes blLens : CArray) (s : KiteSink) (lens : List ℕ) : KiteSink :=
  sendtreeLoop blCodes blLens lens (.start (lens.headD 0)) s

def firstLens (lens : CArray) (n : ℕ) : List ℕ := (List.range n).map lens

def kiteDeflateSetfixedtrees (s : KiteSink) (lastblock : Bool) : KiteSink :=
  writebits s (1 * 2 + lastblock.toNat) 3

/-- `kite_deflate_sendtrees`; `levelCodes` is reversed on the way. -/
def kiteDeflateSendtrees (s : KiteSink) (lastblock : Bool) (t : KiteDeflateTable) : KiteSink :=
  let s := writebits s (2 * 2 + lastblock.toNat) 3
  let s := writebits s (t.numlitlens - kNumLitLenCodesMin) 5
  let s := writebits s (t.numdistlens - kNumDistCodesMin) 5
  let s := writebits s (t.numblcodes - kNumLensCodesMin) 4
  let s := (List.range t.numblcodes).foldl
    (fun s i => writebits s (t.levelLens (kCodeLengthAlphabetOrder i)) 3) s
  let levelCodes := huffmanReverseBits t.levelCodes t.levelLens kLensTableSize
  let s := kiteDeflateSendtree levelCodes t.levelLens s (firstLens t.litLenLevels t.numlitlens)
  kiteDeflateSendtree levelCodes t.levelLens s (firstLens t.distLevels t.numdistlens)

/-- One turn of the loop of `kite_deflate_writeblock`. -/
def writeSymbol (mainCodes litLenLevels distCodes distLevels : CArray) (s : KiteSink)
    (sym : KiteSymbol) : KiteSink :=
  if sym.len < kMatchMinLen then writebits s (mainCodes sym.dist) (litLenLevels sym.dist)
  else
    let lc := sym.len - kMatchMinLen
    let lenSlot := gLenSlots lc
    let s := writebits s (mainCodes (kSymbolMatch + lenSlot)) (litLenLevels (kSymbolMatch + lenSlot))
    let s := writebits s (lc - kLenStart32 lenSlot) (kLenExtraBits32 lenSlot)
    let distSlot := deflateDistSlot (sym.dist - 1)
    let s := writebits s (distCodes distSlot) (distLevels distSlot)
    writebits s (sym.dist - 1 - kDistStart distSlot) (kDistExtraBits distSlot)

def kiteDeflateWriteblock (s : KiteSink) (symbols : List KiteSymbol)
    (tab : Option KiteDeflateTable) : KiteSink :=
  match tab with
  | none =>
      let s := symbols.foldl (writeSymbol kstaticHuffMainCodes kstaticHuffLitLenLevels
        kstaticHuffDistCodes ⟨fun _ => 5⟩) s
      writebits s (kstaticHuffMainCodes kSymbolEndOfBlock) (kstaticHuffLitLenLevels kSymbolEndOfBlock)
  | some t =>
      let mainCodes := huffmanReverseBits t.mainCodes t.litLenLevels kMainTableSize
      let distCodes := huffmanReverseBits t.distCodes t.distLevels kDistTableSize32
      let s := symbols.foldl (writeSymbol mainCodes t.litLenLevels distCodes t.distLevels) s
      writebits s (mainCodes kSymbolEndOfBlock) (t.litLenLevels kSymbolEndOfBlock)

/-- `struct kite_deflate` without the input and the match finder; `tab1` tells that `tab` points
to `tables[1]`. -/
structure KiteDeflate where
  inlen : ℕ
  outlen : ℕ
  posIn : ℕ
  sink : KiteSink
  symbols : List KiteSymbol
  costbits : ℕ
  startpos : ℕ
  encodeMode : EncodeMode
  freqChanged : Bool
  lastblock : Bool
  prevValid : Bool
  prevLongest : ℕ
  mainFreqs : CArray
  distFreqs : CArray
  table0 : KiteDeflateTable
  table1 : KiteDeflateTable
  tab1 : Bool

namespace KiteDeflate

def tab (s : KiteDeflate) : KiteDeflateTable := if s.tab1 then s.table1 else s.table0

def setTab (s : KiteDeflate) (t : KiteDeflateTable) : KiteDeflate :=
  if s.tab1 then { s with table1 := t } else { s with table0 := t }

def switchTab (s : KiteDeflate) : KiteDeflate := { s with tab1 := !s.tab1 }

end KiteDeflate

/-- The loops that drop trailing zero lengths: the smallest count from `min` on that keeps all
lengths in use. -/
def trimLens (min : ℕ) (lens : ℕ → ℕ) : ℕ → ℕ
  | 0 => 0
  | n + 1 => if min < n + 1 ∧ lens n = 0 then trimLens min lens n else n + 1

/-- The table that `kite_deflate_fixdynblock` builds for the current frequencies. -/
def dynTable (mainFreqs distFreqs : CArray) (t : KiteDeflateTable) :
    KiteDeflateTable × CArray :=
  let (mainCodes, litLenLevels) :=
    huffmanGenerate mainFreqs t.mainCodes t.litLenLevels kMainTableSize kMaxLen
  let (distCodes, distLevels) :=
    huffmanGenerate distFreqs t.distCodes t.distLevels kDistTableSize32 kMaxLen
  let numlitlens := trimLens kNumLitLenCodesMin litLenLevels kMainTableSize
  let numdistlens := trimLens kNumDistCodesMin distLevels kDistTableSize32
  let levelFreqs := kiteDeflateScanlens (firstLens litLenLevels numlitlens) .zero
  let levelFreqs := kiteDeflateScanlens (firstLens distLevels numdistlens) levelFreqs
  let (levelCodes, levelLens) :=
    huffmanGenerate levelFreqs t.levelCodes t.levelLens kLensTableSize 7
  let numblcodes := trimLens kNumLensCodesMin (fun i => levelLens (kCodeLengthAlphabetOrder i))
    kLensTableSize
  (⟨mainCodes, litLenLevels, distCodes, distLevels, levelCodes, levelLens, numdistlens, numblcodes,
    numlitlens⟩, levelFreqs)

/-- `s->costbits` of a dynamic block with the table `t`. -/
def dynCost (mainFreqs distFreqs levelFreqs : CArray) (t : KiteDeflateTable) : ℕ :=
  let optMainlen := u32 (
    huffmanGetPriceEx mainFreqs t.litLenLevels kMainTableSize kLenExtraBits32 kSymbolMatch +
    huffmanGetPriceEx distFreqs t.distLevels kDistTableSize32 kDistExtraBits 0)
  u32 (3 + 5 + 5 + 4 + 3 * t.numblcodes +
    huffmanGetPriceEx levelFreqs t.levelLens kLensTableSize kLevelExtraBits kTableDirectLevels +
    optMainlen)

def kiteDeflateFixdynblock (s : KiteDeflate) : KiteDeflate :=
  if s.freqChanged = false then s
  else
    let (t, levelFreqs) := dynTable s.mainFreqs s.distFreqs s.tab
    { s.setTab t with
      costbits := dynCost s.mainFreqs s.distFreqs levelFreqs t
      freqChanged := false }

def countFreqs (s : KiteDeflate) (literal : Bool) (lenSlot distSlot : ℕ) : KiteDeflate :=
  let i := (if literal then 0 else kSymbolMatch) + lenSlot
  { s with
    freqChanged := true
    mainFreqs := setAt s.mainFreqs i (s.mainFreqs i + 1)
    distFreqs := if literal then s.distFreqs
      else setAt s.distFreqs distSlot (s.distFreqs distSlot + 1) }

def uncountFreqs (s : KiteDeflate) (literal : Bool) (lenSlot distSlot : ℕ) : KiteDeflate :=
  let i := (if literal then 0 else kSymbolMatch) + lenSlot
  { s with
    mainFreqs := setAt s.mainFreqs i (s.mainFreqs i - 1)
    distFreqs := if literal then s.distFreqs
      else setAt s.distFreqs distSlot (s.distFreqs distSlot - 1) }

def fixedBits (literal : Bool) (lenSlot distSlot : ℕ) : ℕ :=
  if literal then kstaticHuffLitLenLevels lenSlot
  else kstaticHuffLitLenLevels (kSymbolMatch + lenSlot) + kLenExtraBits32 lenSlot + 5 +
    kDistExtraBits distSlot

def dynBits (t : KiteDeflateTable) (literal : Bool) (lenSlot distSlot : ℕ) : ℕ :=
  if literal then t.litLenLevels lenSlot
  else t.distLevels distSlot + kDistExtraBits distSlot + t.litLenLevels (kSymbolMatch + lenSlot) +
    kLenExtraBits32 lenSlot

def KiteDeflate.rem (s : KiteDeflate) : ℕ :=
  sub64 (sub32 s.outlen s.sink.out.length * 8) s.sink.bitpos

def deflateCountCode (s : KiteDeflate) (literal : Bool) (lenSlot distSlot : ℕ) :
    KiteDeflate × Bool :=
  let t := s.tab
  let rem := s.rem
  let lenbase := if literal then 0 else kSymbolMatch
  let s := countFreqs s literal lenSlot distSlot
  let recalc := s.encodeMode ≠ .fixedHuffman ∧
    ((literal = false ∧ t.distLevels distSlot = 0) ∨ t.litLenLevels (lenbase + lenSlot) = 0)
  let s := if recalc then kiteDeflateFixdynblock s.switchTab else s
  let bits := if s.encodeMode = .fixedHuffman then fixedBits literal lenSlot distSlot
    else if recalc then 0 else dynBits t literal lenSlot distSlot
  if rem < u32 (s.costbits + bits) then
    let s := uncountFreqs s literal lenSlot distSlot
    (if recalc then s.switchTab else s, false)
  else ({ s with costbits := u32 (s.costbits + bits) }, true)

/-- `deflate_count_code` for a symbol. -/
def countSymbol (s : KiteDeflate) (sym : KiteSymbol) : KiteDeflate × Bool :=
  if sym.len < kMatchMinLen then deflateCountCode s true sym.dist 0
  else deflateCountCode s false (gLenSlots (sym.len - kMatchMinLen)) (deflateDistSlot (sym.dist - 1))

/-- `kite_deflate_tally`: `true` when the symbol does not fit any more. -/
def kiteDeflateTally (s : KiteDeflate) (sym : KiteSymbol) : KiteDeflate × Bool :=
  let (s₁, hassp) := countSymbol s sym
  if hassp then ({ s₁ with symbols := s₁.symbols ++ [sym] }, false)
  else if s₁.encodeMode = .fixedHuffman then
    let fixedcost := s₁.costbits
    let (s₂, hassp) := countSymbol { s₁ with encodeMode := .dynamicHuffman } sym
    if hassp then ({ s₂ with symbols := s₂.symbols ++ [sym] }, false)
    else ({ s₂ with
      lastblock := true
      encodeMode := if fixedcost ≤ s₂.costbits then .fixedHuffman else s₂.encodeMode }, true)
  else ({ s₁ with
    lastblock := true
    encodeMode := if 2 ^ 32 - 1 ≤ s₁.costbits then .fixedHuffman else s₁.encodeMode }, true)

def inputBytes (inp : ℕ → UInt8) (a b : ℕ) : List UInt8 :=
  (List.range (b - a)).map fun i => inp (a + i)

/-- The loop of `kite_deflate_writestore` with at most `fuel` turns. -/
def writestoreLoop (inp : ℕ → UInt8) (fb lastblock : Bool) : ℕ → ℕ → ℕ → KiteSink → KiteSink
  | 0, _, _, s => s
  | fuel + 1, startpos, totalsiz, s =>
      let len := min totalsiz 65535
      let totalsiz := totalsiz - len
      let s := writebits s (fb.toNat * 8 + (lastblock && totalsiz == 0).toNat) (3 + fb.toNat)
      let s := flushbits s
      let s := writebits s len 16
      let s := writebits s (len ^^^ 0xffff) 16
      let s := flushbits s
      let s := { s with out := s.out ++ inputBytes inp startpos (startpos + len) }
      if totalsiz = 0 then s else writestoreLoop inp fb lastblock fuel (startpos + len) totalsiz s

/-- The end of the input that the symbols of the block cover. -/
def KiteDeflate.endpos (s : KiteDeflate) : ℕ := sub32 s.posIn s.prevValid.toNat

def kiteDeflateWritestore (inp : ℕ → UInt8) (s : KiteDeflate) : KiteSink :=
  let totalsiz := sub32 s.endpos s.startpos
  writestoreLoop inp (s.startpos == 0 && s.sink.bitpos == 0) s.lastblock (totalsiz / 65535 + 1)
    s.startpos totalsiz s.sink

def kiteDeflateEndblock (s : KiteDeflate) : KiteDeflate :=
  let s :=
    if s.encodeMode = .fixedHuffman then
      let fixedcost := s.costbits
      let s := kiteDeflateFixdynblock s
      let s := if s.costbits < fixedcost then { s with encodeMode := .dynamicHuffman }
        else { s with costbits := fixedcost }
      let storelen := sub32 s.endpos s.startpos
      let storeblocks := max ((storelen + 65534) / 65535) 1
      let storecost := u32 (8 + (2 ^ 32 - s.sink.bitpos) + storeblocks - 1 + storeblocks * 32 +
        storelen * 8)
      if storecost < s.costbits then { s with costbits := storecost, encodeMode := .stored } else s
    else s
  { s with lastblock := s.lastblock ||
      decide (u32 (sub32 s.outlen s.sink.out.length * 8) ≤ u32 (s.costbits + s.sink.bitpos)) }

def kiteDeflateStartblock (s : KiteDeflate) : KiteDeflate :=
  { s with
    mainFreqs := setAt .zero kSymbolEndOfBlock 1
    distFreqs := .zero
    table0 := .zero
    symbols := []
    encodeMode := .fixedHuffman
    tab1 := false
    costbits := 3 + kstaticHuffLitLenLevels kSymbolEndOfBlock }

def kiteDeflateCommitblock (inp : ℕ → UInt8) (s : KiteDeflate) : KiteDeflate × Bool :=
  let sink := match s.encodeMode with
    | .fixedHuffman =>
        kiteDeflateWriteblock (kiteDeflateSetfixedtrees s.sink s.lastblock) s.symbols none
    | .dynamicHuffman =>
        kiteDeflateWriteblock (kiteDeflateSendtrees s.sink s.lastblock s.tab) s.symbols (some s.tab)
    | .stored => kiteDeflateWritestore inp s
  ({ s with sink := sink, startpos := s.endpos }, s.lastblock)

end ErofsUtils
