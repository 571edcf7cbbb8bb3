import ErofsUtils.KiteBlock
import ErofsUtils.KiteMatchfinder

/-!
# The parsers of the DEFLATE encoder

`kite_deflate_fast`, `kite_deflate_slow` and `kite_deflate_destsize`. A block is kept as the state
in which `kite_deflate_commitblock` finds it, so that its symbols, its table and the input that it
covers can be read off.
-/

namespace ErofsUtils

def zlibDistanceTooFar : ℕ := 4096

/-- `s->max_symbols` as `kite_deflate_init` sets it. -/
def kiteMaxSymbols : ℕ := 16384

def KiteMatch.symbol (m : KiteMatch) : KiteSymbol := ⟨u16 m.len, u16 m.dist⟩

section Parse

variable (inp : ℕ → UInt8)

/-- The end of a turn: `true` when the block ends here. -/
def kiteDeflateTurn (s : KiteDeflate) : KiteDeflate × Bool :=
  let s := { s with lastblock := s.lastblock || decide (s.inlen ≤ s.posIn) }
  if s.inlen ≤ s.posIn ∨ kiteMaxSymbols ≤ s.symbols.length then (kiteDeflateEndblock s, true)
  else (s, false)

def kiteDeflateFastLoop : ℕ → KiteDeflate × KiteMatchfinder → Option (KiteDeflate × KiteMatchfinder)
  | 0, _ => none
  | fuel + 1, (s, mf) =>
      let (mf, found) := kiteMfGetmatchesHc3 inp s.inlen mf mf.depth (kMatchMinLen - 1)
      let m := mf.matchesRow (found.getD 0)
      if found.getD 0 ≠ 0 ∧ ¬ (m.len = kMatchMinLen ∧ zlibDistanceTooFar < m.dist) then
        let (s, full) := kiteDeflateTally s m.symbol
        if full then some (s, mf)
        else
          let s := { s with posIn := u32 (s.posIn + m.len) }
          let mf := kiteMfSkips inp s.inlen (m.len - 1) mf
          let (s, done) := kiteDeflateTurn s
          if done then some (s, mf) else kiteDeflateFastLoop fuel (s, mf)
      else
        let mf := mf.setMatch 0 { mf.matchesRow 0 with dist := (inp s.posIn).toNat }
        let (s, full) := kiteDeflateTally s (mf.matchesRow 0).symbol
        if full then some (s, mf)
        else
          let s := { s with posIn := u32 (s.posIn + 1) }
          let (s, done) := kiteDeflateTurn s
          if done then some (s, mf) else kiteDeflateFastLoop fuel (s, mf)

/-- One turn of `kite_deflate_fast`: the state that it leaves, and whether the block ends. -/
def kiteFastTurn : KiteDeflate × KiteMatchfinder → (KiteDeflate × KiteMatchfinder) × Bool
  | (s, mf) =>
      let (mf, found) := kiteMfGetmatchesHc3 inp s.inlen mf mf.depth (kMatchMinLen - 1)
      let m := mf.matchesRow (found.getD 0)
      if found.getD 0 ≠ 0 ∧ ¬ (m.len = kMatchMinLen ∧ zlibDistanceTooFar < m.dist) then
        let (s, full) := kiteDeflateTally s m.symbol
        if full then ((s, mf), true)
        else
          let s := { s with posIn := u32 (s.posIn + m.len) }
          let mf := kiteMfSkips inp s.inlen (m.len - 1) mf
          let (s, done) := kiteDeflateTurn s
          ((s, mf), done)
      else
        let mf := mf.setMatch 0 { mf.matchesRow 0 with dist := (inp s.posIn).toNat }
        let (s, full) := kiteDeflateTally s (mf.matchesRow 0).symbol
        if full then ((s, mf), true)
        else
          let s := { s with posIn := u32 (s.posIn + 1) }
          let (s, done) := kiteDeflateTurn s
          ((s, mf), done)

/-- `kite_deflate_fast` up to the call of `kite_deflate_commitblock`. -/
def kiteDeflateFast (fuel : ℕ) (st : KiteDeflate × KiteMatchfinder) :
    Option (KiteDeflate × KiteMatchfinder) :=
  kiteDeflateFastLoop inp fuel (kiteDeflateStartblock st.1, st.2)

/-- The search of a turn of `kite_deflate_slow`: the new match finder, `matches` and `len`. -/
def kiteSlowSearch (inlen len0 : ℕ) (mf : KiteMatchfinder) : KiteMatchfinder × ℕ × ℕ :=
  if len0 < mf.maxLazy then
    let (mf, found) := kiteMfGetmatchesHc3 inp inlen mf
      (if mf.goodLen ≤ len0 then mf.depth / 2 else mf.depth) len0
    let m := mf.matchesRow (found.getD 0)
    if found.getD 0 = 0 ∨ (m.len = kMatchMinLen ∧ zlibDistanceTooFar < m.dist) then
      (mf, 0, kMatchMinLen - 1)
    else (mf, found.getD 0, m.len)
  else (kiteMfHc3Skip inp inlen mf, 0, kMatchMinLen - 1)

/-- The loop of `kite_deflate_slow` with at most `fuel` turns, and whether it sets `flush`. -/
def kiteDeflateSlowLoop : ℕ → KiteDeflate × KiteMatchfinder →
    Option (KiteDeflate × KiteMatchfinder × Bool)
  | 0, _ => none
  | fuel + 1, (s, mf) =>
      let prevMatches := mf.matchesRow
      let mf := { mf with row := !mf.row }
      let mf := mf.setMatch 0 { mf.matchesRow 0 with dist := (inp s.posIn).toNat }
      let len0 := (prevMatches s.prevLongest).len
      let (mf, found, len) := kiteSlowSearch inp s.inlen len0 mf
      -- `none` when the pending symbol does not fit any more
      let turn : KiteDeflate × Option (KiteDeflate × KiteMatchfinder) :=
        if len < len0 then
          let (s, full) := kiteDeflateTally s (prevMatches s.prevLongest).symbol
          if full then (s, none)
          else (s, some ({ s with
              posIn := u32 (s.posIn + (len0 - 1)), prevValid := false, prevLongest := 0 },
            kiteMfSkips inp s.inlen (len0 - 2) mf))
        else
          let (s, full) := if s.prevValid then kiteDeflateTally s (prevMatches 0).symbol
            else ({ s with prevValid := true }, false)
          if full then (s, none)
          else (s, some ({ s with posIn := u32 (s.posIn + 1), prevLongest := found }, mf))
      match turn with
      | (s, none) => some (s, mf, false)
      | (_, some (s, mf)) =>
          let s := { s with lastblock := s.lastblock || decide (s.inlen ≤ s.posIn) }
          if s.inlen ≤ s.posIn then some (s, mf, true)
          else if kiteMaxSymbols ≤ s.symbols.length then some (kiteDeflateEndblock s, mf, false)
          else kiteDeflateSlowLoop fuel (s, mf)

/-- The tests at the end of a turn of `kite_deflate_slow`. -/
def kiteSlowTests (s : KiteDeflate) (mf : KiteMatchfinder) :
    (KiteDeflate × KiteMatchfinder) × Option Bool :=
  let s := { s with lastblock := s.lastblock || decide (s.inlen ≤ s.posIn) }
  if s.inlen ≤ s.posIn then ((s, mf), some true)
  else if kiteMaxSymbols ≤ s.symbols.length then ((kiteDeflateEndblock s, mf), some false)
  else ((s, mf), none)

/-- One turn of `kite_deflate_slow`: the state that it leaves, and `flush` if the loop ends. -/
def kiteSlowTurn : KiteDeflate × KiteMatchfinder → (KiteDeflate × KiteMatchfinder) × Option Bool
  | (s, mf) =>
      let prevMatches := mf.matchesRow
      let mf := { mf with row := !mf.row }
      let mf := mf.setMatch 0 { mf.matchesRow 0 with dist := (inp s.posIn).toNat }
      let len0 := (prevMatches s.prevLongest).len
      let (mf, found, len) := kiteSlowSearch inp s.inlen len0 mf
      if len < len0 then
        let (s, full) := kiteDeflateTally s (prevMatches s.prevLongest).symbol
        if full then ((s, mf), some false)
        else kiteSlowTests { s with
            posIn := u32 (s.posIn + (len0 - 1)), prevValid := false, prevLongest := 0 }
          (kiteMfSkips inp s.inlen (len0 - 2) mf)
      else
        let (s, full) := if s.prevValid then kiteDeflateTally s (prevMatches 0).symbol
          else ({ s with prevValid := true }, false)
        if full then ((s, mf), some false)
        else kiteSlowTests { s with posIn := u32 (s.posIn + 1), prevLongest := found } mf

def kiteSlowNext (fuel : ℕ) :
    (KiteDeflate × KiteMatchfinder) × Option Bool → Option (KiteDeflate × KiteMatchfinder × Bool)
  | ((s, mf), some flush) => some (s, mf, flush)
  | (st, none) => kiteDeflateSlowLoop inp fuel st

theorem kiteSlowNext_tests (fuel : ℕ) (s : KiteDeflate) (mf : KiteMatchfinder) :
    kiteSlowNext inp fuel (kiteSlowTests s mf) =
      if s.inlen ≤ s.posIn then
        some ({ s with lastblock := s.lastblock || decide (s.inlen ≤ s.posIn) }, mf, true)
      else if kiteMaxSymbols ≤ s.symbols.length then
        some (kiteDeflateEndblock
          { s with lastblock := s.lastblock || decide (s.inlen ≤ s.posIn) }, mf, false)
      else kiteDeflateSlowLoop inp fuel
        ({ s with lastblock := s.lastblock || decide (s.inlen ≤ s.posIn) }, mf) := by
  unfold kiteSlowTests
  simp only
  split_ifs <;> rfl

theorem kiteDeflateSlowLoop_succ (fuel : ℕ) (st : KiteDeflate × KiteMatchfinder) :
    kiteDeflateSlowLoop inp (fuel + 1) st = kiteSlowNext inp fuel (kiteSlowTurn inp st) := by
  obtain ⟨s, mf⟩ := st
  unfold kiteDeflateSlowLoop kiteSlowTurn
  simp only
  generalize kiteSlowSearch inp s.inlen _ _ = r
  obtain ⟨mf₁, found, len⟩ := r
  simp only
  by_cases hlt : len < (mf.matchesRow s.prevLongest).len
  · rw [if_pos hlt, if_pos hlt]
    cases hfull : (kiteDeflateTally s (mf.matchesRow s.prevLongest).symbol).2 with
    | true => rfl
    | false => exact (kiteSlowNext_tests _ _ _ _).symm
  · rw [if_neg hlt, if_neg hlt]
    generalize (if s.prevValid = true then kiteDeflateTally s (mf.matchesRow 0).symbol
      else ({ s with prevValid := true }, false)) = r
    obtain ⟨s₁, full⟩ := r
    cases full with
    | true => rfl
    | false => exact (kiteSlowNext_tests _ _ _ _).symm

/-- The pending symbol at the end of the input. -/
def kiteDeflateFlush (s : KiteDeflate) (mf : KiteMatchfinder) : KiteDeflate :=
  if s.prevValid then
    { (kiteDeflateTally s (mf.matchesRow s.prevLongest).symbol).1 with prevValid := false }
  else s

/-- `kite_deflate_slow` up to the call of `kite_deflate_commitblock`. -/
def kiteDeflateSlow (fuel : ℕ) (st : KiteDeflate × KiteMatchfinder) :
    Option (KiteDeflate × KiteMatchfinder) :=
  match kiteDeflateSlowLoop inp fuel (kiteDeflateStartblock st.1, st.2) with
  | none => none
  | some (s, mf, flush) => some (if flush then kiteDeflateFlush s mf else s, mf)

/-- `while (!kite_deflate_fast(s))` or `while (!kite_deflate_slow(s))`, with at most `fuel` blocks
of at most `fuel` turns: the blocks in the order in which they are committed, and the state and the
match finder at the end. -/
def kiteDeflateBlocks (lazySearch : Bool) (turns : ℕ) : ℕ → KiteDeflate × KiteMatchfinder →
    Option (List KiteDeflate × KiteDeflate × KiteMatchfinder)
  | 0, _ => none
  | fuel + 1, st =>
      match if lazySearch then kiteDeflateSlow inp turns st else kiteDeflateFast inp turns st with
      | none => none
      | some (block, mf) =>
          let (s, last) := kiteDeflateCommitblock inp block
          if last then some ([block], s, mf)
          else
            match kiteDeflateBlocks lazySearch turns fuel (s, mf) with
            | none => none
            | some (blocks, s, mf) => some (block :: blocks, s, mf)

end Parse

/-- What `kite_deflate_destsize` leaves: the committed blocks, `*srcsize`, the output and the match
finder for the next call. -/
structure KiteResult where
  blocks : List KiteDeflate
  srcsize : ℕ
  out : List UInt8
  state : KiteDeflate
  mf : KiteMatchfinder

/-- The state that `kite_deflate_destsize` starts from; the frequencies and the tables of `s` are
not cleared. -/
def KiteDeflate.reset (s : KiteDeflate) (srcsize targetDstsize : ℕ) : KiteDeflate :=
  { s with
    inlen := srcsize
    outlen := targetDstsize
    posIn := 0
    sink := ⟨[], 0, 0⟩
    symbols := []
    costbits := 0
    startpos := 0
    encodeMode := .stored
    freqChanged := false
    lastblock := false
    prevValid := false
    prevLongest := 0
    tab1 := false }

/-- `kite_deflate_destsize`. A block takes at most `srcsize + 1` turns and every block but the last
one takes input, which bounds both loops. -/
def kiteDeflateDestsize (inp : ℕ → UInt8) (lazySearch : Bool) (s : KiteDeflate)
    (mf : KiteMatchfinder) (srcsize targetDstsize : ℕ) : Option KiteResult :=
  match kiteDeflateBlocks inp lazySearch (srcsize + 1) (srcsize + 1)
      (s.reset srcsize targetDstsize, kiteMfReset mf) with
  | none => none
  | some (blocks, s, mf) =>
      let sink := flushbits s.sink
      some ⟨blocks, s.startpos, sink.out, { s with sink := sink }, mf⟩

end ErofsUtils
