import ErofsUtils.KiteFinder
import ErofsUtils.KiteParse
import ErofsUtils.Lz77

/-!
# What the parsers see of a block

`kite_deflate_tally` and `kite_deflate_endblock` touch frequencies, tables and costs; of the state
that the parsers work on they change the list of symbols and `lastblock` only.
-/

namespace ErofsUtils

open Lz77

/-- The part of `struct kite_deflate` that the parsers work on. -/
structure KiteCursor where
  inlen : ℕ
  outlen : ℕ
  posIn : ℕ
  sink : KiteSink
  symbols : List KiteSymbol
  startpos : ℕ
  lastblock : Bool
  prevValid : Bool
  prevLongest : ℕ

namespace KiteDeflate

def cursor (s : KiteDeflate) : KiteCursor :=
  ⟨s.inlen, s.outlen, s.posIn, s.sink, s.symbols, s.startpos, s.lastblock, s.prevValid,
    s.prevLongest⟩

variable (s : KiteDeflate)

@[simp] theorem cursor_setTab (t : KiteDeflateTable) : (s.setTab t).cursor = s.cursor := by
  unfold setTab
  split_ifs <;> rfl

@[simp] theorem cursor_switchTab : s.switchTab.cursor = s.cursor := rfl

@[simp] theorem cursor_costbits (c : ℕ) : { s with costbits := c }.cursor = s.cursor := rfl

@[simp] theorem cursor_encodeMode (m : EncodeMode) :
    { s with encodeMode := m }.cursor = s.cursor := rfl

@[simp] theorem cursor_countFreqs (literal : Bool) (lenSlot distSlot : ℕ) :
    (countFreqs s literal lenSlot distSlot).cursor = s.cursor := rfl

@[simp] theorem cursor_uncountFreqs (literal : Bool) (lenSlot distSlot : ℕ) :
    (uncountFreqs s literal lenSlot distSlot).cursor = s.cursor := rfl

@[simp] theorem cursor_kiteDeflateFixdynblock : (kiteDeflateFixdynblock s).cursor = s.cursor := by
  unfold kiteDeflateFixdynblock
  split_ifs
  · rfl
  · generalize dynTable s.mainFreqs s.distFreqs s.tab = r
    obtain ⟨t, levelFreqs⟩ := r
    simp only
    generalize dynCost s.mainFreqs s.distFreqs levelFreqs t = c
    exact cursor_setTab s t

theorem encodeMode_kiteDeflateFixdynblock :
    (kiteDeflateFixdynblock s).encodeMode = s.encodeMode := by
  unfold kiteDeflateFixdynblock
  split_ifs
  · rfl
  · generalize dynTable s.mainFreqs s.distFreqs s.tab = r
    obtain ⟨t, levelFreqs⟩ := r
    simp only
    unfold setTab
    split_ifs <;> rfl

theorem cursor_deflateCountCode (literal : Bool) (lenSlot distSlot : ℕ) :
    (deflateCountCode s literal lenSlot distSlot).1.cursor = s.cursor := by
  unfold deflateCountCode
  simp only
  split_ifs <;> simp only [cursor_costbits, cursor_switchTab, cursor_uncountFreqs,
    cursor_kiteDeflateFixdynblock, cursor_countFreqs]

theorem cursor_countSymbol (sym : KiteSymbol) : (countSymbol s sym).1.cursor = s.cursor := by
  unfold countSymbol
  split_ifs
  · exact cursor_deflateCountCode s _ _ _
  · exact cursor_deflateCountCode s _ _ _

variable {s} {s' : KiteDeflate}

theorem cursor_append (h : s'.cursor = s.cursor) (sym : KiteSymbol) :
    { s' with symbols := s'.symbols ++ [sym] }.cursor =
      { s.cursor with symbols := s.symbols ++ [sym] } := by
  rw [← h, ← show s'.symbols = s.symbols from congrArg KiteCursor.symbols h]
  rfl

theorem cursor_last (h : s'.cursor = s.cursor) {m : EncodeMode} :
    { s' with lastblock := true, encodeMode := m }.cursor = { s.cursor with lastblock := true } := by
  rw [← h]
  rfl

theorem cursor_or_last (h : s'.cursor = s.cursor) {c : ℕ} {m : EncodeMode} {last : Bool} :
    { s' with costbits := c, encodeMode := m, lastblock := s'.lastblock || last }.cursor =
      { s.cursor with lastblock := s.lastblock || last } := by
  rw [← h, ← show s'.lastblock = s.lastblock from congrArg KiteCursor.lastblock h]
  rfl

end KiteDeflate

open KiteDeflate

theorem kiteDeflateFixdynblock_changed {s : KiteDeflate} (h : s.freqChanged = true) :
    ∃ t levelFreqs, dynTable s.mainFreqs s.distFreqs s.tab = (t, levelFreqs) ∧
      kiteDeflateFixdynblock s = { s.setTab t with
        costbits := dynCost s.mainFreqs s.distFreqs levelFreqs t
        freqChanged := false } := by
  unfold kiteDeflateFixdynblock
  rw [if_neg (by rw [h]; decide)]
  generalize dynTable s.mainFreqs s.distFreqs s.tab = r
  obtain ⟨t, levelFreqs⟩ := r
  exact ⟨t, levelFreqs, rfl, rfl⟩

section CountCode

variable {s : KiteDeflate} {literal : Bool} {lenSlot distSlot : ℕ}

def Uncoded (t : KiteDeflateTable) (literal : Bool) (lenSlot distSlot : ℕ) : Prop :=
  (literal = false ∧ t.distLevels distSlot = 0) ∨
    t.litLenLevels ((if literal then 0 else kSymbolMatch) + lenSlot) = 0

theorem setAt_succ_pred (p : CArray) (i : ℕ) :
    setAt (setAt p i (p i + 1)) i (setAt p i (p i + 1) i - 1) = p := by
  ext j
  rw [setAt_apply, setAt_self, setAt_apply]
  split_ifs with hj
  · rw [hj]
    rfl
  · rfl

/-- A symbol that does not fit is taken out of the counts again. -/
theorem mainFreqs_uncountFreqs :
    (uncountFreqs (countFreqs s literal lenSlot distSlot) literal lenSlot distSlot).mainFreqs =
      s.mainFreqs := setAt_succ_pred _ _

theorem distFreqs_uncountFreqs :
    (uncountFreqs (countFreqs s literal lenSlot distSlot) literal lenSlot distSlot).distFreqs =
      s.distFreqs := by
  cases literal with
  | true => rfl
  | false => exact setAt_succ_pred _ _

theorem deflateCountCode_fixed (h : s.encodeMode = .fixedHuffman) :
    deflateCountCode s literal lenSlot distSlot =
      if s.rem < u32 (s.costbits + fixedBits literal lenSlot distSlot) then
        (uncountFreqs (countFreqs s literal lenSlot distSlot) literal lenSlot distSlot, false)
      else ({ countFreqs s literal lenSlot distSlot with
        costbits := u32 (s.costbits + fixedBits literal lenSlot distSlot) }, true) := by
  have hmode : (countFreqs s literal lenSlot distSlot).encodeMode = .fixedHuffman := h
  have hcost : (countFreqs s literal lenSlot distSlot).costbits = s.costbits := rfl
  unfold deflateCountCode
  simp only [hmode, hcost, ne_eq, not_true_eq_false, false_and, if_false, if_true]

theorem deflateCountCode_dynamic (h : s.encodeMode ≠ .fixedHuffman)
    (hcode : ¬ Uncoded s.tab literal lenSlot distSlot) :
    deflateCountCode s literal lenSlot distSlot =
      if s.rem < u32 (s.costbits + dynBits s.tab literal lenSlot distSlot) then
        (uncountFreqs (countFreqs s literal lenSlot distSlot) literal lenSlot distSlot, false)
      else ({ countFreqs s literal lenSlot distSlot with
        costbits := u32 (s.costbits + dynBits s.tab literal lenSlot distSlot) }, true) := by
  have hmode : (countFreqs s literal lenSlot distSlot).encodeMode ≠ .fixedHuffman := h
  have hcost : (countFreqs s literal lenSlot distSlot).costbits = s.costbits := rfl
  unfold Uncoded at hcode
  unfold deflateCountCode
  simp only [hmode, hcost, hcode, and_false, if_false]

/-- A symbol without a code makes `deflate_count_code` build the other table. -/
def recalculated (s : KiteDeflate) (literal : Bool) (lenSlot distSlot : ℕ) : KiteDeflate :=
  kiteDeflateFixdynblock (countFreqs s literal lenSlot distSlot).switchTab

theorem deflateCountCode_recalc (h : s.encodeMode ≠ .fixedHuffman)
    (hcode : Uncoded s.tab literal lenSlot distSlot) :
    deflateCountCode s literal lenSlot distSlot =
      if s.rem < u32 (recalculated s literal lenSlot distSlot).costbits then
        ((uncountFreqs (recalculated s literal lenSlot distSlot) literal lenSlot
          distSlot).switchTab, false)
      else ({ recalculated s literal lenSlot distSlot with
        costbits := u32 (recalculated s literal lenSlot distSlot).costbits }, true) := by
  have hmode : (countFreqs s literal lenSlot distSlot).encodeMode ≠ .fixedHuffman := h
  have hmode' : (recalculated s literal lenSlot distSlot).encodeMode ≠ .fixedHuffman := by
    unfold recalculated
    rw [encodeMode_kiteDeflateFixdynblock]
    exact h
  unfold Uncoded at hcode
  unfold recalculated at hmode' ⊢
  unfold deflateCountCode
  simp only [hmode, hmode', hcode, ne_eq, not_false_eq_true, and_self, if_true, if_false,
    Nat.add_zero]

end CountCode

/-- The second try of `kite_deflate_tally`, with codes of its own. -/
def tallyRetry (s : KiteDeflate) (sym : KiteSymbol) : KiteDeflate × Bool :=
  countSymbol { (countSymbol s sym).1 with encodeMode := .dynamicHuffman } sym

theorem kiteDeflateTally_cases (s : KiteDeflate) (sym : KiteSymbol) :
    ((countSymbol s sym).2 = true ∧ kiteDeflateTally s sym =
      ({ (countSymbol s sym).1 with symbols := (countSymbol s sym).1.symbols ++ [sym] }, false)) ∨
    ((countSymbol s sym).2 = false ∧ (countSymbol s sym).1.encodeMode = .fixedHuffman ∧
      (tallyRetry s sym).2 = true ∧ kiteDeflateTally s sym =
        ({ (tallyRetry s sym).1 with symbols := (tallyRetry s sym).1.symbols ++ [sym] }, false)) ∨
    ((countSymbol s sym).2 = false ∧ (countSymbol s sym).1.encodeMode = .fixedHuffman ∧
      (tallyRetry s sym).2 = false ∧ kiteDeflateTally s sym =
        ({ (tallyRetry s sym).1 with
          lastblock := true
          encodeMode := if (countSymbol s sym).1.costbits ≤ (tallyRetry s sym).1.costbits
            then .fixedHuffman else (tallyRetry s sym).1.encodeMode }, true)) ∨
    ((countSymbol s sym).2 = false ∧ (countSymbol s sym).1.encodeMode ≠ .fixedHuffman ∧
      kiteDeflateTally s sym =
        ({ (countSymbol s sym).1 with
          lastblock := true
          encodeMode := if 2 ^ 32 - 1 ≤ (countSymbol s sym).1.costbits
            then .fixedHuffman else (countSymbol s sym).1.encodeMode }, true)) := by
  unfold kiteDeflateTally tallyRetry
  generalize countSymbol s sym = r
  obtain ⟨s₁, hassp⟩ := r
  simp only
  generalize countSymbol { s₁ with encodeMode := .dynamicHuffman } sym = r
  obtain ⟨s₂, hassp₂⟩ := r
  by_cases hfixed : s₁.encodeMode = .fixedHuffman
  · cases hassp <;> cases hassp₂ <;> simp [hfixed]
  · cases hassp <;> simp [hfixed]

/-- A symbol that fits is appended; one that does not fit ends the last block. -/
theorem cursor_kiteDeflateTally (s : KiteDeflate) (sym : KiteSymbol) :
    ((kiteDeflateTally s sym).2 = false ∧ (kiteDeflateTally s sym).1.cursor =
      { s.cursor with symbols := s.symbols ++ [sym] }) ∨
    ((kiteDeflateTally s sym).2 = true ∧ (kiteDeflateTally s sym).1.cursor =
      { s.cursor with lastblock := true }) := by
  have hone := cursor_countSymbol s sym
  have htwo : (tallyRetry s sym).1.cursor = s.cursor := by
    unfold tallyRetry
    rw [cursor_countSymbol, cursor_encodeMode, hone]
  rcases kiteDeflateTally_cases s sym with ⟨-, heq⟩ | ⟨-, -, -, heq⟩ | ⟨-, -, -, heq⟩ | ⟨-, -, heq⟩
  · rw [heq]
    exact Or.inl ⟨rfl, cursor_append hone sym⟩
  · rw [heq]
    exact Or.inl ⟨rfl, cursor_append htwo sym⟩
  · rw [heq]
    exact Or.inr ⟨rfl, cursor_last htwo⟩
  · rw [heq]
    exact Or.inr ⟨rfl, cursor_last hone⟩

theorem encodeMode_deflateCountCode (s : KiteDeflate) (literal : Bool) (lenSlot distSlot : ℕ) :
    (deflateCountCode s literal lenSlot distSlot).1.encodeMode = s.encodeMode := by
  by_cases hmode : s.encodeMode = .fixedHuffman
  · rw [deflateCountCode_fixed hmode]
    split_ifs <;> rfl
  · by_cases hcode : Uncoded s.tab literal lenSlot distSlot
    · have hrec : (recalculated s literal lenSlot distSlot).encodeMode = s.encodeMode :=
        encodeMode_kiteDeflateFixdynblock _
      rw [deflateCountCode_recalc hmode hcode]
      generalize recalculated s literal lenSlot distSlot = s₁ at hrec
      split_ifs
      · exact hrec
      · exact hrec
    · rw [deflateCountCode_dynamic hmode hcode]
      split_ifs <;> rfl

theorem encodeMode_countSymbol (s : KiteDeflate) (sym : KiteSymbol) :
    (countSymbol s sym).1.encodeMode = s.encodeMode := by
  unfold countSymbol
  split_ifs
  · exact encodeMode_deflateCountCode s _ _ _
  · exact encodeMode_deflateCountCode s _ _ _

/-- Only `kite_deflate_endblock` chooses a stored block. -/
theorem encodeMode_kiteDeflateTally {s : KiteDeflate} (h : s.encodeMode ≠ .stored)
    (sym : KiteSymbol) : (kiteDeflateTally s sym).1.encodeMode ≠ .stored := by
  have hone := encodeMode_countSymbol s sym
  have htwo : (tallyRetry s sym).1.encodeMode = .dynamicHuffman := encodeMode_countSymbol _ sym
  rcases kiteDeflateTally_cases s sym with ⟨-, heq⟩ | ⟨-, -, -, heq⟩ | ⟨-, -, -, heq⟩ | ⟨-, -, heq⟩
  · rw [heq]
    simp only [hone]
    exact h
  · rw [heq]
    simp only [htwo]
    decide
  · rw [heq]
    simp only [htwo]
    split_ifs <;> decide
  · rw [heq]
    simp only [hone]
    split_ifs
    · decide
    · exact h

theorem cursor_kiteDeflateEndblock (s : KiteDeflate) :
    ∃ last, (kiteDeflateEndblock s).cursor = { s.cursor with lastblock := s.lastblock || last } := by
  have hfix := cursor_kiteDeflateFixdynblock s
  unfold kiteDeflateEndblock
  generalize kiteDeflateFixdynblock s = s₁ at hfix
  by_cases hfixed : s.encodeMode = .fixedHuffman
  · simp only [if_pos hfixed]
    split_ifs <;> exact ⟨_, cursor_or_last hfix⟩
  · simp only [if_neg hfixed]
    exact ⟨_, rfl⟩

/-- The token that a symbol stands for. -/
def KiteSymbol.token (sym : KiteSymbol) : Token UInt8 :=
  if sym.len < kMatchMinLen then .literal (UInt8.ofNat sym.dist) else .copy sym.len sym.dist

/-- What a block adds to the text: its symbols, or the bytes that it stores. -/
def KiteDeflate.tokens (inp : ℕ → UInt8) (block : KiteDeflate) : List (Token UInt8) :=
  if block.encodeMode = .stored then
    (inputBytes inp block.startpos block.endpos).map Token.literal
  else block.symbols.map KiteSymbol.token

/-- A literal or a match that DEFLATE can carry. -/
def KiteSymbol.Ok (sym : KiteSymbol) : Prop :=
  (sym.len = kMatchMinLen - 1 ∧ sym.dist < 256) ∨
    (3 ≤ sym.len ∧ sym.len ≤ 258 ∧ 1 ≤ sym.dist ∧ sym.dist < kHistorySize32)

/-- The symbols of a block that starts at `startpos` produce the input up to `n`. -/
structure SymbolsCover (inp : ℕ → UInt8) (startpos : ℕ) (symbols : List KiteSymbol) (n : ℕ) :
    Prop where
  expand : expand (firstOf inp startpos) (symbols.map KiteSymbol.token) = some (firstOf inp n)
  ok : ∀ sym ∈ symbols, sym.Ok

namespace SymbolsCover

variable {inp : ℕ → UInt8} {startpos n : ℕ} {symbols : List KiteSymbol}

theorem nil (inp : ℕ → UInt8) (n : ℕ) : SymbolsCover inp n [] n :=
  ⟨rfl, fun _ h => absurd h List.not_mem_nil⟩

theorem concat (h : SymbolsCover inp startpos symbols n) {sym : KiteSymbol} {m : ℕ}
    (hok : sym.Ok) (hemit : emit (firstOf inp n) sym.token = some (firstOf inp m)) :
    SymbolsCover inp startpos (symbols ++ [sym]) m := by
  refine ⟨?_, ?_⟩
  · rw [List.map_append, List.map_cons, List.map_nil, expand_concat h.expand, hemit]
  · intro x hx
    rcases List.mem_append.mp hx with hx | hx
    · exact h.ok x hx
    · rw [List.mem_singleton.mp hx]
      exact hok

theorem literal (h : SymbolsCover inp startpos symbols n) {m : KiteMatch}
    (hlen : m.len = kMatchMinLen - 1) (hdist : m.dist = (inp n).toNat) :
    SymbolsCover inp startpos (symbols ++ [m.symbol]) (n + 1) := by
  have hlt := (inp n).toNat_lt
  have hsym : m.symbol = ⟨2, (inp n).toNat⟩ := by
    unfold KiteMatch.symbol u16
    rw [hlen, hdist, Nat.mod_eq_of_lt (show (inp n).toNat < 2 ^ 16 by omega)]
    rfl
  rw [hsym]
  refine h.concat (Or.inl ⟨rfl, hlt⟩) ?_
  have htoken : KiteSymbol.token ⟨2, (inp n).toNat⟩ = .literal (inp n) := by
    simp [KiteSymbol.token, kMatchMinLen]
  rw [htoken, emit_literal]

theorem copy (h : SymbolsCover inp startpos symbols n) {inlen : ℕ} {m : KiteMatch}
    (hm : MatchOk inp inlen n m) :
    SymbolsCover inp startpos (symbols ++ [m.symbol]) (n + m.len) := by
  have h3 := hm.three_le
  have hle := hm.len_le
  have hlt := hm.dist_lt
  have hhist : kHistorySize32 = 32768 := rfl
  have hsym : m.symbol = ⟨m.len, m.dist⟩ := by
    unfold KiteMatch.symbol u16
    rw [Nat.mod_eq_of_lt (by omega), Nat.mod_eq_of_lt (by omega)]
  rw [hsym]
  refine h.concat (Or.inr ⟨h3, hle, hm.dist_pos, hlt⟩) ?_
  have htoken : KiteSymbol.token ⟨m.len, m.dist⟩ = .copy m.len m.dist :=
    if_neg (Nat.not_lt.mpr h3)
  rw [htoken, emit_copy hm.dist_pos hm.dist_le hm.same]

end SymbolsCover

end ErofsUtils
