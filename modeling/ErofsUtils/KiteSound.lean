import ErofsUtils.KiteCost
import ErofsUtils.KiteFast
import ErofsUtils.KiteLazy

/-!
# The parse of a call of `kite_deflate_destsize`

What a compressor that was set up once and used any number of times leaves in a further call: the
blocks expand to the input that `*srcsize` counts. The greedy parse takes a byte from an empty
input. The lazy parse counts the last literal even when it did not fit.
-/

namespace ErofsUtils

open Lz77 KiteMatchfinder

/-- `calloc(1, sizeof(struct kite_deflate))`. -/
def KiteDeflate.fresh : KiteDeflate where
  inlen := 0
  outlen := 0
  posIn := 0
  sink := ⟨[], 0, 0⟩
  symbols := []
  costbits := 0
  startpos := 0
  encodeMode := .stored
  freqChanged := false
  lastblock := false
  prevValid := false
  prevLongest := 0
  mainFreqs := .zero
  distFreqs := .zero
  table0 := .zero
  table1 := .zero
  tab1 := false

/-- `kite_deflate_init`, with the match finder as `malloc` returns it; `none` is an error. -/
def kiteDeflateInit (mf₀ : KiteMatchfinder) (level dictSize : ℕ) :
    Option (KiteDeflate × KiteMatchfinder × Bool) :=
  match kiteMfInit mf₀ (if dictSize = 0 then kHistorySize32 else dictSize) level with
  | none => none
  | some (mf, lazySearch) => some (.fresh, mf, lazySearch)

/-- The states of a compressor between two calls. What `malloc` left in the match finder must not
make the first `base` wrap. -/
inductive KiteReach (level : ℕ) (lazySearch : Bool) : KiteDeflate → KiteMatchfinder → Prop
  | init {mf₀ mf : KiteMatchfinder} {s : KiteDeflate} {dictSize : ℕ}
      (hinit : kiteDeflateInit mf₀ level dictSize = some (s, mf, lazySearch))
      (hfresh : mf₀.base + mf₀.offset + kHistorySize32 + 1 < 2 ^ 32) : KiteReach level lazySearch s mf
  | call {s : KiteDeflate} {mf : KiteMatchfinder} {inp : ℕ → UInt8} {srcsize targetDstsize : ℕ}
      {r : KiteResult} (hreach : KiteReach level lazySearch s mf) (hsrc : srcsize ≤ maxInput)
      (hcall : kiteDeflateDestsize inp lazySearch s mf srcsize targetDstsize = some r) :
      KiteReach level lazySearch r.state r.mf

namespace KiteReach

variable {level : ℕ} {lazySearch : Bool} {s : KiteDeflate} {mf : KiteMatchfinder}

theorem kiteDeflateInit_eq {mf₀ : KiteMatchfinder} {dictSize : ℕ}
    (h : kiteDeflateInit mf₀ level dictSize = some (s, mf, lazySearch)) :
    kiteMfInit mf₀ (if dictSize = 0 then kHistorySize32 else dictSize) level =
      some (mf, lazySearch) := by
  unfold kiteDeflateInit at h
  cases hmf : kiteMfInit mf₀ (if dictSize = 0 then kHistorySize32 else dictSize) level with
  | none => rw [hmf] at h; simp at h
  | some r =>
      rw [hmf] at h
      obtain ⟨-, hrest⟩ := Prod.mk.inj (Option.some.inj h)
      exact congrArg some hrest

/-- Between two calls the match finder is ready. -/
theorem ready (h : KiteReach level lazySearch s mf) : mf.Ready := by
  induction h with
  | @init mf₀ mf s dictSize hinit hfresh =>
      refine kiteMfInit_ready (kiteDeflateInit_eq hinit) ?_ hfresh
      split_ifs with hz
      · decide
      · omega
  | @call s mf inp srcsize targetDstsize r hreach hsrc hcall ih =>
      cases lazySearch with
      | false =>
          obtain ⟨r', s', heq, hdone, -⟩ := @kiteDeflateDestsize_fast inp mf ih s srcsize hsrc
            targetDstsize
          obtain rfl : r' = r := Option.some.inj (heq.symm.trans hcall)
          exact hdone.ready
      | true =>
          obtain ⟨r', s', lost, heq, hdone, -⟩ := @kiteDeflateDestsize_slow inp mf ih s srcsize hsrc
            targetDstsize
          obtain rfl : r' = r := Option.some.inj (heq.symm.trans hcall)
          exact hdone.ready

theorem kiteMfInit_lazySearch {mf₀ : KiteMatchfinder} {wsiz : ℕ}
    (h : kiteMfInit mf₀ wsiz level = some (mf, lazySearch)) : lazySearch = decide (4 ≤ level) := by
  unfold kiteMfInit at h
  cases hcfg : kiteMfcfg[level]? with
  | none => rw [hcfg] at h; simp at h
  | some cfg =>
      rw [hcfg] at h
      simp only at h
      split_ifs at h with hzero hw
      obtain ⟨-, rfl⟩ := Prod.mk.inj (Option.some.inj h)
      have hlt : level < 10 := by
        by_contra hge
        rw [List.getElem?_eq_none (show kiteMfcfg.length ≤ level from Nat.not_lt.mp hge)] at hcfg
        exact absurd hcfg (by simp)
      have hall : ∀ l < 10, ∀ c ∈ kiteMfcfg[l]?, c.lazySearch = decide (4 ≤ l) := by decide
      exact hall level hlt cfg hcfg

theorem lazySearch_eq (h : KiteReach level lazySearch s mf) : lazySearch = decide (4 ≤ level) := by
  induction h with
  | init hinit _ => exact kiteMfInit_lazySearch (kiteDeflateInit_eq hinit)
  | call _ _ _ ih => exact ih

end KiteReach

/-- The text that the blocks of a call stand for. -/
def KiteResult.tokens (inp : ℕ → UInt8) (r : KiteResult) : List (Token UInt8) :=
  r.blocks.flatMap (KiteDeflate.tokens inp)

/-- The blocks expand to the input up to the new `*srcsize`. -/
def KiteResult.Expands (inp : ℕ → UInt8) (r : KiteResult) : Prop :=
  expand [] (r.tokens inp) = some (firstOf inp r.srcsize)

/-- Every match has a length from 3 to 258 and stays inside the output so far. -/
def KiteResult.MatchesOk (inp : ℕ → UInt8) (r : KiteResult) : Prop :=
  ∀ pre len dist post, r.tokens inp = pre ++ .copy len dist :: post →
    3 ≤ len ∧ len ≤ 258 ∧ ∃ out, expand [] pre = some out ∧ 1 ≤ dist ∧ dist ≤ out.length

section Matches

variable {inp : ℕ → UInt8} {s s' : KiteDeflate} {r : KiteResult}

theorem KiteDeflate.copy_mem_tokens {block : KiteDeflate}
    (hok : ∀ sym ∈ block.symbols, sym.Ok) {len dist : ℕ}
    (h : Token.copy len dist ∈ block.tokens inp) : 3 ≤ len ∧ len ≤ 258 := by
  unfold KiteDeflate.tokens at h
  split_ifs at h
  · obtain ⟨b, -, hb⟩ := List.mem_map.mp h
    exact absurd hb (by simp)
  · obtain ⟨sym, hsym, htoken⟩ := List.mem_map.mp h
    unfold KiteSymbol.token at htoken
    split_ifs at htoken with hlit
    obtain ⟨rfl, rfl⟩ := Token.copy.inj htoken
    rcases hok sym hsym with ⟨hlen, -⟩ | ⟨h3, hle, -⟩
    · rw [hlen] at hlit
      exact absurd (by decide) hlit
    · exact ⟨h3, hle⟩

theorem RunDone.matchesOk {lost : ℕ} {mf : KiteMatchfinder} (hs : s.startpos = 0)
    (h : RunDone inp lost s s' r.blocks mf) : r.MatchesOk inp := by
  intro pre len dist post heq
  have hexp := h.expand
  rw [hs] at hexp
  have hmem : Token.copy len dist ∈ r.tokens inp := by
    rw [heq]
    exact List.mem_append_right pre List.mem_cons_self
  obtain ⟨block, hblock, hcopy⟩ := List.mem_flatMap.mp hmem
  obtain ⟨h3, hle⟩ := KiteDeflate.copy_mem_tokens (h.ok block hblock) hcopy
  have hpre : Lz77.expand [] (pre ++ .copy len dist :: post) =
      some (firstOf inp (s'.startpos - lost)) := by
    rw [← heq]
    exact hexp
  exact ⟨h3, hle, copy_of_expand hpre⟩

end Matches

section Empty

variable {inp : ℕ → UInt8} {s : KiteDeflate} {mf : KiteMatchfinder} {targetDstsize : ℕ}

def KiteDeflate.first (s : KiteDeflate) (srcsize targetDstsize : ℕ) : KiteDeflate :=
  kiteDeflateStartblock (s.reset srcsize targetDstsize)

theorem totalFreqs_zero (num : ℕ) : totalFreqs CArray.zero num = 0 := by
  induction num with
  | zero => rfl
  | succ num ih => rw [totalFreqs_succ, ih, CArray.zero_get]

theorem first_firstSymbol (hs : s.table1.Bytes) (srcsize targetDstsize : ℕ) :
    FirstSymbol (s.first srcsize targetDstsize) := by
  have hmain := (totalFreqs_setAt_le CArray.zero kSymbolEndOfBlock 1 kMainTableSize).1
  rw [totalFreqs_zero] at hmain
  exact ⟨rfl, rfl, rfl, rfl, rfl, hs, hmain, le_of_eq (totalFreqs_zero _)⟩

/-- The literal that stands for the first byte. -/
theorem first_literal (inp : ℕ → UInt8) {mf : KiteMatchfinder} (h : (mf.matchesRow 0).len = 2) :
    ((mf.setMatch 0 { mf.matchesRow 0 with dist := (inp 0).toNat }).matchesRow 0).symbol =
      ⟨2, (inp 0).toNat⟩ := by
  have hlt := (inp 0).toNat_lt
  rw [matchesRow_setMatch]
  unfold KiteMatch.symbol u16
  simp only [h]
  rw [Nat.mod_eq_of_lt (by omega), Nat.mod_eq_of_lt (by omega)]

theorem kiteMfReset_literal : ((kiteMfReset mf).matchesRow 0).len = 2 := by
  unfold kiteMfReset
  simp only
  split <;> rfl

/-- The only turn of the greedy parse of an empty input. -/
theorem kiteDeflateFastLoop_empty (inp : ℕ → UInt8) (fuel : ℕ) {s : KiteDeflate}
    {mf : KiteMatchfinder} (hinlen : s.inlen = 0) (hposIn : s.posIn = 0) (hvalid : s.prevValid = false)
    (hlit : (mf.matchesRow 0).len = 2) :
    ∃ block mf', kiteDeflateFastLoop inp (fuel + 1) (s, mf) = some (block, mf') ∧
      block.lastblock = true ∧ block.prevValid = false ∧
      block.posIn = if (kiteDeflateTally s ⟨2, (inp 0).toNat⟩).2 = true then 0 else 1 := by
  have hnone : kiteMfGetmatchesHc3 inp s.inlen mf mf.depth (kMatchMinLen - 1) = (mf, none) :=
    kiteMfGetmatchesHc3_none (by omega)
  have hsym := first_literal inp hlit
  unfold kiteDeflateFastLoop
  simp only [hnone, Option.getD_none, ne_eq, not_true_eq_false, false_and, if_false, hposIn, hsym]
  rcases cursor_kiteDeflateTally s ⟨2, (inp 0).toNat⟩ with ⟨hfit, hc⟩ | ⟨hfull, hc⟩
  · generalize kiteDeflateTally s ⟨2, (inp 0).toNat⟩ = r at hfit hc
    obtain ⟨s', full⟩ := r
    have hin' : s'.inlen = 0 := (congrArg KiteCursor.inlen hc).trans hinlen
    have hpos' : s'.posIn = 0 := (congrArg KiteCursor.posIn hc).trans hposIn
    have hvalid' : s'.prevValid = false := (congrArg KiteCursor.prevValid hc).trans hvalid
    simp only at hfit
    simp only [hfit, Bool.false_eq_true, if_false]
    have hturn : ∀ s₁ : KiteDeflate, s₁.inlen = 0 → s₁.posIn = 1 → s₁.prevValid = false →
        (kiteDeflateTurn s₁).2 = true ∧ (kiteDeflateTurn s₁).1.lastblock = true ∧
        (kiteDeflateTurn s₁).1.prevValid = false ∧ (kiteDeflateTurn s₁).1.posIn = 1 := by
      intro s₁ h₁ h₂ h₃
      unfold kiteDeflateTurn
      simp only
      rw [if_pos (Or.inl (by omega))]
      obtain ⟨last, hend⟩ := cursor_kiteDeflateEndblock
        { s₁ with lastblock := s₁.lastblock || decide (s₁.inlen ≤ s₁.posIn) }
      refine ⟨rfl, ?_, (congrArg KiteCursor.prevValid hend).trans h₃,
        (congrArg KiteCursor.posIn hend).trans h₂⟩
      refine (congrArg KiteCursor.lastblock hend).trans ?_
      simp [h₁]
    obtain ⟨hdone, hlast, hval, hpos⟩ := hturn { s' with posIn := u32 (s'.posIn + 1) } hin'
      (by simp only [hpos']; rfl) hvalid'
    rw [if_pos hdone]
    exact ⟨_, _, rfl, hlast, hval, hpos⟩
  · generalize kiteDeflateTally s ⟨2, (inp 0).toNat⟩ = r at hfull hc
    obtain ⟨s', full⟩ := r
    simp only at hfull
    simp only [hfull, if_true]
    exact ⟨_, _, rfl, congrArg KiteCursor.lastblock hc,
      (congrArg KiteCursor.prevValid hc).trans hvalid, (congrArg KiteCursor.posIn hc).trans hposIn⟩

/-- The greedy parse of an empty input takes the byte behind it when that fits. -/
theorem kiteDeflateDestsize_empty (inp : ℕ → UInt8) (s : KiteDeflate) (mf : KiteMatchfinder)
    (targetDstsize : ℕ) {srcsize : ℕ} (hzero : srcsize = 0) :
    ∃ r, kiteDeflateDestsize inp false s mf srcsize targetDstsize = some r ∧
      r.srcsize = if (kiteDeflateTally (s.first srcsize targetDstsize) ⟨2, (inp 0).toNat⟩).2 = true
        then 0 else 1 := by
  obtain ⟨block, mf', hloop, hlast, hvalid, hpos⟩ :=
    @kiteDeflateFastLoop_empty inp srcsize (s.first srcsize targetDstsize) (kiteMfReset mf) hzero
      rfl rfl kiteMfReset_literal
  have hfast : kiteDeflateFast inp (srcsize + 1) (s.reset srcsize targetDstsize, kiteMfReset mf) =
      some (block, mf') := by
    unfold KiteDeflate.first at hloop
    unfold kiteDeflateFast
    simp only
    exact hloop
  have hend : block.endpos = block.posIn := by
    refine endpos_of_not_prevValid hvalid ?_
    rw [hpos]
    split_ifs <;> decide
  have hblocks : kiteDeflateBlocks inp false (srcsize + 1) (srcsize + 1)
      (s.reset srcsize targetDstsize, kiteMfReset mf) =
      some ([block], (kiteDeflateCommitblock inp block).1, mf') := by
    rw [kiteDeflateBlocks]
    simp only [Bool.false_eq_true, if_false, hfast]
    exact if_pos hlast
  unfold kiteDeflateDestsize
  rw [hblocks]
  exact ⟨_, rfl, hend.trans hpos⟩

end Empty

/-- Memory from `malloc` that happens to be cleared. -/
def KiteMatchfinder.cleared : KiteMatchfinder :=
  ⟨.zero, .zero, 0, 0, 0, 0, 0, 0, 0, 0, false, fun _ _ => ⟨0, 0⟩⟩

theorem kiteReach_level_one : ∃ mf, KiteReach 1 false .fresh mf :=
  ⟨_, @KiteReach.init 1 false .cleared _ _ 0 rfl (by decide)⟩

def KiteMatchfinder.levelFour : KiteMatchfinder :=
  ((kiteMfInit .cleared kHistorySize32 4).map Prod.fst).getD .cleared

theorem levelFour_reach : KiteReach 4 true .fresh .levelFour :=
  @KiteReach.init 4 true .cleared _ _ 0 rfl (by decide)

theorem kiteReach_level_four : ∃ mf, KiteReach 4 true .fresh mf := ⟨_, levelFour_reach⟩

def repeated (i : ℕ) : UInt8 := if i = 8 then 98 else 97

theorem fresh_bytes : KiteDeflate.fresh.table1.Bytes :=
  ⟨fun _ => Nat.zero_le _, fun _ => Nat.zero_le _, fun _ => Nat.zero_le _⟩

section Greedy

variable {inp : ℕ → UInt8} {s : KiteDeflate} {mf : KiteMatchfinder} {srcsize targetDstsize : ℕ}

theorem kiteDeflateDestsize_fast_sound (hready : mf.Ready) (hsrc : srcsize ≤ maxInput) :
    ∃ r, kiteDeflateDestsize inp false s mf srcsize targetDstsize = some r ∧ r.Expands inp ∧
      r.MatchesOk inp ∧ r.srcsize ≤ max srcsize 1 := by
  obtain ⟨r, s', heq, hdone, hstart⟩ :=
    @kiteDeflateDestsize_fast inp mf hready s srcsize hsrc targetDstsize
  refine ⟨r, heq, ?_, hdone.matchesOk rfl, hstart ▸ hdone.startpos_le⟩
  have hexp := hdone.expand
  rw [Nat.sub_zero, ← hstart] at hexp
  exact hexp

/-- With room for a literal the greedy parse takes a byte from an empty input. -/
theorem kiteDeflateDestsize_empty_fits (hs : s.table1.Bytes) (hzero : srcsize = 0)
    (htarget : targetDstsize < 2 ^ 32) (h3 : 3 ≤ targetDstsize) :
    ∃ r, kiteDeflateDestsize inp false s mf srcsize targetDstsize = some r ∧ r.srcsize = 1 := by
  obtain ⟨r, heq, hsize⟩ := kiteDeflateDestsize_empty inp s mf targetDstsize hzero
  have hfit := @FirstSymbol.fits _ ⟨2, (inp 0).toNat⟩ (first_firstSymbol hs srcsize targetDstsize)
    (Nat.lt_succ_self 2) (inp 0).toNat_lt htarget h3
  rw [hfit] at hsize
  exact ⟨r, heq, hsize⟩

theorem kiteDeflateDestsize_empty_full (hs : s.table1.Bytes) (hzero : srcsize = 0)
    (h2 : targetDstsize ≤ 2) :
    ∃ r, kiteDeflateDestsize inp false s mf srcsize targetDstsize = some r ∧ r.srcsize = 0 := by
  obtain ⟨r, heq, hsize⟩ := kiteDeflateDestsize_empty inp s mf targetDstsize hzero
  have hfull := @FirstSymbol.full _ ⟨2, (inp 0).toNat⟩ (first_firstSymbol hs srcsize targetDstsize)
    (Nat.lt_succ_self 2) (inp 0).toNat_lt h2
  rw [hfull] at hsize
  exact ⟨r, heq, hsize⟩

end Greedy

/-- The greedy parse of a call is sound exactly if there is input, or no room for a literal. -/
theorem kiteDeflateDestsize_greedy_iff {level : ℕ} (hlevel : level ≤ 3) {lazySearch : Bool}
    {s : KiteDeflate} {mf : KiteMatchfinder} (hreach : KiteReach level lazySearch s mf)
    (hs : s.table1.Bytes) (inp : ℕ → UInt8) {srcsize targetDstsize : ℕ}
    (hsrc : srcsize ≤ maxInput) (htarget : targetDstsize < 2 ^ 32) :
    (∃ r, kiteDeflateDestsize inp lazySearch s mf srcsize targetDstsize = some r ∧
        r.Expands inp ∧ r.MatchesOk inp ∧ r.srcsize ≤ srcsize) ↔
      1 ≤ srcsize ∨ targetDstsize ≤ 2 := by
  obtain rfl : lazySearch = false := by
    rw [hreach.lazySearch_eq]
    exact decide_eq_false (by omega)
  obtain ⟨r, heq, hexp, hmatches, hle⟩ :=
    @kiteDeflateDestsize_fast_sound inp s mf srcsize targetDstsize hreach.ready hsrc
  rcases Nat.eq_zero_or_pos srcsize with hzero | hpos
  · constructor
    · rintro ⟨r₁, hr₁, -, -, hsmall⟩
      by_contra hno
      rw [not_or] at hno
      obtain ⟨r₂, hr₂, hone⟩ := @kiteDeflateDestsize_empty_fits inp s mf srcsize targetDstsize hs
        hzero htarget (by omega)
      obtain rfl : r₁ = r₂ := Option.some.inj (hr₁.symm.trans hr₂)
      omega
    · rintro (hone | htwo)
      · omega
      · obtain ⟨r₁, hr₁, hnil⟩ := @kiteDeflateDestsize_empty_full inp s mf srcsize targetDstsize hs
          hzero htwo
        obtain rfl : r = r₁ := Option.some.inj (heq.symm.trans hr₁)
        exact ⟨r, heq, hexp, hmatches, by omega⟩
  · exact ⟨fun _ => Or.inl hpos, fun _ => ⟨r, heq, hexp, hmatches, by omega⟩⟩

theorem kiteDeflateDestsize_greedy_five : ∃ mf, KiteReach 1 false .fresh mf ∧
    ∃ r, kiteDeflateDestsize (fun _ => 97) false .fresh mf 5 4096 = some r ∧
      r.Expands (fun _ => 97) ∧ r.MatchesOk (fun _ => 97) ∧ r.srcsize ≤ 5 := by
  obtain ⟨mf, hreach⟩ := kiteReach_level_one
  exact ⟨mf, hreach, (kiteDeflateDestsize_greedy_iff (by decide) hreach fresh_bytes _ (by decide)
    (by decide)).mpr (Or.inl (by decide))⟩

/-- From an input of no bytes, the byte behind it is taken. -/
theorem kiteDeflateDestsize_greedy_overrun : ∃ mf, KiteReach 1 false .fresh mf ∧
    KiteDeflate.fresh.table1.Bytes ∧
    ¬ ∃ r, kiteDeflateDestsize (fun _ => 97) false .fresh mf 0 4096 = some r ∧
      r.Expands (fun _ => 97) ∧ r.MatchesOk (fun _ => 97) ∧ r.srcsize ≤ 0 := by
  obtain ⟨mf, hreach⟩ := kiteReach_level_one
  refine ⟨mf, hreach, fresh_bytes, ?_⟩
  rintro ⟨r, hr, -, -, hzero⟩
  obtain ⟨r', hr', hone⟩ := @kiteDeflateDestsize_empty_fits (fun _ => 97) .fresh mf 0 4096
    fresh_bytes rfl (by decide) (by decide)
  obtain rfl : r = r' := Option.some.inj (hr.symm.trans hr')
  omega

end ErofsUtils
