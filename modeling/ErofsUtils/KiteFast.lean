import ErofsUtils.KiteRun

/-!
# The greedy parse

The symbols that `kite_deflate_fast` records are a parse of the input that the block covers. One
turn either takes a symbol and moves on, or ends the last block and takes nothing.
-/

namespace ErofsUtils

open Lz77 KiteMatchfinder

variable {inp : ℕ → UInt8}

def FastNext (inp : ℕ → UInt8) (block : KiteDeflate) (mf : KiteMatchfinder) : Prop :=
  InStep inp block.inlen block.posIn mf ∧ block.prevValid = false

/-- A turn of the greedy parse starts in front of the end of the input, or at the first byte of an
empty input. -/
structure FastInv (inp : ℕ → UInt8) (s : KiteDeflate) (mf : KiteMatchfinder) : Prop where
  finder : InStep inp s.inlen s.posIn mf
  covers : SymbolsCover inp s.startpos s.symbols s.posIn
  inlen_le : s.inlen ≤ maxInput
  posIn_lt : s.posIn < max s.inlen 1
  prevValid : s.prevValid = false
  startpos_le : s.startpos ≤ s.posIn

section Cursor

variable {s s' : KiteDeflate}

theorem FastInv.posIn_small {mf : KiteMatchfinder} (h : FastInv inp s mf) : s.posIn < 2 ^ 31 := by
  have h₁ := h.posIn_lt
  have h₂ := h.inlen_le
  have h₃ := maxInput_lt
  omega

theorem FastInv.full {mf mf' : KiteMatchfinder} (h : FastInv inp s mf)
    (hc : s'.cursor = { s.cursor with lastblock := true }) (hready : mf'.Ready) :
    BlockDone inp (FastNext inp) 0 s s' mf' := by
  have hpos : s'.posIn = s.posIn := congrArg KiteCursor.posIn hc
  have hsym : s'.symbols = s.symbols := congrArg KiteCursor.symbols hc
  have hstart : s'.startpos = s.startpos := congrArg KiteCursor.startpos hc
  have hvalid : s'.prevValid = s.prevValid := congrArg KiteCursor.prevValid hc
  have hlast : s'.lastblock = true := congrArg KiteCursor.lastblock hc
  have hsmall := h.posIn_small
  have hend : s'.endpos = s.posIn := by
    rw [endpos_of_not_prevValid (hvalid.trans h.prevValid) (by omega), hpos]
  refine ⟨congrArg KiteCursor.inlen hc, congrArg KiteCursor.outlen hc, congrArg KiteCursor.sink hc,
    hstart, ?_, ?_, ?_, Nat.zero_le _, fun _ => rfl, ?_, hready⟩
  · rw [hstart, hsym, hend]
    exact h.covers
  · rw [hstart, hend]
    exact h.startpos_le
  · rw [hend]
    exact le_of_lt h.posIn_lt
  · intro hcontra
    rw [hlast] at hcontra
    exact absurd hcontra (by decide)

end Cursor

/-- The state after `n` bytes were taken with the symbol `sym`. -/
structure Taken (inp : ℕ → UInt8) (s s' : KiteDeflate) (mf : KiteMatchfinder) (n : ℕ) : Prop where
  inlen : s'.inlen = s.inlen
  outlen : s'.outlen = s.outlen
  sink : s'.sink = s.sink
  startpos : s'.startpos = s.startpos
  prevValid : s'.prevValid = s.prevValid
  posIn : s'.posIn = s.posIn + n
  covers : SymbolsCover inp s.startpos s'.symbols s'.posIn
  pos : 0 < n
  inside : s'.posIn ≤ max s.inlen 1
  finder : InStep inp s.inlen s'.posIn mf

theorem FastInv.taken {s s' : KiteDeflate} {mf mf' : KiteMatchfinder} {sym : KiteSymbol} {n : ℕ}
    (h : FastInv inp s mf) (hc : s'.cursor = { s.cursor with symbols := s.symbols ++ [sym] })
    (hn : 0 < n) (hin : s.posIn + n ≤ max s.inlen 1)
    (hcov : SymbolsCover inp s.startpos (s.symbols ++ [sym]) (s.posIn + n))
    (hstep : InStep inp s.inlen (s.posIn + n) mf') :
    Taken inp s { s' with posIn := u32 (s'.posIn + n) } mf' n := by
  have hpos : u32 (s'.posIn + n) = s.posIn + n := by
    have h₁ := h.inlen_le
    have h₂ := maxInput_lt
    rw [show s'.posIn = s.posIn from congrArg KiteCursor.posIn hc]
    exact Nat.mod_eq_of_lt (by omega)
  have hsym : s'.symbols = s.symbols ++ [sym] := congrArg KiteCursor.symbols hc
  refine ⟨congrArg KiteCursor.inlen hc, congrArg KiteCursor.outlen hc, congrArg KiteCursor.sink hc,
    congrArg KiteCursor.startpos hc, congrArg KiteCursor.prevValid hc, hpos, ?_, hn, ?_, ?_⟩
  · simp only [hpos, hsym]
    exact hcov
  · simp only [hpos]
    exact hin
  · simp only [hpos]
    exact hstep

/-- The end of a turn: the block is done, or the next turn starts. -/
theorem Taken.turn {s s' : KiteDeflate} {mf mf' : KiteMatchfinder} {n : ℕ}
    (h : FastInv inp s mf) (ht : Taken inp s s' mf' n) :
    ((kiteDeflateTurn s').2 = true ∧ BlockDone inp (FastNext inp) 0 s (kiteDeflateTurn s').1 mf') ∨
    ((kiteDeflateTurn s').2 = false ∧ Taken inp s (kiteDeflateTurn s').1 mf' n ∧
      FastInv inp (kiteDeflateTurn s').1 mf') := by
  have hmax := maxInput_lt
  have hlen := h.inlen_le
  have hin := ht.inside
  unfold kiteDeflateTurn
  simp only
  split_ifs with hend
  · obtain ⟨last, hc⟩ := cursor_kiteDeflateEndblock
      { s' with lastblock := s'.lastblock || decide (s'.inlen ≤ s'.posIn) }
    generalize kiteDeflateEndblock
      { s' with lastblock := s'.lastblock || decide (s'.inlen ≤ s'.posIn) } = block at hc
    refine Or.inl ⟨rfl, ?_⟩
    have hpos : block.posIn = s'.posIn := congrArg KiteCursor.posIn hc
    have hsym : block.symbols = s'.symbols := congrArg KiteCursor.symbols hc
    have hstart : block.startpos = s.startpos := (congrArg KiteCursor.startpos hc).trans ht.startpos
    have hvalid : block.prevValid = false :=
      (congrArg KiteCursor.prevValid hc).trans (ht.prevValid.trans h.prevValid)
    have hlast : block.lastblock = ((s'.lastblock || decide (s'.inlen ≤ s'.posIn)) || last) :=
      congrArg KiteCursor.lastblock hc
    have hendpos : block.endpos = s'.posIn := by
      rw [endpos_of_not_prevValid hvalid (by omega), hpos]
    refine ⟨(congrArg KiteCursor.inlen hc).trans ht.inlen,
      (congrArg KiteCursor.outlen hc).trans ht.outlen, (congrArg KiteCursor.sink hc).trans ht.sink,
      hstart, ?_, ?_, ?_, Nat.zero_le _, fun _ => rfl, ?_, ?_⟩
    · rw [hstart, hsym, hendpos]
      exact ht.covers
    · rw [hstart, hendpos, ht.posIn]
      exact le_trans h.startpos_le (Nat.le_add_right _ _)
    · rw [hendpos]
      exact hin
    · intro hmore
      rw [hlast] at hmore
      simp only [Bool.or_eq_false_iff, decide_eq_false_iff_not] at hmore
      have hnext : ¬ s'.inlen ≤ s'.posIn := hmore.1.2
      have hlt := ht.pos
      rw [ht.inlen] at hnext
      refine ⟨rfl, ?_, ?_, ?_, hvalid⟩
      · simp only [hpos, ht.posIn]
        omega
      · simp only [hpos]
        omega
      rw [hpos, show block.inlen = s.inlen from (congrArg KiteCursor.inlen hc).trans ht.inlen]
      exact ht.finder
    · have hbehind := ht.finder.behind
      exact ht.finder.ready ht.finder.ok (Follows.refl mf') hlen (by omega)
  · rw [not_or] at hend
    have hlt : s'.posIn < s.inlen := by
      rw [← ht.inlen]
      exact Nat.not_le.mp hend.1
    refine Or.inr ⟨rfl, ⟨ht.inlen, ht.outlen, ht.sink, ht.startpos, ht.prevValid, ht.posIn,
      ht.covers, ht.pos, ht.inside, ht.finder⟩, ?_⟩
    refine ⟨?_, ?_, ?_, ?_, ?_, ?_⟩
    · simp only [ht.inlen]
      exact ht.finder
    · simp only [ht.startpos]
      exact ht.covers
    · simp only [ht.inlen]
      exact hlen
    · simp only [ht.inlen]
      omega
    · exact ht.prevValid.trans h.prevValid
    · simp only [ht.startpos, ht.posIn]
      exact le_trans h.startpos_le (Nat.le_add_right _ _)

/-- A block of the rest of a parse is a block of the whole parse. -/
theorem Taken.trans {s s' block : KiteDeflate} {mf mf' : KiteMatchfinder} {n : ℕ}
    (ht : Taken inp s s' mf n) (hd : BlockDone inp (FastNext inp) 0 s' block mf') : BlockDone inp (FastNext inp) 0 s block mf' where
  inlen := hd.inlen.trans ht.inlen
  outlen := hd.outlen.trans ht.outlen
  sink := hd.sink.trans ht.sink
  startpos := hd.startpos.trans ht.startpos
  covers := hd.covers
  startpos_le := hd.startpos_le
  endpos_le := ht.inlen ▸ hd.endpos_le
  lost_le := hd.lost_le
  stored := hd.stored
  next := by
    intro hmore
    obtain ⟨h₀, h₁, h₂, h₃⟩ := hd.next hmore
    rw [ht.inlen] at h₂
    rw [ht.posIn] at h₁
    exact ⟨h₀, by omega, h₂, h₃⟩
  ready := hd.ready

section Loop

variable {fuel : ℕ} {s : KiteDeflate} {mf : KiteMatchfinder}

/-- The loop with `fuel` turns comes to an end, and its block is a parse of what it covers. -/
def FastEnds (inp : ℕ → UInt8) (fuel : ℕ) : Prop :=
  ∀ s mf, FastInv inp s mf → max s.inlen 1 ≤ s.posIn + fuel →
    ∃ block mf', kiteDeflateFastLoop inp fuel (s, mf) = some (block, mf') ∧
      BlockDone inp (FastNext inp) 0 s block mf'

/-- A turn that took bytes ends the block or leaves a shorter parse. -/
theorem FastEnds.turn (hih : FastEnds inp fuel) (h : FastInv inp s mf)
    (hfuel : max s.inlen 1 ≤ s.posIn + (fuel + 1)) {s' : KiteDeflate} {mf' : KiteMatchfinder}
    {n : ℕ} (ht : Taken inp s s' mf' n) :
    ∃ block mf'', (if (kiteDeflateTurn s').2 = true then some ((kiteDeflateTurn s').1, mf')
      else kiteDeflateFastLoop inp fuel ((kiteDeflateTurn s').1, mf')) = some (block, mf'') ∧
      BlockDone inp (FastNext inp) 0 s block mf'' := by
  rcases ht.turn h with ⟨hdone, hblock⟩ | ⟨hmore, ht', hinv⟩
  · rw [if_pos hdone]
    exact ⟨_, _, rfl, hblock⟩
  · rw [if_neg (by rw [hmore]; decide)]
    have hpos := ht'.posIn
    have hn := ht'.pos
    obtain ⟨block, mf'', heq, hd⟩ := hih _ _ hinv (by rw [ht'.inlen]; omega)
    exact ⟨block, mf'', heq, ht'.trans hd⟩

theorem FastEnds.take (hih : FastEnds inp fuel) (h : FastInv inp s mf)
    (hfuel : max s.inlen 1 ≤ s.posIn + (fuel + 1)) {m : KiteMatch} {n : ℕ}
    {mf₁ mf₂ : KiteMatchfinder} (hn : 0 < n) (hin : s.posIn + n ≤ max s.inlen 1)
    (hcov : SymbolsCover inp s.startpos (s.symbols ++ [m.symbol]) (s.posIn + n))
    (hready : mf₁.Ready) (hstep : InStep inp s.inlen (s.posIn + n) mf₂) :
    ∃ block mf'', (if (kiteDeflateTally s m.symbol).2 = true
        then some ((kiteDeflateTally s m.symbol).1, mf₁)
      else if (kiteDeflateTurn { (kiteDeflateTally s m.symbol).1 with
          posIn := u32 ((kiteDeflateTally s m.symbol).1.posIn + n) }).2 = true
        then some ((kiteDeflateTurn { (kiteDeflateTally s m.symbol).1 with
          posIn := u32 ((kiteDeflateTally s m.symbol).1.posIn + n) }).1, mf₂)
      else kiteDeflateFastLoop inp fuel ((kiteDeflateTurn { (kiteDeflateTally s m.symbol).1 with
          posIn := u32 ((kiteDeflateTally s m.symbol).1.posIn + n) }).1, mf₂)) =
        some (block, mf'') ∧ BlockDone inp (FastNext inp) 0 s block mf'' := by
  rcases cursor_kiteDeflateTally s m.symbol with ⟨hfit, hc⟩ | ⟨hfull, hc⟩
  · rw [if_neg (by rw [hfit]; decide)]
    exact hih.turn h hfuel (h.taken hc hn hin hcov hstep)
  · rw [if_pos hfull]
    exact ⟨_, _, rfl, h.full hc hready⟩

theorem kiteDeflateTally_inlen (s : KiteDeflate) (sym : KiteSymbol) :
    (kiteDeflateTally s sym).1.inlen = s.inlen := by
  rcases cursor_kiteDeflateTally s sym with ⟨-, hc⟩ | ⟨-, hc⟩
  · exact congrArg KiteCursor.inlen hc
  · exact congrArg KiteCursor.inlen hc

/-- The literal of a turn, after a search that left `mf₁`. -/
theorem FastInv.literal (h : FastInv inp s mf) {mf₁ : KiteMatchfinder} (hok : mf₁.Ok inp s.inlen)
    (hfol : Follows mf mf₁) (hsync : mf₁.offset = s.posIn + 1 ∨ s.inlen < mf₁.offset + 3)
    (hbehind : mf₁.offset ≤ s.posIn + 1) {mf₂ : KiteMatchfinder}
    (hmf₂ : mf₂ = mf₁.setMatch 0 { mf₁.matchesRow 0 with dist := (inp s.posIn).toNat }) :
    SymbolsCover inp s.startpos (s.symbols ++ [(mf₂.matchesRow 0).symbol]) (s.posIn + 1) ∧
      mf₂.Ready ∧ InStep inp s.inlen (s.posIn + 1) mf₂ := by
  have hok₂ := hok.setLiteral (inp s.posIn).toNat
  have hpos := h.posIn_lt
  have hlen := h.inlen_le
  subst hmf₂
  have hoff : (mf₁.setMatch 0 { mf₁.matchesRow 0 with dist := (inp s.posIn).toNat }).offset =
      mf₁.offset := rfl
  refine ⟨?_, ?_, ?_⟩
  · rw [matchesRow_setMatch]
    exact h.covers.literal (hok.literal mf₁.row) rfl
  · refine hok₂.ready ?_ ?_ ?_ hlen (by omega)
    · exact hfol.niceLen ▸ h.finder.three_le_nice
    · exact hfol.maxLazy ▸ hfol.niceLen ▸ h.finder.lazy_le_nice
    · exact hfol.base ▸ h.finder.base_lt
  · refine ⟨hok₂, ?_, ?_, ?_, hsync, hbehind⟩
    · exact hfol.niceLen ▸ h.finder.three_le_nice
    · exact hfol.maxLazy ▸ hfol.niceLen ▸ h.finder.lazy_le_nice
    · exact hfol.base ▸ h.finder.base_lt

theorem FastEnds.succ (hih : FastEnds inp fuel) : FastEnds inp (fuel + 1) := by
  intro s mf h hfuel
  have hpos := h.posIn_lt
  have hlen := h.inlen_le
  unfold kiteDeflateFastLoop
  simp only
  rcases @InStep.getmatches inp s.inlen mf s.posIn h.finder mf.depth (kMatchMinLen - 1)
    (le_refl 2) h.finder.three_le_nice with ⟨hend, hget⟩ | ⟨hoff, hin, mf₁, k, hget, hok, hfol,
      hoff', hmatches⟩
  · rw [hget]
    simp only [Option.getD_none, ne_eq, not_true_eq_false, false_and, if_false]
    have hbehind := h.finder.behind
    obtain ⟨hcov, hready, hstep⟩ := h.literal h.finder.ok (Follows.refl mf) (Or.inr hend)
      (by omega) rfl
    exact hih.take h hfuel Nat.one_pos (by omega) hcov hready hstep
  · rw [hget]
    simp only [Option.getD_some]
    by_cases hm : k ≠ 0 ∧ ¬ ((mf₁.matchesRow k).len = kMatchMinLen ∧
        zlibDistanceTooFar < (mf₁.matchesRow k).dist)
    · rw [if_pos hm]
      have hmatch := hmatches k (by omega) (le_refl k)
      have h3 := hmatch.three_le
      have hinside := hmatch.inside
      obtain ⟨hok₂, hfol₂, hoff₂⟩ := hok.skips (hfol.niceLen ▸ h.finder.three_le_nice)
        ((mf₁.matchesRow k).len - 1)
      refine hih.take h hfuel (by omega) (by omega) (h.covers.copy hmatch)
        (h.finder.ready hok hfol hlen (by omega)) ?_
      rw [kiteDeflateTally_inlen]
      exact h.finder.follow hok₂ (hfol.trans hfol₂) (Or.inl (by omega)) (by omega)
    · rw [if_neg hm]
      obtain ⟨hcov, hready, hstep⟩ := h.literal hok hfol (Or.inl hoff') (by omega) rfl
      exact hih.take h hfuel Nat.one_pos (by omega) hcov hready hstep

theorem fastEnds (inp : ℕ → UInt8) (fuel : ℕ) : FastEnds inp fuel := by
  induction fuel with
  | zero =>
      intro s mf h hfuel
      have := h.posIn_lt
      omega
  | succ fuel ih => exact ih.succ

end Loop

structure FastStart (inp : ℕ → UInt8) (turns : ℕ) (s : KiteDeflate) (mf : KiteMatchfinder) :
    Prop where
  finder : InStep inp s.inlen s.posIn mf
  startpos : s.startpos = s.posIn
  prevValid : s.prevValid = false
  inlen_le : s.inlen ≤ maxInput
  posIn_lt : s.posIn < max s.inlen 1
  turns : max s.inlen 1 ≤ turns

theorem FastStart.block {turns : ℕ} {s : KiteDeflate} {mf : KiteMatchfinder}
    (h : FastStart inp turns s mf) :
    ∃ block mf', kiteDeflateBlock inp false turns (s, mf) = some (block, mf') ∧
      BlockDone inp (FastNext inp) 0 s block mf' := by
  have hinv : FastInv inp (kiteDeflateStartblock s) mf := by
    refine ⟨h.finder, ?_, h.inlen_le, h.posIn_lt, h.prevValid, le_of_eq h.startpos⟩
    unfold kiteDeflateStartblock
    simp only [h.startpos]
    exact SymbolsCover.nil inp s.posIn
  obtain ⟨block, mf', heq, hd⟩ := fastEnds inp turns _ _ hinv
    (le_trans h.turns (Nat.le_add_left _ _))
  exact ⟨block, mf', heq, ⟨hd.inlen, hd.outlen, hd.sink, hd.startpos, hd.covers, hd.startpos_le,
    hd.endpos_le, hd.lost_le, hd.stored, hd.next, hd.ready⟩⟩

theorem FastStart.next {turns lost : ℕ} {s block : KiteDeflate} {mf mf' : KiteMatchfinder}
    (h : FastStart inp turns s mf) (hd : BlockDone inp (FastNext inp) lost s block mf')
    (hlast : block.lastblock = false) :
    FastStart inp turns (kiteDeflateCommitblock inp block).1 mf' := by
  obtain ⟨-, -, hin, hfinder, hvalid⟩ := hd.next hlast
  have hlen := h.inlen_le
  have hmax := maxInput_lt
  have hturns := h.turns
  have hinlen : (kiteDeflateCommitblock inp block).1.inlen = s.inlen := hd.inlen
  refine ⟨hfinder, endpos_of_not_prevValid hvalid (by omega), hvalid, ?_, ?_, ?_⟩
  · rw [hinlen]
    exact hlen
  · rw [hinlen]
    exact lt_of_lt_of_le hin (le_max_left _ _)
  · rw [hinlen]
    exact hturns

theorem fastStart_reset {s : KiteDeflate} {mf : KiteMatchfinder} (h : mf.Ready)
    {srcsize targetDstsize : ℕ} (hlen : srcsize ≤ maxInput) :
    FastStart inp (srcsize + 1) (s.reset srcsize targetDstsize) (kiteMfReset mf) :=
  ⟨h.inStep (hlen.trans maxInput_lt.le), rfl, rfl, hlen, by simp [KiteDeflate.reset], by simp [KiteDeflate.reset]⟩

/-- The blocks of a greedy call produce the input up to `*srcsize`. -/
theorem kiteDeflateDestsize_fast {mf : KiteMatchfinder} (h : mf.Ready) (s : KiteDeflate)
    {srcsize : ℕ} (hlen : srcsize ≤ maxInput) (targetDstsize : ℕ) :
    ∃ r s', kiteDeflateDestsize inp false s mf srcsize targetDstsize = some r ∧
      RunDone inp 0 (s.reset srcsize targetDstsize) s' r.blocks r.mf ∧
      r.srcsize = s'.startpos := by
  obtain ⟨blocks, s', mf', lost, hrun, hdone, hlost⟩ :=
    kiteDeflateBlocks_spec (fun _ _ h => h.posIn_lt)
      (fun s mf h => by
        obtain ⟨block, mf', heq, hd⟩ := h.block
        exact ⟨block, mf', 0, heq, hd, fun _ hcontra => absurd hcontra (by decide), fun _ => rfl⟩)
      (fun _ _ _ _ _ h hd hlast => h.next hd hlast) (fastStart_reset h hlen)
      (show max srcsize 1 ≤ 0 + (srcsize + 1) by omega)
  have hfit : FlushesFit inp false (srcsize + 1) (srcsize + 1)
      (s.reset srcsize targetDstsize, kiteMfReset mf) := flushesFit_false _ _
  obtain rfl : lost = 0 := hlost.mpr hfit
  unfold kiteDeflateDestsize
  rw [hrun]
  exact ⟨_, s', rfl, hdone, rfl⟩

end ErofsUtils
