import ErofsUtils.KiteSlow

/-!
# Blocks of the lazy parse

The loop of `kite_deflate_slow` comes to an end, with a full block or in front of the flush at the
end of the input. The flush drops the pending literal when it does not fit.
-/

namespace ErofsUtils

open Lz77 KiteMatchfinder

variable {inp : ℕ → UInt8} {s s' : KiteDeflate} {mf mf' : KiteMatchfinder} {fuel : ℕ}

structure SlowFlush (inp : ℕ → UInt8) (s s' : KiteDeflate) (mf' : KiteMatchfinder) : Prop where
  kept : SlowKept s s'
  inv : SlowInv inp s' mf'
  reached : s'.inlen ≤ s'.posIn
  lastblock : s'.lastblock = true

def SlowDone (inp : ℕ → UInt8) (s : KiteDeflate)
    (r : Option (KiteDeflate × KiteMatchfinder × Bool)) : Prop :=
  (∃ s' mf', r = some (s', mf', true) ∧ SlowFlush inp s s' mf') ∨
    ∃ block mf', r = some (block, mf', false) ∧ BlockDone inp (Pending inp) 0 s block mf'

/-- The loop with `fuel` turns comes to an end. -/
def SlowEnds (inp : ℕ → UInt8) (fuel : ℕ) : Prop :=
  ∀ s mf, SlowInv inp s mf → s.posIn < max s.inlen 1 → max s.inlen 1 ≤ s.posIn + fuel →
    SlowDone inp s (kiteDeflateSlowLoop inp fuel (s, mf))

theorem SlowKept.trans {s'' : KiteDeflate} (h : SlowKept s s') (h' : SlowKept s' s'') :
    SlowKept s s'' :=
  ⟨h'.inlen.trans h.inlen, h'.outlen.trans h.outlen, h'.sink.trans h.sink,
    h'.startpos.trans h.startpos⟩

/-- A block of the rest of a parse is a block of the whole parse. -/
theorem SlowTaken.done (ht : SlowTaken inp s s' mf)
    {r : Option (KiteDeflate × KiteMatchfinder × Bool)} (h : SlowDone inp s' r) :
    SlowDone inp s r := by
  have hlt := ht.lt
  rcases h with ⟨s₁, mf₁, heq, hf⟩ | ⟨block, mf₁, heq, hd⟩
  · exact Or.inl ⟨s₁, mf₁, heq, ht.kept.trans hf.kept, hf.inv, hf.reached, hf.lastblock⟩
  · refine Or.inr ⟨block, mf₁, heq, hd.inlen.trans ht.kept.inlen, hd.outlen.trans ht.kept.outlen,
      hd.sink.trans ht.kept.sink, hd.startpos.trans ht.kept.startpos, hd.covers, hd.startpos_le,
      ht.kept.inlen ▸ hd.endpos_le, hd.lost_le, hd.stored, ?_, hd.ready⟩
    intro hmore
    obtain ⟨h₀, h₁, h₂, h₃⟩ := hd.next hmore
    rw [ht.kept.inlen] at h₂
    exact ⟨h₀, by omega, h₂, h₃⟩

/-- The state at the end of a turn, with the new `lastblock`. -/
theorem SlowTaken.lastblock (ht : SlowTaken inp s s' mf) (last : Bool) :
    SlowTaken inp s { s' with lastblock := last } mf :=
  ⟨⟨ht.kept.inlen, ht.kept.outlen, ht.kept.sink, ht.kept.startpos⟩,
    ⟨⟨ht.inv.pending.finder, ht.inv.pending.literal, ht.inv.pending.longest⟩, ht.inv.covers,
      ht.inv.startpos_le, ht.inv.inlen_le, ht.inv.posIn_le, ht.inv.mode⟩, ht.lt⟩

theorem SlowInv.ready (h : SlowInv inp s mf) : mf.Ready := by
  have hb := h.pending.finder.behind
  have hle := h.posIn_le
  exact h.pending.finder.ready h.pending.finder.ok (Follows.refl mf) h.inlen_le (by omega)

/-- The block that ends with `max_symbols` symbols. -/
theorem SlowTaken.endblock (ht : SlowTaken inp s s' mf) (hin : s'.posIn < s.inlen) :
    BlockDone inp (Pending inp) 0 s (kiteDeflateEndblock s') mf := by
  obtain ⟨last, hc⟩ := cursor_kiteDeflateEndblock s'
  generalize kiteDeflateEndblock s' = block at hc
  have hpos : block.posIn = s'.posIn := congrArg KiteCursor.posIn hc
  have hvalid : block.prevValid = s'.prevValid := congrArg KiteCursor.prevValid hc
  have hlongest : block.prevLongest = s'.prevLongest := congrArg KiteCursor.prevLongest hc
  have hinlen : block.inlen = s'.inlen := congrArg KiteCursor.inlen hc
  have hsym : block.symbols = s'.symbols := congrArg KiteCursor.symbols hc
  have hstart : block.startpos = s'.startpos := congrArg KiteCursor.startpos hc
  have hend : block.endpos = s'.posIn - s'.prevValid.toNat := by
    rw [← ht.inv.endpos]
    unfold KiteDeflate.endpos
    rw [hpos, hvalid]
  refine ⟨hinlen.trans ht.kept.inlen, (congrArg KiteCursor.outlen hc).trans ht.kept.outlen,
    (congrArg KiteCursor.sink hc).trans ht.kept.sink, hstart.trans ht.kept.startpos, ?_, ?_, ?_,
    Nat.zero_le _, fun _ => rfl, ?_, ht.inv.ready⟩
  · rw [hstart, hsym, hend]
    exact ht.inv.covers
  · rw [hstart, hend]
    exact ht.inv.startpos_le
  · rw [hend, ← ht.kept.inlen]
    exact (Nat.sub_le _ _).trans ht.inv.posIn_le
  · intro _
    refine ⟨rfl, hpos ▸ ht.lt, hpos ▸ hin, ?_, ?_, ?_⟩
    · rw [hinlen, hpos]
      exact ht.inv.pending.finder
    · rw [hvalid, hpos]
      exact ht.inv.pending.literal
    · rw [hlongest, hvalid, hpos, hinlen]
      exact ht.inv.pending.longest

theorem SlowEnds.turn (hih : SlowEnds inp fuel) (hfuel : max s.inlen 1 ≤ s.posIn + (fuel + 1))
    (ht : SlowTaken inp s s' mf) :
    SlowDone inp s (if s'.inlen ≤ s'.posIn then
        some ({ s' with lastblock := s'.lastblock || decide (s'.inlen ≤ s'.posIn) }, mf, true)
      else if kiteMaxSymbols ≤ s'.symbols.length then
        some (kiteDeflateEndblock
          { s' with lastblock := s'.lastblock || decide (s'.inlen ≤ s'.posIn) }, mf, false)
      else kiteDeflateSlowLoop inp fuel
        ({ s' with lastblock := s'.lastblock || decide (s'.inlen ≤ s'.posIn) }, mf)) := by
  have ht' := ht.lastblock (s'.lastblock || decide (s'.inlen ≤ s'.posIn))
  have hinlen := ht.kept.inlen
  have hlt := ht.lt
  split_ifs with hend hmax
  · refine Or.inl ⟨_, mf, rfl, ht'.kept, ht'.inv, hend, ?_⟩
    simp only [hend, decide_true, Bool.or_true]
  · exact Or.inr ⟨_, mf, rfl, ht'.endblock (by simp only; omega)⟩
  · refine ht'.done (hih _ _ ht'.inv ?_ ?_)
    · simp only
      omega
    · simp only
      omega

/-- What a turn does: the pending symbol does not fit any more, or it is a match and taken, or the
literal at `pos_in` becomes the pending one, in the place of another literal or of none. -/
inductive SlowTurn (inp : ℕ → UInt8) (s : KiteDeflate) (mf : KiteMatchfinder) :
    (KiteDeflate × KiteMatchfinder) × Option Bool → Prop
  | full {s' : KiteDeflate} {mf' : KiteMatchfinder}
      (hdone : BlockDone inp (Pending inp) 0 s s' mf')
      (hfull : s.prevLongest = 0 →
        s.prevValid = true ∧ (kiteDeflateTally s (mf.matchesRow 0).symbol).2 = true) :
      SlowTurn inp s mf ((s', mf'), some false)
  | copy {s' : KiteDeflate} {mf' : KiteMatchfinder} (hlongest : s.prevLongest ≠ 0)
      (hvalid : s'.prevValid = false) (hsym : s'.symbols.length = s.symbols.length + 1)
      (ht : SlowTaken inp s s' mf') : SlowTurn inp s mf (kiteSlowTests s' mf')
  | first {found : ℕ} {mf' : KiteMatchfinder} (hvalid : s.prevValid = false)
      (ht : SlowTaken inp s
        { s with posIn := s.posIn + 1, prevValid := true, prevLongest := found } mf') :
      SlowTurn inp s mf (kiteSlowTests
        { s with posIn := s.posIn + 1, prevValid := true, prevLongest := found } mf')
  | literal {found : ℕ} {mf' : KiteMatchfinder} (hvalid : s.prevValid = true)
      (hfits : (kiteDeflateTally s (mf.matchesRow 0).symbol).2 = false)
      (ht : SlowTaken inp s { (kiteDeflateTally s (mf.matchesRow 0).symbol).1 with
        posIn := s.posIn + 1, prevLongest := found } mf') :
      SlowTurn inp s mf (kiteSlowTests { (kiteDeflateTally s (mf.matchesRow 0).symbol).1 with
        posIn := s.posIn + 1, prevLongest := found } mf')

theorem SlowInv.turn (h : SlowInv inp s mf) (hpos : s.posIn < max s.inlen 1) :
    SlowTurn inp s mf (kiteSlowTurn inp (s, mf)) := by
  obtain ⟨mf₁, found, len, hsearch, hs⟩ :=
    kiteSlowSearch_spec (slowRow_inStep h.pending.finder) h.two_le_len0
  have hlen := h.inlen_le
  have hmax := maxInput_lt
  have htwo := hs.two_le
  have hlit : (mf.matchesRow 0).len = kMatchMinLen - 1 := h.pending.finder.ok.literal mf.row
  have hready : mf₁.Ready := by
    have := hs.behind
    exact (slowRow_inStep h.pending.finder).ready hs.ok hs.follows hlen (by omega)
  unfold slowRow at hsearch
  unfold kiteSlowTurn
  simp only [hsearch]
  by_cases hlt : len < (mf.matchesRow s.prevLongest).len
  · have hlongest : s.prevLongest ≠ 0 := by
      intro hz
      rw [hz, hlit] at hlt
      exact absurd (htwo.trans_lt hlt) (by decide)
    simp only [if_pos hlt]
    have hmode := encodeMode_kiteDeflateTally h.mode (mf.matchesRow s.prevLongest).symbol
    rcases cursor_kiteDeflateTally s (mf.matchesRow s.prevLongest).symbol with
      ⟨hfit, hc⟩ | ⟨hfull, hc⟩
    · simp only [hfit, Bool.false_eq_true, if_false]
      have hsym := congrArg (List.length ∘ KiteCursor.symbols) hc
      exact SlowTurn.copy hlongest rfl (hsym.trans List.length_append)
        (h.takeMatch hs hlt hc hmode)
    · simp only [hfull, if_true]
      exact SlowTurn.full (h.full hc hready) (fun hz => absurd hz hlongest)
  · simp only [if_neg hlt]
    cases hvalid : s.prevValid with
    | false =>
        simp only [Bool.false_eq_true, if_false]
        have hcov := h.covers
        rw [hvalid] at hcov
        have hkept : SlowKept s { s with prevValid := true } := ⟨rfl, rfl, rfl, rfl⟩
        have ht := h.takeLiteral hs hlt hpos hkept rfl rfl h.mode hcov
        have hnext : u32 (s.posIn + 1) = s.posIn + 1 := Nat.mod_eq_of_lt (by omega)
        simp only [hnext] at ht ⊢
        exact SlowTurn.first hvalid ht
    | true =>
        simp only [if_true]
        obtain ⟨hone, hdist⟩ := h.pending.literal hvalid
        have hmode := encodeMode_kiteDeflateTally h.mode (mf.matchesRow 0).symbol
        have hcov := h.covers
        rw [hvalid, Bool.toNat_true] at hcov
        have hcov' := hcov.literal hlit hdist
        rw [Nat.sub_add_cancel hone] at hcov'
        rcases cursor_kiteDeflateTally s (mf.matchesRow 0).symbol with ⟨hfit, hc⟩ | ⟨hfull, hc⟩
        · simp only [hfit, Bool.false_eq_true, if_false]
          have hkept : SlowKept s (kiteDeflateTally s (mf.matchesRow 0).symbol).1 :=
            ⟨congrArg KiteCursor.inlen hc, congrArg KiteCursor.outlen hc,
              congrArg KiteCursor.sink hc, congrArg KiteCursor.startpos hc⟩
          have hsym : (kiteDeflateTally s (mf.matchesRow 0).symbol).1.symbols =
            s.symbols ++ [(mf.matchesRow 0).symbol] := congrArg KiteCursor.symbols hc
          have hposIn : (kiteDeflateTally s (mf.matchesRow 0).symbol).1.posIn = s.posIn :=
            congrArg KiteCursor.posIn hc
          have hvalid' : (kiteDeflateTally s (mf.matchesRow 0).symbol).1.prevValid = true :=
            (congrArg KiteCursor.prevValid hc).trans hvalid
          rw [← hsym] at hcov'
          have ht := h.takeLiteral hs hlt hpos hkept hposIn hvalid' hmode hcov'
          have hnext : u32 ((kiteDeflateTally s (mf.matchesRow 0).symbol).1.posIn + 1) =
              s.posIn + 1 := by
            rw [hposIn]
            exact Nat.mod_eq_of_lt (by omega)
          simp only [hnext] at ht ⊢
          exact SlowTurn.literal hvalid hfit ht
        · simp only [hfull, if_true]
          exact SlowTurn.full (h.full hc hready) (fun _ => ⟨hvalid, hfull⟩)

theorem SlowEnds.succ (hih : SlowEnds inp fuel) : SlowEnds inp (fuel + 1) := by
  intro s mf h hpos hfuel
  have hnext : ∀ s' mf', SlowTaken inp s s' mf' →
      SlowDone inp s (kiteSlowNext inp fuel (kiteSlowTests s' mf')) := by
    intro s' mf' ht
    rw [kiteSlowNext_tests]
    exact hih.turn hfuel ht
  have hturn := h.turn hpos
  rw [kiteDeflateSlowLoop_succ]
  generalize kiteSlowTurn inp (s, mf) = r at hturn
  cases hturn with
  | full hdone _ => exact Or.inr ⟨_, _, rfl, hdone⟩
  | copy _ _ _ ht => exact hnext _ _ ht
  | first _ ht => exact hnext _ _ ht
  | literal _ _ ht => exact hnext _ _ ht

theorem slowEnds (inp : ℕ → UInt8) (fuel : ℕ) : SlowEnds inp fuel := by
  induction fuel with
  | zero =>
      intro s mf h hpos hfuel
      omega
  | succ fuel ih => exact ih.succ

/-- At the end of the input no match is pending. -/
theorem SlowFlush.prevLongest (h : SlowFlush inp s s' mf) : s'.prevLongest = 0 := by
  rcases h.inv.pending.longest with hz | ⟨-, hm⟩
  · exact hz
  · have h₁ := hm.inside
    have h₂ := hm.three_le
    have h₃ := h.reached
    omega

theorem SlowFlush.blockDone (h : SlowFlush inp s s' mf) {block : KiteDeflate}
    (hkept : SlowKept s' block) (hpos : block.posIn = s'.posIn) (hvalid : block.prevValid = false)
    (hlast : block.lastblock = true) (hmode : block.encodeMode ≠ .stored) {lost : ℕ}
    (hlost : lost ≤ s'.posIn)
    (hcov : SymbolsCover inp s'.startpos block.symbols (s'.posIn - lost)) :
    BlockDone inp (Pending inp) lost s block mf := by
  have hlen := h.inv.inlen_le
  have hmax := maxInput_lt
  have hle := h.inv.posIn_le
  have hinlen := h.kept.inlen
  have hstart := h.inv.startpos_le
  have hend : block.endpos = s'.posIn := by
    rw [endpos_of_not_prevValid hvalid (by omega), hpos]
  have hkept' := h.kept.trans hkept
  refine ⟨hkept'.inlen, hkept'.outlen, hkept'.sink, hkept'.startpos, ?_, ?_, ?_, ?_,
    fun hstored => absurd hstored hmode, ?_, h.inv.ready⟩
  · rw [hkept.startpos, hend]
    exact hcov
  · rw [hkept.startpos, hend]
    omega
  · rw [hend, ← hinlen]
    exact hle
  · rw [hend]
    exact hlost
  · intro hmore
    rw [hlast] at hmore
    exact absurd hmore (by decide)

/-- The flush drops one byte, or the pending literal fits. -/
theorem SlowFlush.done (h : SlowFlush inp s s' mf) :
    ∃ lost, BlockDone inp (Pending inp) lost s (kiteDeflateFlush s' mf) mf ∧
      (lost = 0 ↔ (s'.prevValid = true →
        (kiteDeflateTally s' (mf.matchesRow s'.prevLongest).symbol).2 = false)) := by
  have hcov := h.inv.covers
  rw [h.prevLongest]
  unfold kiteDeflateFlush
  rw [h.prevLongest]
  cases hvalid : s'.prevValid with
  | false =>
      rw [hvalid] at hcov
      refine ⟨0, ?_, ⟨fun _ hcontra => absurd hcontra (by decide), fun _ => rfl⟩⟩
      exact h.blockDone ⟨rfl, rfl, rfl, rfl⟩ rfl hvalid h.lastblock h.inv.mode (Nat.zero_le _) hcov
  | true =>
      obtain ⟨hone, hdist⟩ := h.inv.pending.literal hvalid
      rw [hvalid, Bool.toNat_true] at hcov
      have hmode := encodeMode_kiteDeflateTally h.inv.mode (mf.matchesRow 0).symbol
      rw [if_pos rfl]
      rcases cursor_kiteDeflateTally s' (mf.matchesRow 0).symbol with ⟨hfit, hc⟩ | ⟨hfull, hc⟩
      · refine ⟨0, ?_, ⟨fun _ _ => hfit, fun _ => rfl⟩⟩
        have hcov' := hcov.literal (h.inv.pending.finder.ok.literal mf.row) hdist
        rw [Nat.sub_add_cancel hone] at hcov'
        have hsym : (kiteDeflateTally s' (mf.matchesRow 0).symbol).1.symbols =
            s'.symbols ++ [(mf.matchesRow 0).symbol] := congrArg KiteCursor.symbols hc
        have hkept : SlowKept s' { (kiteDeflateTally s' (mf.matchesRow 0).symbol).1 with
            prevValid := false } :=
          ⟨congrArg KiteCursor.inlen hc, congrArg KiteCursor.outlen hc,
            congrArg KiteCursor.sink hc, congrArg KiteCursor.startpos hc⟩
        refine h.blockDone hkept (congrArg KiteCursor.posIn hc) rfl ((congrArg KiteCursor.lastblock hc).trans h.lastblock)
          hmode (Nat.zero_le _) ?_
        simp only [hsym, Nat.sub_zero]
        exact hcov'
      · refine ⟨1, ?_, ⟨fun hcontra => absurd hcontra (by decide), fun hcontra => ?_⟩⟩
        · have hsym : (kiteDeflateTally s' (mf.matchesRow 0).symbol).1.symbols = s'.symbols :=
            congrArg KiteCursor.symbols hc
          have hkept : SlowKept s' { (kiteDeflateTally s' (mf.matchesRow 0).symbol).1 with
              prevValid := false } :=
            ⟨congrArg KiteCursor.inlen hc, congrArg KiteCursor.outlen hc,
              congrArg KiteCursor.sink hc, congrArg KiteCursor.startpos hc⟩
          refine h.blockDone hkept (congrArg KiteCursor.posIn hc) rfl (congrArg KiteCursor.lastblock hc) hmode hone ?_
          simp only [hsym]
          exact hcov
        · have := hcontra rfl
          rw [hfull] at this
          exact absurd this (by decide)

structure SlowStart (inp : ℕ → UInt8) (turns : ℕ) (s : KiteDeflate) (mf : KiteMatchfinder) :
    Prop where
  pending : Pending inp s mf
  startpos : s.startpos = s.posIn - s.prevValid.toNat
  inlen_le : s.inlen ≤ maxInput
  posIn_lt : s.posIn < max s.inlen 1
  turns : max s.inlen 1 ≤ turns

theorem SlowStart.inv {turns : ℕ} (h : SlowStart inp turns s mf) :
    SlowInv inp (kiteDeflateStartblock s) mf := by
  refine ⟨⟨h.pending.finder, h.pending.literal, h.pending.longest⟩, ?_, le_of_eq h.startpos,
    h.inlen_le, le_of_lt h.posIn_lt, (by simp [kiteDeflateStartblock])⟩
  have hstart : (kiteDeflateStartblock s).startpos =
      (kiteDeflateStartblock s).posIn - (kiteDeflateStartblock s).prevValid.toNat := h.startpos
  rw [← hstart]
  exact SymbolsCover.nil inp _

theorem SlowStart.block {turns : ℕ} (h : SlowStart inp turns s mf) :
    ∃ block mf' lost, kiteDeflateBlock inp true turns (s, mf) = some (block, mf') ∧
      BlockDone inp (Pending inp) lost s block mf' ∧
      (lost = 0 ↔ FlushFits inp true turns (s, mf)) := by
  have hinv := h.inv
  have hkeep : ∀ {lost : ℕ} {block : KiteDeflate} {mf' : KiteMatchfinder},
      BlockDone inp (Pending inp) lost (kiteDeflateStartblock s) block mf' →
      BlockDone inp (Pending inp) lost s block mf' := fun hd =>
    ⟨hd.inlen, hd.outlen, hd.sink, hd.startpos, hd.covers, hd.startpos_le, hd.endpos_le, hd.lost_le,
      hd.stored, hd.next, hd.ready⟩
  unfold kiteDeflateBlock kiteDeflateSlow FlushFits
  rw [if_pos rfl]
  rcases slowEnds inp turns _ _ hinv h.posIn_lt (le_trans h.turns (Nat.le_add_left _ _)) with
    ⟨s', mf', heq, hf⟩ | ⟨block, mf', heq, hd⟩
  · obtain ⟨lost, hd, hlost⟩ := hf.done
    simp only [heq, if_true]
    refine ⟨_, mf', lost, rfl, hkeep hd, hlost.trans ⟨fun hfit _ s₁ mf₁ hs₁ => ?_, fun hfit =>
      hfit trivial s' mf' rfl⟩⟩
    obtain ⟨rfl, hrest⟩ := Prod.mk.inj (Option.some.inj hs₁)
    obtain ⟨rfl, -⟩ := Prod.mk.inj hrest
    exact hfit
  · simp only [heq, Bool.false_eq_true, if_false]
    refine ⟨block, mf', 0, rfl, hkeep hd, fun _ _ s₁ mf₁ hs₁ => ?_, fun _ => rfl⟩
    obtain ⟨-, hrest⟩ := Prod.mk.inj (Option.some.inj hs₁)
    exact absurd (Prod.mk.inj hrest).2 (by decide)

theorem SlowStart.next {turns lost : ℕ} {block : KiteDeflate} (h : SlowStart inp turns s mf)
    (hd : BlockDone inp (Pending inp) lost s block mf') (hlast : block.lastblock = false) :
    SlowStart inp turns (kiteDeflateCommitblock inp block).1 mf' := by
  obtain ⟨-, -, hin, hpend⟩ := hd.next hlast
  have hlen := h.inlen_le
  have hmax := maxInput_lt
  have hinlen : (kiteDeflateCommitblock inp block).1.inlen = s.inlen := hd.inlen
  refine ⟨⟨hpend.finder, hpend.literal, hpend.longest⟩, ?_, ?_, ?_, ?_⟩
  · refine sub32_of_le ?_ ?_
    · cases hv : block.prevValid with
      | false => exact Nat.zero_le _
      | true => exact (hpend.literal hv).1
    · omega
  · rw [hinlen]
    exact hlen
  · rw [hinlen]
    exact lt_of_lt_of_le hin (le_max_left _ _)
  · rw [hinlen]
    exact h.turns

theorem slowStart_reset (h : mf.Ready) {srcsize targetDstsize : ℕ} (hlen : srcsize ≤ maxInput) :
    SlowStart inp (srcsize + 1) (s.reset srcsize targetDstsize) (kiteMfReset mf) := by
  refine ⟨⟨h.inStep (hlen.trans maxInput_lt.le), fun hcontra => absurd hcontra (by simp [KiteDeflate.reset]),
    Or.inl rfl⟩, rfl, hlen, by simp [KiteDeflate.reset], by simp [KiteDeflate.reset]⟩

/-- The blocks of a lazy call produce the input up to `*srcsize`, unless the flush drops a byte. -/
theorem kiteDeflateDestsize_slow (h : mf.Ready) (s : KiteDeflate) {srcsize : ℕ}
    (hlen : srcsize ≤ maxInput) (targetDstsize : ℕ) :
    ∃ r s' lost, kiteDeflateDestsize inp true s mf srcsize targetDstsize = some r ∧
      RunDone inp lost (s.reset srcsize targetDstsize) s' r.blocks r.mf ∧
      r.srcsize = s'.startpos ∧
      (lost = 0 ↔ FlushesFit inp true (srcsize + 1) (srcsize + 1)
        (s.reset srcsize targetDstsize, kiteMfReset mf)) := by
  obtain ⟨blocks, s', mf', lost, hrun, hdone, hlost⟩ :=
    kiteDeflateBlocks_spec (fun _ _ h => h.posIn_lt) (fun _ _ h => h.block)
      (fun _ _ _ _ _ h hd hlast => h.next hd hlast) (slowStart_reset h hlen)
      (show max srcsize 1 ≤ 0 + (srcsize + 1) by omega)
  unfold kiteDeflateDestsize
  rw [hrun]
  exact ⟨_, s', lost, rfl, hdone, rfl, hlost⟩

end ErofsUtils
