import ErofsUtils.KiteSound

/-!
# When the lazy parse is sound

The blocks of a lazy call expand to the input that `*srcsize` counts exactly if every literal that
is pending at the end of the input fits into the output.
-/

namespace ErofsUtils

open Lz77 KiteMatchfinder

variable {inp : ℕ → UInt8} {s : KiteDeflate} {mf : KiteMatchfinder} {srcsize targetDstsize : ℕ}

theorem kiteDeflateDestsize_slow_iff (hready : mf.Ready) (hsrc : srcsize ≤ maxInput) :
    (∃ r, kiteDeflateDestsize inp true s mf srcsize targetDstsize = some r ∧ r.Expands inp) ↔
      FlushesFit inp true (srcsize + 1) (srcsize + 1)
        (s.reset srcsize targetDstsize, kiteMfReset mf) := by
  obtain ⟨r, s', lost, heq, hdone, hstart, hlost⟩ :=
    @kiteDeflateDestsize_slow inp mf hready s srcsize hsrc targetDstsize
  have hexp : expand [] (r.tokens inp) = some (firstOf inp (r.srcsize - lost)) :=
    hstart ▸ hdone.expand
  have hle : lost ≤ r.srcsize := hstart ▸ hdone.lost_le
  rw [← hlost]
  constructor
  · rintro ⟨r', hr', hsound⟩
    obtain rfl : r = r' := Option.some.inj (heq.symm.trans hr')
    have hsame := congrArg List.length (Option.some.inj (hexp.symm.trans hsound))
    rw [length_firstOf, length_firstOf] at hsame
    omega
  · rintro rfl
    exact ⟨r, heq, hexp⟩

section OneByte

/-- The only turn of the lazy parse of one byte: the byte is pending. -/
theorem kiteDeflateSlowLoop_one (inp : ℕ → UInt8) (fuel : ℕ) (hinlen : s.inlen = 1)
    (hposIn : s.posIn = 0) (hvalid : s.prevValid = false) (hlongest : s.prevLongest = 0)
    (hlit : ∀ r, (mf.matrix r 0).len = 2) :
    ∃ mf', kiteDeflateSlowLoop inp (fuel + 1) (s, mf) =
        some ({ s with posIn := 1, prevValid := true, prevLongest := 0, lastblock := true },
          mf', true) ∧
      (mf'.matchesRow 0).symbol = ⟨2, (inp 0).toNat⟩ := by
  have hlen0 : (mf.matchesRow s.prevLongest).len = 2 := by
    rw [hlongest]
    exact hlit mf.row
  have hsym := @first_literal inp { mf with row := !mf.row } (hlit _)
  obtain ⟨mf', hsearch, hrow⟩ : ∃ mf', kiteSlowSearch inp 1 2 (slowRow inp s mf) = (mf', 0, 2) ∧
      mf'.matchesRow 0 = (slowRow inp s mf).matchesRow 0 := by
    have hnone : ∀ depth bestlen, 2 ≤ bestlen →
        kiteMfGetmatchesHc3 inp 1 (slowRow inp s mf) depth bestlen = (slowRow inp s mf, none) :=
      fun _ _ _ => kiteMfGetmatchesHc3_none (by omega)
    unfold kiteSlowSearch kiteMfHc3Skip
    by_cases hlazy : 2 < (slowRow inp s mf).maxLazy
    · rw [if_pos hlazy, hnone _ 2 le_rfl]
      exact ⟨_, rfl, rfl⟩
    · rw [if_neg hlazy, hnone _ 2 le_rfl]
      exact ⟨_, rfl, rfl⟩
  refine ⟨mf', ?_, ?_⟩
  · unfold slowRow at hsearch
    simp only [hposIn] at hsearch
    unfold kiteDeflateSlowLoop
    have hone : u32 (0 + 1) = 1 := by decide
    simp only [hlen0, hinlen, hposIn, hsearch, hvalid, lt_irrefl, Bool.false_eq_true, if_false,
      hone, le_refl, if_true, decide_true, Bool.or_true]
  · rw [hrow]
    unfold slowRow
    rw [hposIn]
    exact hsym

theorem kiteMfReset_rows (mf : KiteMatchfinder) (r : Bool) :
    ((kiteMfReset mf).matrix r 0).len = 2 := by
  simp only [kiteMfReset, if_true]
  rfl

/-- The state in front of the flush is like the first one. -/
theorem pending_firstSymbol (hs : s.table1.Bytes) (srcsize targetDstsize : ℕ) :
    FirstSymbol { s.first srcsize targetDstsize with
      posIn := 1, prevValid := true, prevLongest := 0, lastblock := true } := by
  have h := first_firstSymbol hs srcsize targetDstsize
  exact ⟨h.mode, h.cost, h.sink, h.tab1, h.table0, h.table1, h.main, h.dist⟩

/-- A run of one block: only its own flush has to fit. -/
theorem flushesFit_of_loop {turns fuel : ℕ} {s' : KiteDeflate} {mf' : KiteMatchfinder}
    {sym : KiteSymbol}
    (hloop : kiteDeflateSlowLoop inp turns (kiteDeflateStartblock s, mf) = some (s', mf', true)) (hvalid : s'.prevValid = true) (hlongest : s'.prevLongest = 0)
    (hlast : s'.lastblock = true) (hsym : (mf'.matchesRow 0).symbol = sym) :
    FlushesFit inp true turns (fuel + 1) (s, mf) ↔ (kiteDeflateTally s' sym).2 = false := by
  have hflush : FlushFits inp true turns (s, mf) ↔ (kiteDeflateTally s' sym).2 = false := by
    unfold FlushFits
    simp only [hloop, Option.some.injEq, Prod.mk.injEq, and_true, forall_const]
    constructor
    · intro h
      have := h s' mf' ⟨rfl, rfl⟩ hvalid
      rwa [hlongest, hsym] at this
    · rintro h s₁ mf₁ ⟨rfl, rfl⟩ -
      rw [hlongest, hsym]
      exact h
  rw [FlushesFit, hflush]
  refine ⟨fun h => h.1, fun h => ⟨h, ?_⟩⟩
  intro block mf₁ hblock hmore
  unfold kiteDeflateBlock kiteDeflateSlow at hblock
  simp only [if_true, hloop, Option.some.injEq, Prod.mk.injEq] at hblock
  obtain ⟨rfl, -⟩ := hblock
  unfold kiteDeflateFlush at hmore
  rw [if_pos hvalid, hlongest, hsym] at hmore
  have hcur := cursor_kiteDeflateTally s' sym
  generalize kiteDeflateTally s' sym = r at hcur hmore
  have hend : r.1.lastblock = true := by
    rcases hcur with ⟨-, hc⟩ | ⟨-, hc⟩
    · exact (congrArg KiteCursor.lastblock hc).trans hlast
    · exact congrArg KiteCursor.lastblock hc
  exact absurd (hend.symm.trans hmore) (by decide)

theorem flushesFit_one (inp : ℕ → UInt8) (s : KiteDeflate) (mf : KiteMatchfinder)
    (targetDstsize : ℕ) {srcsize : ℕ} (hone : srcsize = 1) :
    FlushesFit inp true (srcsize + 1) (srcsize + 1)
        (s.reset srcsize targetDstsize, kiteMfReset mf) ↔
      (kiteDeflateTally { s.first srcsize targetDstsize with
        posIn := 1, prevValid := true, prevLongest := 0, lastblock := true }
        ⟨2, (inp 0).toNat⟩).2 = false := by
  obtain ⟨mf', hloop, hsym⟩ := @kiteDeflateSlowLoop_one
    (kiteDeflateStartblock (s.reset srcsize targetDstsize)) (kiteMfReset mf) inp srcsize hone rfl rfl
    rfl (kiteMfReset_rows mf)
  exact flushesFit_of_loop hloop rfl rfl rfl hsym

end OneByte

/-- The blocks of a lazy call expand to the input that `*srcsize` counts exactly if each literal
that is pending at the end of the input fits. -/
theorem kiteDeflateDestsize_lazy_iff {level : ℕ} (hlevel : 4 ≤ level) {lazySearch : Bool}
    {s : KiteDeflate} {mf : KiteMatchfinder} (hreach : KiteReach level lazySearch s mf)
    (inp : ℕ → UInt8) {srcsize : ℕ} (hsrc : srcsize ≤ maxInput) (targetDstsize : ℕ) :
    (∃ r, kiteDeflateDestsize inp lazySearch s mf srcsize targetDstsize = some r ∧
        r.Expands inp) ↔
      FlushesFit inp lazySearch (srcsize + 1) (srcsize + 1)
        (s.reset srcsize targetDstsize, kiteMfReset mf) := by
  obtain rfl : lazySearch = true := by
    rw [hreach.lazySearch_eq]
    exact decide_eq_true hlevel
  exact kiteDeflateDestsize_slow_iff hreach.ready hsrc

theorem flushesFit_of_all {inp : ℕ → UInt8} {turns fuel : ℕ} {st : KiteDeflate × KiteMatchfinder}
    (hflush : (kiteDeflateSlowLoop inp turns (kiteDeflateStartblock st.1, st.2)).all (fun r =>
      !r.1.prevValid || !(kiteDeflateTally r.1 (r.2.1.matchesRow r.1.prevLongest).symbol).2) = true)
    (hlast : (kiteDeflateBlock inp true turns st).all (fun r => r.1.lastblock) = true) :
    FlushesFit inp true turns (fuel + 1) st := by
  refine ⟨fun _ s mf hloop hvalid => ?_, fun block mf hblock hmore => ?_⟩
  · rw [hloop, Option.all_some, hvalid] at hflush
    simpa using hflush
  · rw [hblock, Option.all_some] at hlast
    exact absurd (hlast.symm.trans hmore) (by decide)

/-- A literal, a match, and a literal that is pending at the end. -/
theorem kiteDeflateDestsize_lazy_repeated : KiteReach 4 true .fresh .levelFour ∧
    ∃ r, kiteDeflateDestsize repeated true .fresh .levelFour 9 4096 = some r ∧
      r.Expands repeated :=
  ⟨levelFour_reach, (kiteDeflateDestsize_lazy_iff le_rfl levelFour_reach _ (by decide) 4096).mpr
    (flushesFit_of_all (by decide +kernel) (by decide +kernel))⟩

/-- With an output of two bytes the only byte of the input is counted and not recorded. -/
theorem kiteDeflateDestsize_lazy_dropped : ∃ mf, KiteReach 4 true .fresh mf ∧
    ¬ ∃ r, kiteDeflateDestsize (fun _ => 97) true .fresh mf 1 2 = some r ∧
      r.Expands (fun _ => 97) := by
  obtain ⟨mf, hreach⟩ := kiteReach_level_four
  refine ⟨mf, hreach, fun h => ?_⟩
  have hfits := (flushesFit_one _ _ mf 2 rfl).mp
    ((kiteDeflateDestsize_slow_iff hreach.ready (by decide)).mp h)
  have hfull := @FirstSymbol.full _ ⟨2, 97⟩ (pending_firstSymbol fresh_bytes 1 2)
    (Nat.lt_succ_self 2) (by decide) (by decide)
  exact absurd (hfull.symm.trans hfits) (by decide)

end ErofsUtils
