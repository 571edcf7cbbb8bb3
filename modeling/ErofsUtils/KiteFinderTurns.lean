import ErofsUtils.KiteFinderRuns

/-!
# The turns of the parsers as runs of the match finder

What `kite_deflate_fast` and `kite_deflate_slow` do with the match finder in a turn are the steps
of a caller, so the calls of both parsers are among those of a run.
-/

namespace ErofsUtils

open KiteMatchfinder

variable {inp : ℕ → UInt8} {s : KiteDeflate} {mf : KiteMatchfinder}

theorem kiteDeflateTally_posIn (s : KiteDeflate) (sym : KiteSymbol) :
    (kiteDeflateTally s sym).1.posIn = s.posIn := by
  rcases cursor_kiteDeflateTally s sym with ⟨-, hc⟩ | ⟨-, hc⟩
  · exact congrArg KiteCursor.posIn hc
  · exact congrArg KiteCursor.posIn hc

theorem kiteDeflateTurn_posIn (h : (kiteDeflateTurn s).2 = false) :
    (kiteDeflateTurn s).1.posIn = s.posIn := by
  unfold kiteDeflateTurn at h ⊢
  simp only at h ⊢
  split_ifs at h ⊢
  rfl

theorem kiteSlowTests_more (h : (kiteSlowTests s mf).2 = none) :
    (kiteSlowTests s mf).1.1.posIn = s.posIn ∧
      (kiteSlowTests s mf).1.1.prevLongest = s.prevLongest := by
  unfold kiteSlowTests at h ⊢
  simp only at h ⊢
  split_ifs at h ⊢
  exact ⟨rfl, rfl⟩

theorem kiteSlowTests_finder (s : KiteDeflate) (mf : KiteMatchfinder) :
    (kiteSlowTests s mf).1.2 = mf := by
  unfold kiteSlowTests
  simp only
  split_ifs <;> rfl

namespace KiteFinderReach

variable {limit inlen : ℕ} {lazySearch : Bool}

theorem skips {n : ℕ} {next : KiteCaller}
    (h : KiteFinderReach limit lazySearch inp inlen (.skips n next) mf) :
    KiteFinderReach limit lazySearch inp inlen next (kiteMfSkips inp inlen n mf) := by
  induction n generalizing mf with
  | zero => exact h.step trivial
  | succ n ih => exact ih (h.step trivial)

theorem greedy_le {posIn : ℕ}
    (h : KiteFinderReach maxBuffer lazySearch inp inlen (.greedy posIn) mf) :
    u32 posIn = posIn := by
  have hle : posIn ≤ max inlen 1 := h.inv.2.2
  have hlen := h.inv.1.inlen_le
  have hmax : maxBuffer = 2147450879 := rfl
  exact Nat.mod_eq_of_lt (by omega)

theorem lazy_le {posIn prevLongest : ℕ}
    (h : KiteFinderReach maxBuffer lazySearch inp inlen (.lazy posIn prevLongest) mf) :
    u32 posIn = posIn := by
  have hle : posIn ≤ max inlen 1 := h.inv.2.2.1
  have hlen := h.inv.1.inlen_le
  have hmax : maxBuffer = 2147450879 := rfl
  exact Nat.mod_eq_of_lt (by omega)

/-- A turn of `kite_deflate_fast` leaves the match finder of a run, in front of the next turn when
the block goes on. -/
theorem fastTurn (h : KiteFinderReach maxBuffer false inp s.inlen (.greedy s.posIn) mf)
    (hgoes : s.posIn < max s.inlen 1) :
    (∃ c, KiteFinderReach maxBuffer false inp s.inlen c (kiteFastTurn inp (s, mf)).1.2) ∧
      ((kiteFastTurn inp (s, mf)).2 = false →
        KiteFinderReach maxBuffer false inp s.inlen (.greedy (kiteFastTurn inp (s, mf)).1.1.posIn)
          (kiteFastTurn inp (s, mf)).1.2) := by
  have hstep := h.step hgoes
  unfold KiteCaller.step at hstep
  unfold kiteFastTurn
  simp only at hstep ⊢
  generalize kiteMfGetmatchesHc3 inp s.inlen mf mf.depth (kMatchMinLen - 1) = r at hstep ⊢
  obtain ⟨mf₁, found⟩ := r
  simp only at hstep ⊢
  by_cases hm : found.getD 0 ≠ 0 ∧ ¬ ((mf₁.matchesRow (found.getD 0)).len = kMatchMinLen ∧
      zlibDistanceTooFar < (mf₁.matchesRow (found.getD 0)).dist)
  · rw [if_pos hm] at hstep ⊢
    cases hfull : (kiteDeflateTally s (mf₁.matchesRow (found.getD 0)).symbol).2 with
    | true =>
        rw [if_pos rfl]
        exact ⟨⟨_, hstep⟩, fun hmore => Bool.noConfusion hmore⟩
    | false =>
        have hnext := hstep.skips
        rw [if_neg (by decide), kiteDeflateTally_inlen, kiteDeflateTally_posIn]
        refine ⟨⟨_, hnext⟩, fun hmore => ?_⟩
        rw [kiteDeflateTurn_posIn hmore]
        simp only [hnext.greedy_le]
        exact hnext
  · rw [if_neg hm] at hstep ⊢
    cases hfull : (kiteDeflateTally s ((mf₁.setMatch 0 { mf₁.matchesRow 0 with
        dist := (inp s.posIn).toNat }).matchesRow 0).symbol).2 with
    | true =>
        rw [if_pos rfl]
        exact ⟨⟨_, hstep⟩, fun hmore => Bool.noConfusion hmore⟩
    | false =>
        rw [if_neg (by decide), kiteDeflateTally_posIn]
        refine ⟨⟨_, hstep⟩, fun hmore => ?_⟩
        rw [kiteDeflateTurn_posIn hmore]
        simp only [hstep.greedy_le]
        exact hstep

/-- A turn of `kite_deflate_slow` leaves the match finder of a run, in front of the next turn when
the block goes on. -/
theorem slowTurn (h : KiteFinderReach maxBuffer true inp s.inlen (.lazy s.posIn s.prevLongest) mf)
    (hgoes : s.posIn < max s.inlen 1) :
    (∃ c, KiteFinderReach maxBuffer true inp s.inlen c (kiteSlowTurn inp (s, mf)).1.2) ∧
      ((kiteSlowTurn inp (s, mf)).2 = none →
        KiteFinderReach maxBuffer true inp s.inlen
          (.lazy (kiteSlowTurn inp (s, mf)).1.1.posIn (kiteSlowTurn inp (s, mf)).1.1.prevLongest)
          (kiteSlowTurn inp (s, mf)).1.2) := by
  have hstep := h.step hgoes
  unfold KiteCaller.step lazyRow at hstep
  unfold kiteSlowTurn
  simp only at hstep ⊢
  generalize kiteSlowSearch inp s.inlen _ _ = r at hstep ⊢
  obtain ⟨mf₁, found, len⟩ := r
  simp only at hstep ⊢
  by_cases hlt : len < (mf.matchesRow s.prevLongest).len
  · rw [if_pos hlt] at hstep ⊢
    cases hfull : (kiteDeflateTally s (mf.matchesRow s.prevLongest).symbol).2 with
    | true =>
        rw [if_pos rfl]
        exact ⟨⟨_, hstep⟩, fun hmore => absurd hmore (Option.some_ne_none false)⟩
    | false =>
        have hnext := hstep.skips
        rw [if_neg (by decide), kiteDeflateTally_inlen, kiteDeflateTally_posIn,
          kiteSlowTests_finder]
        refine ⟨⟨_, hnext⟩, fun hmore => ?_⟩
        obtain ⟨hpos, hlongest⟩ := kiteSlowTests_more hmore
        rw [hpos, hlongest]
        simp only [hnext.lazy_le]
        exact hnext
  · rw [if_neg hlt] at hstep ⊢
    have hposIn : (if s.prevValid = true then kiteDeflateTally s (mf.matchesRow 0).symbol
        else ({ s with prevValid := true }, false)).1.posIn = s.posIn := by
      split_ifs
      · exact kiteDeflateTally_posIn _ _
      · rfl
    generalize (if s.prevValid = true then kiteDeflateTally s (mf.matchesRow 0).symbol
      else ({ s with prevValid := true }, false)) = r at hposIn ⊢
    obtain ⟨s₁, full⟩ := r
    simp only at hposIn ⊢
    cases full with
    | true =>
        rw [if_pos rfl]
        exact ⟨⟨_, hstep⟩, fun hmore => absurd hmore (Option.some_ne_none false)⟩
    | false =>
        rw [if_neg (by decide), hposIn, kiteSlowTests_finder]
        refine ⟨⟨_, hstep⟩, fun hmore => ?_⟩
        obtain ⟨hpos, hlongest⟩ := kiteSlowTests_more hmore
        rw [hpos, hlongest]
        simp only [hstep.lazy_le]
        exact hstep

end KiteFinderReach

end ErofsUtils
