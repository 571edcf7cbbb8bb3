import ErofsUtils.KiteRun

/-!
# The lazy parse

Between two turns of `kite_deflate_slow` one symbol is pending: the literal in front of `pos_in`,
and perhaps a match that starts there. The symbols on record produce the input up to the pending
one. At the end of the input the pending symbol is a literal.
-/

namespace ErofsUtils

open Lz77 KiteMatchfinder

variable {inp : ℕ → UInt8} {s s' : KiteDeflate} {mf mf' : KiteMatchfinder}

structure Pending (inp : ℕ → UInt8) (s : KiteDeflate) (mf : KiteMatchfinder) : Prop where
  finder : InStep inp s.inlen s.posIn mf
  literal : s.prevValid = true →
    1 ≤ s.posIn ∧ (mf.matchesRow 0).dist = (inp (s.posIn - 1)).toNat
  longest : s.prevLongest = 0 ∨
    (s.prevValid = true ∧ MatchOk inp s.inlen (s.posIn - 1) (mf.matchesRow s.prevLongest))

structure SlowInv (inp : ℕ → UInt8) (s : KiteDeflate) (mf : KiteMatchfinder) : Prop where
  pending : Pending inp s mf
  covers : SymbolsCover inp s.startpos s.symbols (s.posIn - s.prevValid.toNat)
  startpos_le : s.startpos ≤ s.posIn - s.prevValid.toNat
  inlen_le : s.inlen ≤ maxInput
  posIn_le : s.posIn ≤ max s.inlen 1
  mode : s.encodeMode ≠ .stored

theorem SlowInv.endpos (h : SlowInv inp s mf) : s.endpos = s.posIn - s.prevValid.toNat := by
  have h₁ := h.inlen_le
  have h₂ := maxInput_lt
  have h₃ := h.posIn_le
  unfold KiteDeflate.endpos
  refine sub32_of_le ?_ (by omega)
  cases hv : s.prevValid with
  | false => exact Nat.zero_le _
  | true => exact (h.pending.literal hv).1

structure SlowKept (s s' : KiteDeflate) : Prop where
  inlen : s'.inlen = s.inlen
  outlen : s'.outlen = s.outlen
  sink : s'.sink = s.sink
  startpos : s'.startpos = s.startpos

theorem SlowInv.full (h : SlowInv inp s mf) (hc : s'.cursor = { s.cursor with lastblock := true })
    (hready : mf'.Ready) : BlockDone inp (Pending inp) 0 s s' mf' := by
  have hend : s'.endpos = s.endpos := by
    unfold KiteDeflate.endpos
    rw [show s'.posIn = s.posIn from congrArg KiteCursor.posIn hc,
      show s'.prevValid = s.prevValid from congrArg KiteCursor.prevValid hc]
  have hsym : s'.symbols = s.symbols := congrArg KiteCursor.symbols hc
  have hstart : s'.startpos = s.startpos := congrArg KiteCursor.startpos hc
  have hlast : s'.lastblock = true := congrArg KiteCursor.lastblock hc
  refine ⟨congrArg KiteCursor.inlen hc, congrArg KiteCursor.outlen hc, congrArg KiteCursor.sink hc,
    hstart, ?_, ?_, ?_, Nat.zero_le _, fun _ => rfl, ?_, hready⟩
  · rw [hstart, hsym, hend, h.endpos]
    exact h.covers
  · rw [hstart, hend, h.endpos]
    exact h.startpos_le
  · rw [hend, h.endpos]
    exact (Nat.sub_le _ _).trans h.posIn_le
  · intro hcontra
    rw [hlast] at hcontra
    exact absurd hcontra (by decide)

section Search

structure Searched (inp : ℕ → UInt8) (inlen posIn len0 : ℕ) (mf mf' : KiteMatchfinder)
    (found len : ℕ) : Prop where
  ok : mf'.Ok inp inlen
  follows : Follows mf mf'
  two_le : 2 ≤ len
  matchOk : found = 0 ∨ MatchOk inp inlen posIn (mf'.matchesRow found)
  behind : mf'.offset ≤ posIn + 1
  sync : mf'.offset = posIn + 1 ∨ inlen < mf'.offset + 3 ∨
    (len < len0 ∧ inlen < mf'.offset + (len0 + 1))

theorem kiteSlowSearch_spec {inlen posIn len0 : ℕ} (h : InStep inp inlen posIn mf)
    (hlen0 : 2 ≤ len0) : ∃ mf' found len, kiteSlowSearch inp inlen len0 mf = (mf', found, len) ∧
      Searched inp inlen posIn len0 mf mf' found len := by
  have hbehind := h.behind
  unfold kiteSlowSearch
  by_cases hlazy : len0 < mf.maxLazy
  · rw [if_pos hlazy]
    simp only
    have hnice := h.lazy_le_nice
    rcases @InStep.getmatches inp inlen mf posIn h
      (if mf.goodLen ≤ len0 then mf.depth / 2 else mf.depth) len0 hlen0 (by omega) with
      ⟨hend, hget⟩ | ⟨hoff, hin, mf', k, hget, hok, hfol, hoff', hmatches⟩
    · rw [hget]
      refine ⟨mf, 0, kMatchMinLen - 1, if_pos (Or.inl rfl), h.ok, Follows.refl mf, le_refl 2,
        Or.inl rfl, by omega, ?_⟩
      have hmin : kMatchMinLen - 1 = 2 := rfl
      omega
    · rw [hget]
      simp only [Option.getD_some]
      split_ifs with hm
      · exact ⟨mf', 0, _, rfl, hok, hfol, le_refl 2, Or.inl rfl, by omega, Or.inl hoff'⟩
      · have hmatch := hmatches k (by omega) (le_refl k)
        exact ⟨mf', k, _, rfl, hok, hfol, (by decide : 2 ≤ 3).trans hmatch.three_le,
          Or.inr hmatch, by omega, Or.inl hoff'⟩
  · rw [if_neg hlazy]
    obtain ⟨hok, hfol, hoff⟩ := h.ok.skip h.three_le_nice
    refine ⟨_, 0, kMatchMinLen - 1, rfl, hok, hfol, le_refl 2, Or.inl rfl, by omega, ?_⟩
    rcases h.sync with hs | hs
    · exact Or.inl (by omega)
    · exact Or.inr (Or.inl (by omega))

end Search

section Turn

/-- The other row of matches, with the literal at `pos_in`. -/
def slowRow (inp : ℕ → UInt8) (s : KiteDeflate) (mf : KiteMatchfinder) : KiteMatchfinder :=
  { mf with row := !mf.row }.setMatch 0
    { { mf with row := !mf.row }.matchesRow 0 with dist := (inp s.posIn).toNat }

theorem slowRow_inStep (h : InStep inp s.inlen s.posIn mf) :
    InStep inp s.inlen s.posIn (slowRow inp s mf) := by
  have hok : KiteMatchfinder.Ok inp s.inlen { mf with row := !mf.row } :=
    ⟨h.ok.wsiz_pos, h.ok.wsiz_le, h.ok.nice_le, h.ok.fits, h.ok.cyclic, h.ok.hash, h.ok.chain,
      h.ok.literal⟩
  exact ⟨hok.setLiteral _, h.three_le_nice, h.lazy_le_nice, h.base_lt, h.sync, h.behind⟩

theorem SlowInv.two_le_len0 (h : SlowInv inp s mf) : 2 ≤ (mf.matchesRow s.prevLongest).len := by
  rcases h.pending.longest with hz | ⟨-, hm⟩
  · rw [hz]
    exact le_of_eq (h.pending.finder.ok.literal mf.row).symm
  · exact (by decide : 2 ≤ 3).trans hm.three_le

/-- A turn ended in `s'` and took input. -/
structure SlowTaken (inp : ℕ → UInt8) (s s' : KiteDeflate) (mf' : KiteMatchfinder) : Prop where
  kept : SlowKept s s'
  inv : SlowInv inp s' mf'
  lt : s.posIn < s'.posIn

theorem SlowInv.takeMatch (h : SlowInv inp s mf) {mf₁ : KiteMatchfinder} {found len : ℕ}
    (hs : Searched inp s.inlen s.posIn (mf.matchesRow s.prevLongest).len (slowRow inp s mf) mf₁
      found len) (hlt : len < (mf.matchesRow s.prevLongest).len)
    (hc : s'.cursor = { s.cursor with
      symbols := s.symbols ++ [(mf.matchesRow s.prevLongest).symbol] })
    (hmode : s'.encodeMode ≠ .stored) :
    SlowTaken inp s { s' with
        posIn := u32 (s'.posIn + ((mf.matchesRow s.prevLongest).len - 1))
        prevValid := false
        prevLongest := 0 }
      (kiteMfSkips inp s'.inlen ((mf.matchesRow s.prevLongest).len - 2) mf₁) := by
  have htwo := hs.two_le
  have hlen := h.inlen_le
  have hmax := maxInput_lt
  obtain ⟨hvalid, hm⟩ : s.prevValid = true ∧
      MatchOk inp s.inlen (s.posIn - 1) (mf.matchesRow s.prevLongest) := by
    rcases h.pending.longest with hz | hm
    · have := h.pending.finder.ok.literal mf.row
      rw [hz] at hlt
      have hmin : kMatchMinLen - 1 = 2 := rfl
      unfold matchesRow at hlt
      omega
    · exact hm
  obtain ⟨hone, -⟩ := h.pending.literal hvalid
  have hinlen : s'.inlen = s.inlen := congrArg KiteCursor.inlen hc
  have hposIn : s'.posIn = s.posIn := congrArg KiteCursor.posIn hc
  have hsym : s'.symbols = s.symbols ++ [(mf.matchesRow s.prevLongest).symbol] :=
    congrArg KiteCursor.symbols hc
  have hstart : s'.startpos = s.startpos := congrArg KiteCursor.startpos hc
  have hinside := hm.inside
  have h3 := hm.three_le
  have hcov := h.covers
  have hle := h.startpos_le
  rw [hvalid] at hcov hle
  simp only [Bool.toNat_true] at hle
  have hcov' := hcov.copy hm
  have hpos : u32 (s'.posIn + ((mf.matchesRow s.prevLongest).len - 1)) =
      s.posIn - 1 + (mf.matchesRow s.prevLongest).len := by
    unfold u32
    rw [hposIn, Nat.mod_eq_of_lt (by omega)]
    omega
  obtain ⟨hok, hfol, hoff⟩ := hs.ok.skips (hs.follows.niceLen ▸ h.pending.finder.three_le_nice)
    ((mf.matchesRow s.prevLongest).len - 2)
  refine ⟨⟨hinlen, congrArg KiteCursor.outlen hc, congrArg KiteCursor.sink hc, hstart⟩, ?_, ?_⟩
  · refine ⟨⟨?_, fun hcontra => absurd hcontra (by simp), Or.inl rfl⟩, ?_, ?_, ?_, ?_, hmode⟩
    · simp only [hpos, hinlen]
      refine (slowRow_inStep h.pending.finder).follow hok (hs.follows.trans hfol) ?_ ?_
      · rcases hs.sync with h₁ | h₁ | ⟨-, h₁⟩
        · exact Or.inl (by omega)
        · exact Or.inr (by omega)
        · exact Or.inr (by omega)
      · have := hs.behind
        omega
    · simp only [hpos, hstart, hsym, Bool.toNat_false, Nat.sub_zero]
      exact hcov'
    · simp only [hpos, hstart, Bool.toNat_false, Nat.sub_zero]
      omega
    · simp only [hinlen]
      exact hlen
    · simp only [hpos, hinlen]
      omega
  · simp only [hpos]
    omega

theorem SlowInv.takeLiteral (h : SlowInv inp s mf) {mf₁ : KiteMatchfinder} {found len : ℕ}
    (hs : Searched inp s.inlen s.posIn (mf.matchesRow s.prevLongest).len (slowRow inp s mf) mf₁
      found len) (hlt : ¬ len < (mf.matchesRow s.prevLongest).len)
    (hpos : s.posIn < max s.inlen 1) (hkept : SlowKept s s') (hposIn : s'.posIn = s.posIn)
    (hvalid : s'.prevValid = true) (hmode : s'.encodeMode ≠ .stored)
    (hcov : SymbolsCover inp s.startpos s'.symbols s.posIn) :
    SlowTaken inp s { s' with posIn := u32 (s'.posIn + 1), prevLongest := found } mf₁ := by
  have hlen := h.inlen_le
  have hmax := maxInput_lt
  have hle := h.startpos_le
  have hnext : u32 (s'.posIn + 1) = s.posIn + 1 := by
    unfold u32
    rw [hposIn, Nat.mod_eq_of_lt (by omega)]
  have hlit : mf₁.matchesRow 0 = (slowRow inp s mf).matchesRow 0 := by
    unfold matchesRow
    rw [hs.follows.row]
    exact hs.follows.literal
  refine ⟨⟨hkept.inlen, hkept.outlen, hkept.sink, hkept.startpos⟩, ?_, ?_⟩
  · refine ⟨⟨?_, ?_, ?_⟩, ?_, ?_, ?_, ?_, hmode⟩
    · simp only [hnext, hkept.inlen]
      refine (slowRow_inStep h.pending.finder).follow hs.ok hs.follows ?_ hs.behind
      rcases hs.sync with h₁ | h₁ | ⟨h₁, -⟩
      · exact Or.inl h₁
      · exact Or.inr h₁
      · exact absurd h₁ hlt
    · intro _
      simp only [hnext, hlit]
      refine ⟨by omega, ?_⟩
      rw [slowRow, matchesRow_setMatch, Nat.add_sub_cancel]
    · simp only [hnext, hkept.inlen, Nat.add_sub_cancel]
      rcases hs.matchOk with hz | hm
      · exact Or.inl hz
      · exact Or.inr ⟨hvalid, hm⟩
    · simp only [hnext, hkept.startpos, hvalid, Bool.toNat_true, Nat.add_sub_cancel]
      exact hcov
    · simp only [hnext, hkept.startpos, hvalid, Bool.toNat_true, Nat.add_sub_cancel]
      omega
    · simp only [hkept.inlen]
      exact hlen
    · simp only [hnext, hkept.inlen]
      omega
  · simp only [hnext]
    omega

end Turn

end ErofsUtils
