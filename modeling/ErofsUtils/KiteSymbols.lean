import ErofsUtils.KiteSound

/-!
# Symbols inside their buffer

Each call of `kite_deflate_tally` writes to the place behind the `s->symbols` recorded symbols. The
greedy parse ends a block as soon as the buffer is full. The lazy parse looks for the end of the
input first, and then records the pending literal in a buffer that may be full.
-/

namespace ErofsUtils

open Lz77 KiteMatchfinder

section Turns

variable (inp : ℕ → UInt8) (lazySearch : Bool)

/-- One turn of either parse, and whether its loop ends. -/
def kiteTurn (st : KiteDeflate × KiteMatchfinder) : (KiteDeflate × KiteMatchfinder) × Bool :=
  if lazySearch then ((kiteSlowTurn inp st).1, (kiteSlowTurn inp st).2.isSome)
  else kiteFastTurn inp st

def kiteTurns : ℕ → KiteDeflate × KiteMatchfinder → List (KiteDeflate × KiteMatchfinder)
  | 0, _ => []
  | fuel + 1, st =>
      st :: if (kiteTurn inp lazySearch st).2 then []
        else kiteTurns fuel (kiteTurn inp lazySearch st).1

/-- The states in which the turns of `fuel` blocks start. -/
def kiteBlockTurns (turns : ℕ) :
    ℕ → KiteDeflate × KiteMatchfinder → List (KiteDeflate × KiteMatchfinder)
  | 0, _ => []
  | fuel + 1, st =>
      kiteTurns inp lazySearch turns (kiteDeflateStartblock st.1, st.2) ++
        match kiteDeflateBlock inp lazySearch turns st with
        | none => []
        | some (block, mf) =>
            let (s, last) := kiteDeflateCommitblock inp block
            if last then [] else kiteBlockTurns turns fuel (s, mf)

/-- The states in which the turns of a call of `kite_deflate_destsize` start. -/
def kiteDestsizeTurns (s : KiteDeflate) (mf : KiteMatchfinder) (srcsize targetDstsize : ℕ) :
    List (KiteDeflate × KiteMatchfinder) :=
  kiteBlockTurns inp lazySearch (srcsize + 1) (srcsize + 1)
    (s.reset srcsize targetDstsize, kiteMfReset mf)

/-- `s->symbols` at the call of `kite_deflate_tally` behind the loop of `kite_deflate_slow`. -/
def kiteFlushTallies : (KiteDeflate × KiteMatchfinder) × Option Bool → List ℕ
  | ((s, _), some true) => if s.prevValid then [s.symbols.length] else []
  | _ => []

/-- `s->symbols` at each call of `kite_deflate_tally` in a turn of `kite_deflate_slow` and in the
flush when it is the last turn. -/
def kiteSlowTallies : KiteDeflate × KiteMatchfinder → List ℕ
  | (s, mf) =>
      let len0 := (mf.matchesRow s.prevLongest).len
      let (_, _, len) := kiteSlowSearch inp s.inlen len0 (slowRow inp s mf)
      (if len < len0 ∨ s.prevValid = true then [s.symbols.length] else []) ++
        kiteFlushTallies (kiteSlowTurn inp (s, mf))

/-- `s->symbols` at each call of `kite_deflate_tally` in a turn of either parse. -/
def kiteTallies (st : KiteDeflate × KiteMatchfinder) : List ℕ :=
  if lazySearch then kiteSlowTallies inp st else [st.1.symbols.length]

/-- Every call of `kite_deflate_tally` has room for its symbol. -/
def TalliesInside (s : KiteDeflate) (mf : KiteMatchfinder) (srcsize targetDstsize : ℕ) : Prop :=
  ∀ st ∈ kiteDestsizeTurns inp lazySearch s mf srcsize targetDstsize,
    ∀ n ∈ kiteTallies inp lazySearch st, n < kiteMaxSymbols

/-- The turn at the last byte of the input, with one place left in the buffer and a pending
literal that fits. -/
def BrimTurn : KiteDeflate × KiteMatchfinder → Prop
  | (s, mf) => s.posIn + 1 = s.inlen ∧ s.symbols.length + 1 = kiteMaxSymbols ∧
      s.prevValid = true ∧ (kiteDeflateTally s (mf.matchesRow 0).symbol).2 = false

variable {inp lazySearch}

theorem mem_kiteDestsizeTurns {s : KiteDeflate} {mf : KiteMatchfinder} {srcsize targetDstsize : ℕ}
    {st : KiteDeflate × KiteMatchfinder} (h : st ∈ kiteTurns inp lazySearch (srcsize + 1)
      (kiteDeflateStartblock (s.reset srcsize targetDstsize), kiteMfReset mf)) :
    st ∈ kiteDestsizeTurns inp lazySearch s mf srcsize targetDstsize := by
  unfold kiteDestsizeTurns
  rw [kiteBlockTurns]
  dsimp only
  exact List.mem_append_left _ h

theorem kiteBlockTurns_forall {Start Turn : KiteDeflate × KiteMatchfinder → Prop} {turns : ℕ}
    (hstart : ∀ st, Start st → Turn (kiteDeflateStartblock st.1, st.2))
    (hturn : ∀ st, Turn st → (kiteTurn inp lazySearch st).2 = false →
      Turn (kiteTurn inp lazySearch st).1)
    (hnext : ∀ st block mf, Start st → kiteDeflateBlock inp lazySearch turns st = some (block, mf) →
      block.lastblock = false → Start ((kiteDeflateCommitblock inp block).1, mf))
    {fuel : ℕ} {st : KiteDeflate × KiteMatchfinder} (h : Start st) :
    ∀ st' ∈ kiteBlockTurns inp lazySearch turns fuel st, Turn st' := by
  have hloop : ∀ fuel st, Turn st → ∀ st' ∈ kiteTurns inp lazySearch fuel st, Turn st' := by
    intro fuel
    induction fuel with
    | zero => exact fun _ _ _ hmem => absurd hmem List.not_mem_nil
    | succ fuel ih =>
        intro st h st' hmem
        rw [kiteTurns] at hmem
        rcases List.mem_cons.mp hmem with rfl | hmem
        · exact h
        · cases hend : (kiteTurn inp lazySearch st).2 with
          | true =>
              rw [hend] at hmem
              exact absurd hmem List.not_mem_nil
          | false =>
              rw [hend] at hmem
              exact ih _ (hturn st h hend) st' hmem
  induction fuel generalizing st with
  | zero => exact fun _ hmem => absurd hmem List.not_mem_nil
  | succ fuel ih =>
      intro st' hmem
      rw [kiteBlockTurns] at hmem
      rcases List.mem_append.mp hmem with hmem | hmem
      · exact hloop turns _ (hstart st h) st' hmem
      · cases hblock : kiteDeflateBlock inp lazySearch turns st with
        | none =>
            rw [hblock] at hmem
            exact absurd hmem List.not_mem_nil
        | some r =>
            obtain ⟨block, mf⟩ := r
            rw [hblock] at hmem
            change st' ∈ (if block.lastblock = true then [] else kiteBlockTurns inp lazySearch turns
              fuel ((kiteDeflateCommitblock inp block).1, mf)) at hmem
            cases hlast : block.lastblock with
            | true =>
                rw [hlast, if_pos rfl] at hmem
                exact absurd hmem List.not_mem_nil
            | false =>
                rw [hlast, if_neg (by decide)] at hmem
                exact ih (hnext st block mf h hblock hlast) st' hmem

end Turns

section Greedy

variable {inp : ℕ → UInt8} {s : KiteDeflate} {mf : KiteMatchfinder}

theorem kiteDeflateTurn_symbols (s : KiteDeflate) (h : (kiteDeflateTurn s).2 = false) :
    (kiteDeflateTurn s).1.symbols.length < kiteMaxSymbols := by
  unfold kiteDeflateTurn at h ⊢
  simp only at h ⊢
  split_ifs at h ⊢ with hend
  rw [not_or] at hend
  exact Nat.not_le.mp hend.2

/-- A turn of the greedy parse after which the block goes on leaves room for a symbol. -/
theorem kiteFastTurn_symbols (st : KiteDeflate × KiteMatchfinder)
    (h : (kiteFastTurn inp st).2 = false) :
    (kiteFastTurn inp st).1.1.symbols.length < kiteMaxSymbols := by
  obtain ⟨s, mf⟩ := st
  unfold kiteFastTurn at h ⊢
  simp only at h ⊢
  split_ifs at h ⊢
  · exact kiteDeflateTurn_symbols _ h
  · exact kiteDeflateTurn_symbols _ h

theorem talliesInside_fast (s : KiteDeflate) (mf : KiteMatchfinder) (srcsize targetDstsize : ℕ) :
    TalliesInside inp false s mf srcsize targetDstsize := by
  intro st hst n hn
  have hroom : st.1.symbols.length < kiteMaxSymbols :=
    @kiteBlockTurns_forall inp false (fun _ => True) (fun st => st.1.symbols.length < kiteMaxSymbols)
      (srcsize + 1) (fun _ _ => (by decide : 0 < kiteMaxSymbols))
      (fun st _ hgo => kiteFastTurn_symbols st hgo) (fun _ _ _ _ _ _ => trivial) _ _ trivial st hst
  have hmem : n ∈ [st.1.symbols.length] := hn
  rw [List.mem_singleton.mp hmem]
  exact hroom

end Greedy

section Lazy

variable {inp : ℕ → UInt8} {s : KiteDeflate} {mf : KiteMatchfinder}

theorem kiteFlushTallies_tests (s : KiteDeflate) (mf : KiteMatchfinder) :
    kiteFlushTallies (kiteSlowTests s mf) =
      if s.inlen ≤ s.posIn ∧ s.prevValid = true then [s.symbols.length] else [] := by
  unfold kiteSlowTests
  simp only
  by_cases hend : s.inlen ≤ s.posIn
  · rw [if_pos hend]
    simp only [hend, true_and]
    rfl
  · rw [if_neg hend, if_neg (fun h : s.inlen ≤ s.posIn ∧ _ => hend h.1)]
    by_cases hfull : kiteMaxSymbols ≤ s.symbols.length
    · rw [if_pos hfull]
      rfl
    · rw [if_neg hfull]
      rfl

/-- No match is pending at the last byte of the input. -/
theorem SlowInv.prevLongest_last (h : SlowInv inp s mf) (hlast : s.posIn + 1 = s.inlen) :
    s.prevLongest = 0 := by
  rcases h.pending.longest with hz | ⟨hvalid, hm⟩
  · exact hz
  · have hone := (h.pending.literal hvalid).1
    have h₁ := hm.inside
    have h₂ := hm.three_le
    omega

/-- The flush behind a turn has room, unless the turn fills the buffer at the last byte. -/
theorem SlowInv.flushTallies_iff (h : SlowInv inp s mf) (hpos : s.posIn < max s.inlen 1)
    (hroom : s.symbols.length < kiteMaxSymbols) :
    (∀ n ∈ kiteFlushTallies (kiteSlowTurn inp (s, mf)), n < kiteMaxSymbols) ↔
      ¬ BrimTurn (s, mf) := by
  have hturn := h.turn hpos
  generalize kiteSlowTurn inp (s, mf) = r at hturn
  cases hturn with
  | full hdone hfull =>
      refine iff_of_true (fun n hn => absurd hn List.not_mem_nil) ?_
      rintro ⟨hlast, -, -, hfits⟩
      rw [(hfull (h.prevLongest_last hlast)).2] at hfits
      exact absurd hfits (by decide)
  | copy hlongest hvalid hsym ht =>
      rw [kiteFlushTallies_tests, hvalid, if_neg (by simp)]
      refine iff_of_true (fun n hn => absurd hn List.not_mem_nil) ?_
      exact fun hbrim => hlongest (h.prevLongest_last hbrim.1)
  | first hvalid ht =>
      rw [kiteFlushTallies_tests]
      refine iff_of_true (fun n hn => ?_) ?_
      · split_ifs at hn
        · rw [List.mem_singleton.mp hn]
          exact hroom
        · exact absurd hn List.not_mem_nil
      · rintro ⟨-, -, hvalid', -⟩
        rw [hvalid] at hvalid'
        exact absurd hvalid' (by decide)
  | literal hvalid hfits ht =>
      have hone := (h.pending.literal hvalid).1
      have hinlen : (kiteDeflateTally s (mf.matchesRow 0).symbol).1.inlen = s.inlen := ht.kept.inlen
      obtain ⟨hsym, hvalid'⟩ : (kiteDeflateTally s (mf.matchesRow 0).symbol).1.symbols.length =
          s.symbols.length + 1 ∧
          (kiteDeflateTally s (mf.matchesRow 0).symbol).1.prevValid = true := by
        rcases cursor_kiteDeflateTally s (mf.matchesRow 0).symbol with ⟨-, hc⟩ | ⟨hfull, -⟩
        · have hlen := congrArg (List.length ∘ KiteCursor.symbols) hc
          exact ⟨hlen.trans List.length_append, (congrArg KiteCursor.prevValid hc).trans hvalid⟩
        · rw [hfull] at hfits
          exact absurd hfits (by decide)
      rw [kiteFlushTallies_tests]
      simp only [hinlen, hsym, hvalid', and_true]
      constructor
      · rintro hall ⟨hlast, hbrim, -, -⟩
        have hmem := hall (s.symbols.length + 1) (by rw [if_pos (by omega)]; exact List.mem_singleton_self _)
        omega
      · intro hbrim n hn
        split_ifs at hn with hend
        · rw [List.mem_singleton.mp hn]
          have hlast : s.posIn + 1 = s.inlen := by omega
          have hne : s.symbols.length + 1 ≠ kiteMaxSymbols :=
            fun heq => hbrim ⟨hlast, heq, hvalid, hfits⟩
          omega
        · exact absurd hn List.not_mem_nil

theorem SlowInv.tallies_iff (h : SlowInv inp s mf) (hpos : s.posIn < max s.inlen 1)
    (hroom : s.symbols.length < kiteMaxSymbols) :
    (∀ n ∈ kiteSlowTallies inp (s, mf), n < kiteMaxSymbols) ↔ ¬ BrimTurn (s, mf) := by
  rw [← h.flushTallies_iff hpos hroom]
  unfold kiteSlowTallies
  simp only [List.mem_append]
  constructor
  · exact fun hall n hn => hall n (Or.inr hn)
  · rintro hall n (hn | hn)
    · split_ifs at hn
      · rw [List.mem_singleton.mp hn]
        exact hroom
      · exact absurd hn List.not_mem_nil
    · exact hall n hn

/-- A turn of the lazy parse starts in front of the end of the input and has room. -/
structure SlowRoom (inp : ℕ → UInt8) (st : KiteDeflate × KiteMatchfinder) : Prop where
  inv : SlowInv inp st.1 st.2
  posIn_lt : st.1.posIn < max st.1.inlen 1
  room : st.1.symbols.length < kiteMaxSymbols

theorem SlowTaken.room {s' : KiteDeflate} {mf' : KiteMatchfinder} (ht : SlowTaken inp s s' mf')
    (hgo : (kiteSlowTests s' mf').2.isSome = false) : SlowRoom inp (kiteSlowTests s' mf').1 := by
  unfold kiteSlowTests at hgo ⊢
  simp only at hgo ⊢
  split_ifs at hgo ⊢ with hend hfull
  · cases hgo
  · cases hgo
  · refine ⟨(ht.lastblock _).inv, ?_, Nat.not_le.mp hfull⟩
    exact lt_of_lt_of_le (Nat.not_le.mp hend) (le_max_left _ _)

theorem SlowRoom.turn {st : KiteDeflate × KiteMatchfinder} (h : SlowRoom inp st)
    (hgo : (kiteTurn inp true st).2 = false) : SlowRoom inp (kiteTurn inp true st).1 := by
  have hturn := h.inv.turn h.posIn_lt
  change (kiteSlowTurn inp (st.1, st.2)).2.isSome = false at hgo
  change SlowRoom inp (kiteSlowTurn inp (st.1, st.2)).1
  generalize kiteSlowTurn inp (st.1, st.2) = r at hturn hgo
  cases hturn with
  | full _ _ => cases hgo
  | copy _ _ _ ht => exact ht.room hgo
  | first _ ht => exact ht.room hgo
  | literal _ _ ht => exact ht.room hgo

theorem SlowStart.room {turns : ℕ} (h : SlowStart inp turns s mf) :
    SlowRoom inp (kiteDeflateStartblock s, mf) := by
  refine ⟨h.inv, h.posIn_lt, (by decide : 0 < kiteMaxSymbols)⟩

theorem talliesInside_slow (hready : mf.Ready) (s : KiteDeflate) {srcsize : ℕ}
    (hsrc : srcsize ≤ maxInput) (targetDstsize : ℕ) :
    TalliesInside inp true s mf srcsize targetDstsize ↔
      ∀ st ∈ kiteDestsizeTurns inp true s mf srcsize targetDstsize, ¬ BrimTurn st := by
  have hroom : ∀ st ∈ kiteDestsizeTurns inp true s mf srcsize targetDstsize, SlowRoom inp st := by
    have hnext : ∀ st block mf', SlowStart inp (srcsize + 1) st.1 st.2 →
        kiteDeflateBlock inp true (srcsize + 1) st = some (block, mf') → block.lastblock = false →
        SlowStart inp (srcsize + 1) (kiteDeflateCommitblock inp block).1 mf' := by
      intro st block mf' h hblock hlast
      obtain ⟨block', mf₁, lost, heq, hd, -⟩ := h.block
      obtain ⟨rfl, rfl⟩ := Prod.mk.inj (Option.some.inj (heq.symm.trans hblock))
      exact h.next hd hlast
    have hstart : SlowStart inp (srcsize + 1) (s.reset srcsize targetDstsize) (kiteMfReset mf) :=
      slowStart_reset hready hsrc
    unfold kiteDestsizeTurns
    refine @kiteBlockTurns_forall inp true (fun st => SlowStart inp (srcsize + 1) st.1 st.2)
      (SlowRoom inp) (srcsize + 1) (fun st h => h.room) (fun st h hgo => h.turn hgo) hnext
      (srcsize + 1) (s.reset srcsize targetDstsize, kiteMfReset mf) ?_
    dsimp only
    exact hstart
  unfold TalliesInside
  constructor
  · intro hall st hst
    have h := hroom st hst
    exact (h.inv.tallies_iff h.posIn_lt h.room).mp (hall st hst)
  · intro hall st hst
    have h := hroom st hst
    exact (h.inv.tallies_iff h.posIn_lt h.room).mpr (hall st hst)

end Lazy

/-- A symbol is always recorded inside the buffer, unless the lazy parse fills the buffer in the
turn at the last byte of the input. -/
theorem talliesInside_iff {level : ℕ} {lazySearch : Bool} {s : KiteDeflate} {mf : KiteMatchfinder}
    (hreach : KiteReach level lazySearch s mf) (inp : ℕ → UInt8) {srcsize : ℕ}
    (hsrc : srcsize ≤ maxInput) (targetDstsize : ℕ) :
    TalliesInside inp lazySearch s mf srcsize targetDstsize ↔
      (4 ≤ level →
        ∀ st ∈ kiteDestsizeTurns inp lazySearch s mf srcsize targetDstsize, ¬ BrimTurn st) := by
  have hlazy := hreach.lazySearch_eq
  cases lazySearch with
  | false =>
      have hlevel : ¬ 4 ≤ level := of_decide_eq_false hlazy.symm
      exact iff_of_true (talliesInside_fast s mf srcsize targetDstsize) (fun h => absurd h hlevel)
  | true =>
      have hlevel : 4 ≤ level := of_decide_eq_true hlazy.symm
      rw [talliesInside_slow hreach.ready s hsrc targetDstsize]
      exact ⟨fun h _ => h, fun h => h hlevel⟩

/-- No turn of the lazy parse of a match between two literals fills the buffer. -/
theorem talliesInside_iff_repeated : KiteReach 4 true .fresh .levelFour ∧
    TalliesInside repeated true .fresh .levelFour 9 4096 := by
  refine ⟨levelFour_reach, (talliesInside_iff levelFour_reach _ (by decide) 4096).mpr
    fun _ st hst hbrim => ?_⟩
  have hfew : (kiteDestsizeTurns repeated true .fresh .levelFour 9 4096).all
      (fun st => decide (st.1.symbols.length < 4)) = true := by decide +kernel
  have hlt := of_decide_eq_true (List.all_eq_true.mp hfew st hst)
  have hmax : kiteMaxSymbols = 16384 := rfl
  have hfull := hbrim.2.1
  omega

section Literals

variable {inp : ℕ → UInt8} {s : KiteDeflate} {mf : KiteMatchfinder} {n target t : ℕ}

/-- A literal that fits with the fixed codes costs at most nine bits. -/
theorem kiteDeflateTally_fixed {sym : KiteSymbol} (hmode : s.encodeMode = .fixedHuffman)
    (hlen : sym.len < kMatchMinLen) (hdist : sym.dist < 256) (hrem : s.costbits + 9 ≤ s.rem) :
    (kiteDeflateTally s sym).2 = false ∧
      (kiteDeflateTally s sym).1.encodeMode = .fixedHuffman ∧
      (kiteDeflateTally s sym).1.costbits ≤ s.costbits + 9 := by
  have hbits := kstaticHuffLitLenLevels_literal hdist
  have hcost : u32 (s.costbits + fixedBits true sym.dist 0) ≤ s.costbits + 9 := by
    unfold fixedBits
    rw [if_pos rfl]
    exact (Nat.mod_le _ _).trans (Nat.add_le_add_left hbits.2 _)
  have hcount : countSymbol s sym = ({ countFreqs s true sym.dist 0 with
      costbits := u32 (s.costbits + fixedBits true sym.dist 0) }, true) := by
    unfold countSymbol
    rw [if_pos hlen, deflateCountCode_fixed hmode, if_neg (by omega)]
  rcases kiteDeflateTally_cases s sym with ⟨-, heq⟩ | ⟨hno, -⟩ | ⟨hno, -⟩ | ⟨hno, -⟩
  · rw [heq, hcount]
    exact ⟨rfl, hmode, hcost⟩
  all_goals
    rw [hcount] at hno
    exact Bool.noConfusion hno

/-- Turn `t` of the lazy parse of an input without repetitions: `t - 1` literals are recorded with
the fixed codes and one is pending. -/
structure LiteralTurn (inp : ℕ → UInt8) (n target t : ℕ) (st : KiteDeflate × KiteMatchfinder) :
    Prop where
  inv : SlowInv inp st.1 st.2
  inlen : st.1.inlen = n
  outlen : st.1.outlen = target
  sink : st.1.sink = ⟨[], 0, 0⟩
  posIn : st.1.posIn = t
  prevValid : st.1.prevValid = decide (0 < t)
  symbols : st.1.symbols.length = t - 1
  mode : st.1.encodeMode = .fixedHuffman
  cost : st.1.costbits ≤ 10 + 9 * (t - 1)

theorem LiteralTurn.tally {st : KiteDeflate × KiteMatchfinder} (h : LiteralTurn inp n target t st)
    (hpos : 0 < t) (htarget : target < 2 ^ 28) (hcost : 10 + 9 * t ≤ 8 * target) :
    (kiteDeflateTally st.1 (st.2.matchesRow 0).symbol).2 = false ∧
      (kiteDeflateTally st.1 (st.2.matchesRow 0).symbol).1.encodeMode = .fixedHuffman ∧
      (kiteDeflateTally st.1 (st.2.matchesRow 0).symbol).1.costbits ≤ 10 + 9 * t := by
  have hvalid : st.1.prevValid = true := by
    rw [h.prevValid]
    exact decide_eq_true hpos
  have hlit : (st.2.matchesRow 0).len = kMatchMinLen - 1 :=
    h.inv.pending.finder.ok.literal st.2.row
  have hdist := (h.inv.pending.literal hvalid).2
  have hbyte := (inp (st.1.posIn - 1)).toNat_lt
  have hrem : st.1.rem = 8 * target := by
    unfold KiteDeflate.rem
    rw [h.sink, h.outlen]
    simp only [List.length_nil]
    rw [sub32_of_le (Nat.zero_le _) (by omega), sub64_of_le (Nat.zero_le _) (by omega)]
    omega
  have hc := h.cost
  have hfits := @kiteDeflateTally_fixed st.1 (st.2.matchesRow 0).symbol h.mode
    (by
      unfold KiteMatch.symbol u16
      simp only [hlit]
      decide)
    (by
      unfold KiteMatch.symbol u16
      simp only [hdist]
      omega)
    (by omega)
  exact ⟨hfits.1, hfits.2.1, hfits.2.2.trans (by omega)⟩

theorem kiteSlowTests_go (hend : s.posIn < s.inlen) (hroom : s.symbols.length < kiteMaxSymbols) :
    kiteSlowTests s mf =
      (({ s with lastblock := s.lastblock || decide (s.inlen ≤ s.posIn) }, mf), none) := by
  unfold kiteSlowTests
  simp only
  rw [if_neg (Nat.not_le.mpr hend), if_neg (Nat.not_le.mpr hroom)]

theorem literalTurn_zero (hready : mf.Ready) (s : KiteDeflate) (hlen : n ≤ maxInput) :
    LiteralTurn inp n target 0 (kiteDeflateStartblock (s.reset n target), kiteMfReset mf) := by
  have hstart : SlowStart inp (n + 1) (s.reset n target) (kiteMfReset mf) :=
    slowStart_reset hready hlen
  have hinv := hstart.inv
  constructor
  · dsimp only
    exact hinv
  all_goals rfl

/-- A turn records the pending literal and leaves the next one pending. -/
theorem LiteralTurn.next {st : KiteDeflate × KiteMatchfinder} (h : LiteralTurn inp n target t st)
    (hmatch : ∀ cur m, ¬ MatchOk inp n cur m) (htarget : target < 2 ^ 28)
    (hend : t + 1 < n) (hroom : t < kiteMaxSymbols) (hcost : 10 + 9 * t ≤ 8 * target) :
    (kiteTurn inp true st).2 = false ∧ LiteralTurn inp n target (t + 1) (kiteTurn inp true st).1 := by
  have hlongest : st.1.prevLongest = 0 := by
    rcases h.inv.pending.longest with hz | ⟨-, hm⟩
    · exact hz
    · rw [h.inlen] at hm
      exact absurd hm (hmatch _ _)
  have hposIn := h.posIn
  have hinlen := h.inlen
  have hturn := h.inv.turn (by omega)
  change (kiteSlowTurn inp (st.1, st.2)).2.isSome = false ∧
    LiteralTurn inp n target (t + 1) (kiteSlowTurn inp (st.1, st.2)).1
  generalize kiteSlowTurn inp (st.1, st.2) = r at hturn
  cases hturn with
  | full _ hfull =>
      obtain ⟨hvalid, hfull⟩ := hfull hlongest
      rw [h.prevValid] at hvalid
      rw [(h.tally (of_decide_eq_true hvalid) htarget hcost).1] at hfull
      exact absurd hfull (by decide)
  | copy hne _ _ _ => exact absurd hlongest hne
  | first hvalid ht =>
      have hzero : t = 0 := by
        rw [h.prevValid] at hvalid
        exact Nat.eq_zero_of_not_pos (of_decide_eq_false hvalid)
      have hsym := h.symbols
      rw [kiteSlowTests_go (by simp only; omega) (by simp only; omega)]
      refine ⟨rfl, (ht.lastblock _).inv, hinlen, h.outlen, h.sink, by simp only; omega, ?_, ?_,
        h.mode, ?_⟩
      · exact (decide_eq_true (Nat.succ_pos t)).symm
      · simp only
        omega
      · have := h.cost
        simp only
        omega
  | literal hvalid hfits ht =>
      have hpos : 0 < t := by
        rw [h.prevValid] at hvalid
        exact of_decide_eq_true hvalid
      obtain ⟨-, hmode, hcost'⟩ := h.tally hpos htarget hcost
      rcases cursor_kiteDeflateTally st.1 (st.2.matchesRow 0).symbol with ⟨-, hc⟩ | ⟨hfull, -⟩
      swap
      · rw [hfull] at hfits
        exact absurd hfits (by decide)
      have hlen := (congrArg (List.length ∘ KiteCursor.symbols) hc).trans List.length_append
      have hsym : (kiteDeflateTally st.1 (st.2.matchesRow 0).symbol).1.symbols.length = t := by
        have := h.symbols
        simp only [Function.comp, List.length_singleton] at hlen
        exact hlen.trans (by omega)
      have hin : (kiteDeflateTally st.1 (st.2.matchesRow 0).symbol).1.inlen = n :=
        (congrArg KiteCursor.inlen hc).trans hinlen
      rw [kiteSlowTests_go (by simp only [hin]; omega) (by simp only [hsym]; exact hroom)]
      refine ⟨rfl, (ht.lastblock _).inv, hin, ht.kept.outlen.trans h.outlen,
        ht.kept.sink.trans h.sink, by simp only; omega, ?_, hsym, hmode, hcost'⟩
      exact ((congrArg KiteCursor.prevValid hc).trans hvalid).trans
        (decide_eq_true (Nat.succ_pos t)).symm

theorem LiteralTurn.later {d fuel : ℕ} {st : KiteDeflate × KiteMatchfinder}
    (h : LiteralTurn inp n target t st) (hmatch : ∀ cur m, ¬ MatchOk inp n cur m)
    (htarget : target < 2 ^ 28) (hend : t + d < n) (hroom : t + d ≤ kiteMaxSymbols)
    (hcost : 10 + 9 * (t + d) ≤ 8 * target) (hfuel : d < fuel) :
    ∃ st' ∈ kiteTurns inp true fuel st, LiteralTurn inp n target (t + d) st' := by
  induction d generalizing t st fuel with
  | zero =>
      obtain ⟨fuel, rfl⟩ := Nat.exists_eq_succ_of_ne_zero (Nat.ne_of_gt hfuel)
      exact ⟨st, List.mem_cons_self, h⟩
  | succ d ih =>
      obtain ⟨fuel, rfl⟩ := Nat.exists_eq_succ_of_ne_zero (Nat.ne_of_gt (Nat.zero_lt_of_lt hfuel))
      obtain ⟨hgo, hnext⟩ := h.next hmatch htarget (by omega) (by omega) (by omega)
      obtain ⟨st', hmem, hlater⟩ := @ih (t + 1) fuel _ hnext (by omega) (by omega) (by omega)
        (by omega)
      refine ⟨st', ?_, (by rw [show t + (d + 1) = t + 1 + d by omega]; exact hlater)⟩
      rw [kiteTurns, hgo]
      exact List.mem_cons_of_mem _ hmem

/-- Pairs of bytes that count up: no three bytes occur twice. -/
def countingPairs (i : ℕ) : UInt8 :=
  if i % 2 = 0 then UInt8.ofNat (128 + i / 2 % 128) else UInt8.ofNat (i / 2 / 128)

theorem toNat_countingPairs {i : ℕ} (h : i < 32768) :
    (countingPairs i).toNat = if i % 2 = 0 then 128 + i / 2 % 128 else i / 2 / 128 := by
  unfold countingPairs
  split_ifs
  · exact Nat.mod_eq_of_lt (by omega)
  · exact Nat.mod_eq_of_lt (by omega)

/-- The bytes at even positions are from 128 on, the others are below. -/
theorem countingPairs_parity {a b : ℕ} (ha : a < 32768) (hb : b < 32768)
    (h : countingPairs a = countingPairs b) : a % 2 = b % 2 := by
  have hval := congrArg UInt8.toNat h
  rw [toNat_countingPairs ha, toNat_countingPairs hb] at hval
  split_ifs at hval <;> omega

/-- The two bytes from an even position on are the digits of its pair. -/
theorem countingPairs_even {a b : ℕ} (ha : a + 1 < 32768) (hb : b + 1 < 32768) (heven : a % 2 = 0)
    (h₀ : countingPairs a = countingPairs b) (h₁ : countingPairs (a + 1) = countingPairs (b + 1)) :
    a = b := by
  have heven' : b % 2 = 0 := (countingPairs_parity (by omega) (by omega) h₀).symm.trans heven
  have hlow := congrArg UInt8.toNat h₀
  have hhigh := congrArg UInt8.toNat h₁
  rw [toNat_countingPairs (by omega), toNat_countingPairs (by omega), if_pos heven,
    if_pos heven'] at hlow
  rw [toNat_countingPairs ha, toNat_countingPairs hb, if_neg (by omega), if_neg (by omega)] at hhigh
  have hquot : (a + 1) / 2 = a / 2 ∧ (b + 1) / 2 = b / 2 := by omega
  rw [hquot.1, hquot.2] at hhigh
  omega

theorem countingPairs_noMatch (cur : ℕ) (m : KiteMatch) :
    ¬ MatchOk countingPairs 16385 cur m := by
  intro hm
  have h3 := hm.three_le
  have hin := hm.inside
  have hpos := hm.dist_pos
  have hle := hm.dist_le
  have hsame : ∀ i < 3, countingPairs (cur + i) = countingPairs (cur - m.dist + i) := by
    intro i hi
    rw [show cur - m.dist + i = cur + i - m.dist by omega]
    exact hm.same i (by omega)
  -- the first of the three positions that is even begins a whole pair
  by_cases heven : cur % 2 = 0
  · have := countingPairs_even (by omega) (by omega) heven (hsame 0 (by decide)) (hsame 1 (by decide))
    omega
  · have := countingPairs_even (a := cur + 1) (by omega) (by omega) (by omega)
      (hsame 1 (by decide)) (hsame 2 (by decide))
    omega

end Literals

/-- An input of 16385 bytes without repetitions fills the buffer in the turn at its last byte. -/
theorem countingPairs_overrun : ∃ mf, KiteReach 4 true .fresh mf ∧
    ¬ TalliesInside countingPairs true .fresh mf 16385 32768 := by
  obtain ⟨mf, hreach⟩ := kiteReach_level_four
  refine ⟨mf, hreach, ?_⟩
  rw [talliesInside_slow hreach.ready .fresh (by decide) 32768]
  intro hnone
  have hfirst := @literalTurn_zero countingPairs mf 16385 32768 hreach.ready .fresh (by decide)
  have hmax : kiteMaxSymbols = 16384 := rfl
  obtain ⟨st, hmem, hlast⟩ := @LiteralTurn.later countingPairs 16385 32768 0 16384 (16385 + 1) _
    hfirst countingPairs_noMatch (by decide) (by decide) (by decide) (by decide) (by decide)
  refine hnone st (mem_kiteDestsizeTurns hmem) ⟨?_, ?_, ?_, ?_⟩
  · rw [hlast.posIn, hlast.inlen]
  · rw [hlast.symbols, hmax]
  · rw [hlast.prevValid]
    rfl
  · exact (hlast.tally (by decide) (by decide) (by decide)).1

end ErofsUtils
