import ErofsUtils.KiteTally

/-!
# A run of blocks

What both parsers have to establish for one block, and what follows for all blocks of a call of
`kite_deflate_destsize`: their tokens produce the input up to the value of `*srcsize`, unless the
flush at the end of the input drops its symbol.
-/

namespace ErofsUtils

open Lz77 KiteMatchfinder

/-- What a block leaves behind. Its symbols produce the input up to its end, less `lost` bytes, and
when it is not the last block, `P` holds for the next one. -/
structure BlockDone (inp : ℕ → UInt8) (P : KiteDeflate → KiteMatchfinder → Prop) (lost : ℕ)
    (s block : KiteDeflate) (mf : KiteMatchfinder) : Prop where
  inlen : block.inlen = s.inlen
  outlen : block.outlen = s.outlen
  sink : block.sink = s.sink
  startpos : block.startpos = s.startpos
  covers : SymbolsCover inp block.startpos block.symbols (block.endpos - lost)
  startpos_le : block.startpos ≤ block.endpos
  endpos_le : block.endpos ≤ max s.inlen 1
  lost_le : lost ≤ block.endpos
  stored : block.encodeMode = .stored → lost = 0
  next : block.lastblock = false → lost = 0 ∧ s.posIn < block.posIn ∧ block.posIn < s.inlen ∧
    P block mf
  ready : mf.Ready

variable {inp : ℕ → UInt8} {P : KiteDeflate → KiteMatchfinder → Prop} {lost : ℕ}
  {s block : KiteDeflate} {mf : KiteMatchfinder}

theorem endpos_of_not_prevValid {s : KiteDeflate} (h : s.prevValid = false) (hlt : s.posIn < 2 ^ 32) :
    s.endpos = s.posIn := by
  unfold KiteDeflate.endpos
  rw [h]
  exact sub32_of_le (Nat.zero_le _) hlt

theorem inputBytes_eq {a b : ℕ} : inputBytes inp a b = (List.range (b - a)).map fun i => inp (a + i) :=
  rfl

theorem expand_inputBytes {a b : ℕ} (h : a ≤ b) :
    expand (firstOf inp a) ((inputBytes inp a b).map Token.literal) = some (firstOf inp b) := by
  obtain ⟨n, rfl⟩ := Nat.exists_eq_add_of_le h
  rw [inputBytes_eq, Nat.add_sub_cancel_left]
  induction n with
  | zero => rfl
  | succ n ih =>
      rw [List.range_succ, List.map_append, List.map_append, List.map_cons, List.map_nil,
        List.map_cons, List.map_nil, expand_concat (ih (Nat.le_add_right _ _)), emit_literal]
      rfl

theorem BlockDone.expand (h : BlockDone inp P lost s block mf) :
    expand (firstOf inp s.startpos) (block.tokens inp) =
      some (firstOf inp (block.endpos - lost)) := by
  rw [← h.startpos]
  unfold KiteDeflate.tokens
  by_cases hmode : block.encodeMode = .stored
  · rw [if_pos hmode, h.stored hmode]
    exact expand_inputBytes h.startpos_le
  · rw [if_neg hmode]
    exact h.covers.expand

section Run

variable (inp) (lazySearch : Bool) (turns : ℕ)

/-- One call of `kite_deflate_fast` or `kite_deflate_slow`, up to its commit. -/
def kiteDeflateBlock (st : KiteDeflate × KiteMatchfinder) : Option (KiteDeflate × KiteMatchfinder) :=
  if lazySearch then kiteDeflateSlow inp turns st else kiteDeflateFast inp turns st

/-- When the lazy parse reaches the end of the input with a symbol pending, the symbol fits. -/
def FlushFits (st : KiteDeflate × KiteMatchfinder) : Prop :=
  lazySearch = true → ∀ s mf,
    kiteDeflateSlowLoop inp turns (kiteDeflateStartblock st.1, st.2) = some (s, mf, true) →
    s.prevValid = true → (kiteDeflateTally s (mf.matchesRow s.prevLongest).symbol).2 = false

/-- `FlushFits` for the next `fuel` blocks. -/
def FlushesFit : ℕ → KiteDeflate × KiteMatchfinder → Prop
  | 0, _ => True
  | fuel + 1, st => FlushFits inp lazySearch turns st ∧
      ∀ block mf, kiteDeflateBlock inp lazySearch turns st = some (block, mf) →
        block.lastblock = false → FlushesFit fuel ((kiteDeflateCommitblock inp block).1, mf)

structure RunDone (lost : ℕ) (s s' : KiteDeflate) (blocks : List KiteDeflate)
    (mf : KiteMatchfinder) : Prop where
  expand : expand (firstOf inp s.startpos) (blocks.flatMap (KiteDeflate.tokens inp)) =
    some (firstOf inp (s'.startpos - lost))
  ok : ∀ block ∈ blocks, ∀ sym ∈ block.symbols, sym.Ok
  startpos_le : s'.startpos ≤ max s.inlen 1
  lost_le : lost ≤ s'.startpos
  ready : mf.Ready

variable {inp lazySearch turns} {Start : KiteDeflate → KiteMatchfinder → Prop}

theorem flushesFit_false (fuel : ℕ) (st : KiteDeflate × KiteMatchfinder) :
    FlushesFit inp false turns fuel st := by
  induction fuel generalizing st with
  | zero => trivial
  | succ fuel ih => exact ⟨fun h => absurd h (by decide), fun _ _ _ _ => ih _⟩

theorem kiteDeflateBlocks_spec
    (hpos : ∀ s mf, Start s mf → s.posIn < max s.inlen 1)
    (hblock : ∀ s mf, Start s mf → ∃ block mf' lost,
      kiteDeflateBlock inp lazySearch turns (s, mf) = some (block, mf') ∧
      BlockDone inp P lost s block mf' ∧ (lost = 0 ↔ FlushFits inp lazySearch turns (s, mf)))
    (hnext : ∀ s mf block mf' lost, Start s mf → BlockDone inp P lost s block mf' →
      block.lastblock = false → Start (kiteDeflateCommitblock inp block).1 mf')
    {fuel : ℕ} (hstart : Start s mf) (hfuel : max s.inlen 1 ≤ s.posIn + fuel) :
    ∃ blocks s' mf' lost, kiteDeflateBlocks inp lazySearch turns fuel (s, mf) =
      some (blocks, s', mf') ∧ RunDone inp lost s s' blocks mf' ∧
      (lost = 0 ↔ FlushesFit inp lazySearch turns fuel (s, mf)) := by
  induction fuel generalizing s mf with
  | zero =>
      have := hpos s mf hstart
      omega
  | succ fuel ih =>
      obtain ⟨block, mf₁, lost, heq, hd, hfits⟩ := hblock s mf hstart
      have heq' := heq
      unfold kiteDeflateBlock at heq'
      rw [kiteDeflateBlocks]
      simp only [heq']
      cases hlast : block.lastblock with
      | true =>
          refine ⟨[block], (kiteDeflateCommitblock inp block).1, mf₁, lost, if_pos hlast, ?_, ?_⟩
          · refine ⟨?_, ?_, hd.endpos_le, hd.lost_le, hd.ready⟩
            · rw [List.flatMap_cons, List.flatMap_nil, List.append_nil]
              exact hd.expand
            · intro b hb
              rw [List.mem_singleton.mp hb]
              exact hd.covers.ok
          · rw [hfits]
            refine ⟨fun h => ⟨h, ?_⟩, fun h => h.1⟩
            intro b mf₂ hb hmore
            rw [heq] at hb
            obtain ⟨rfl, rfl⟩ := Prod.mk.inj (Option.some.inj hb)
            rw [hlast] at hmore
            exact absurd hmore (by decide)
      | false =>
          obtain ⟨hlost, hlt, hin, -⟩ := hd.next hlast
          have hinlen : (kiteDeflateCommitblock inp block).1.inlen = s.inlen := hd.inlen
          have hposIn : (kiteDeflateCommitblock inp block).1.posIn = block.posIn := rfl
          have hstartpos : (kiteDeflateCommitblock inp block).1.startpos = block.endpos := rfl
          have hexpand := hd.expand
          obtain ⟨blocks, s', mf', lost', hrun, hdone, hrest⟩ :=
            ih (hnext s mf block mf₁ lost hstart hd hlast) (by rw [hinlen, hposIn]; omega)
          refine ⟨block :: blocks, s', mf', lost', ?_, ?_, ?_⟩
          · rw [if_neg (by rw [show (kiteDeflateCommitblock inp block).2 = false from hlast]; decide),
              hrun]
          · refine ⟨?_, ?_, hinlen ▸ hdone.startpos_le, hdone.lost_le, hdone.ready⟩
            · rw [List.flatMap_cons, expand_append hexpand, hlost, Nat.sub_zero, ← hstartpos]
              exact hdone.expand
            · intro b hb
              rcases List.mem_cons.mp hb with rfl | hb
              · exact hd.covers.ok
              · exact hdone.ok b hb
          · rw [hrest]
            refine ⟨fun h => ⟨hfits.mp hlost, ?_⟩, fun h => h.2 block mf₁ heq hlast⟩
            intro b mf₂ hb _
            rw [heq] at hb
            obtain ⟨rfl, rfl⟩ := Prod.mk.inj (Option.some.inj hb)
            exact h

end Run

end ErofsUtils
