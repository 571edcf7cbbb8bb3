import ErofsUtils.KiteFinderReads
import ErofsUtils.KiteSound

/-!
# The match finder over any number of buffers

Resets and the calls that the two parsers make in between, in their order. `kite_deflate_tally` is
left open: a parser may stop with a buffer at any call. What `hash` and `chain` hold is never
cleared on the way; `base` moves on instead, and must not pass the end of the 32-bit numbers before
`kite_mf_reset` starts it over.
-/

namespace ErofsUtils

open KiteMatchfinder

/-- Where a parser stands with the match finder: in front of a turn at `posIn`, or of `n` skips. -/
inductive KiteCaller where
  | greedy (posIn : ℕ)
  | lazy (posIn prevLongest : ℕ)
  | skips (n : ℕ) (next : KiteCaller)

/-- `mf->matches` of a turn of `kite_deflate_slow`: the other row, with the literal at `pos_in`. -/
def lazyRow (inp : ℕ → UInt8) (posIn : ℕ) (mf : KiteMatchfinder) : KiteMatchfinder :=
  { mf with row := !mf.row }.setMatch 0
    { { mf with row := !mf.row }.matchesRow 0 with dist := (inp posIn).toNat }

section Calls

variable (inp : ℕ → UInt8)

namespace KiteCaller

/-- The first turn of `kite_deflate_fast` or `kite_deflate_slow`. -/
def start (lazySearch : Bool) : KiteCaller := if lazySearch then .lazy 0 0 else .greedy 0

/-- The next call of `kite_mf_getmatches_hc3`: the match finder, `depth` and `bestlen`. A call of
`kite_mf_hc3_skip` is one with `depth = 0`. -/
def call : KiteCaller → KiteMatchfinder → Option (KiteMatchfinder × ℕ × ℕ)
  | .greedy _, mf => some (mf, mf.depth, kMatchMinLen - 1)
  | .lazy posIn prevLongest, mf =>
      let len0 := (mf.matchesRow prevLongest).len
      if len0 < mf.maxLazy then
        some (lazyRow inp posIn mf, if mf.goodLen ≤ len0 then mf.depth / 2 else mf.depth, len0)
      else some (lazyRow inp posIn mf, 0, 2)
  | .skips 0 _, _ => none
  | .skips (_ + 1) _, mf => some (mf, 0, 2)

/-- The parser goes on: a turn starts in front of the end, the first one in any case. -/
def Goes (inlen : ℕ) : KiteCaller → Prop
  | .greedy posIn => posIn < max inlen 1
  | .lazy posIn _ => posIn < max inlen 1
  | .skips _ _ => True

/-- What a parser does with the match finder up to its next call, when its symbol fits. -/
def step (inlen : ℕ) : KiteCaller → KiteMatchfinder → KiteCaller × KiteMatchfinder
  | .greedy posIn, mf =>
      let (mf, found) := kiteMfGetmatchesHc3 inp inlen mf mf.depth (kMatchMinLen - 1)
      let m := mf.matchesRow (found.getD 0)
      if found.getD 0 ≠ 0 ∧ ¬ (m.len = kMatchMinLen ∧ zlibDistanceTooFar < m.dist) then
        (.skips (m.len - 1) (.greedy (posIn + m.len)), mf)
      else (.greedy (posIn + 1), mf.setMatch 0 { mf.matchesRow 0 with dist := (inp posIn).toNat })
  | .lazy posIn prevLongest, mf =>
      let len0 := (mf.matchesRow prevLongest).len
      let (mf, found, len) := kiteSlowSearch inp inlen len0 (lazyRow inp posIn mf)
      if len < len0 then (.skips (len0 - 2) (.lazy (posIn + (len0 - 1)) 0), mf)
      else (.lazy (posIn + 1) found, mf)
  | .skips 0 next, mf => (next, mf)
  | .skips (n + 1) next, mf => (.skips n next, kiteMfHc3Skip inp inlen mf)

end KiteCaller

end Calls

/-- The states of a match finder over any buffers of at most `limit` bytes. `base` and `offset` are
zero when `kite_deflate_init` returns. -/
inductive KiteFinderReach (limit : ℕ) (lazySearch : Bool) :
    (ℕ → UInt8) → ℕ → KiteCaller → KiteMatchfinder → Prop
  | first {mf₀ mf : KiteMatchfinder} {s : KiteDeflate} {level dictSize : ℕ}
      (hinit : kiteDeflateInit mf₀ level dictSize = some (s, mf, lazySearch)) (hbase : mf₀.base = 0)
      (hoffset : mf₀.offset = 0) {inp : ℕ → UInt8} {inlen : ℕ} (hlen : inlen ≤ limit) :
      KiteFinderReach limit lazySearch inp inlen (.start lazySearch) (kiteMfReset mf)
  | reset {inp inp' : ℕ → UInt8} {inlen inlen' : ℕ} {c : KiteCaller} {mf : KiteMatchfinder}
      (hreach : KiteFinderReach limit lazySearch inp inlen c mf) (hlen : inlen' ≤ limit) :
      KiteFinderReach limit lazySearch inp' inlen' (.start lazySearch) (kiteMfReset mf)
  | step {inp : ℕ → UInt8} {inlen : ℕ} {c : KiteCaller} {mf : KiteMatchfinder}
      (hreach : KiteFinderReach limit lazySearch inp inlen c mf) (hgoes : c.Goes inlen) :
      KiteFinderReach limit lazySearch inp inlen (c.step inp inlen mf).1 (c.step inp inlen mf).2

/-- The longest buffer behind which the sum of `kite_mf_reset` cannot wrap. -/
def maxBuffer : ℕ := 2 ^ 31 - kHistorySize32 - 1

theorem maxBuffer_le : maxBuffer ≤ 2 ^ 31 := (Nat.sub_le _ _).trans (Nat.sub_le _ _)

structure FinderOk (inp : ℕ → UInt8) (inlen : ℕ) (mf : KiteMatchfinder) : Prop where
  ok : mf.Ok inp inlen
  three_le_nice : 3 ≤ mf.niceLen
  lazy_le_nice : mf.maxLazy ≤ mf.niceLen
  base_lt : mf.base < 2 ^ 31
  offset_le : mf.offset ≤ max inlen 1
  inlen_le : inlen ≤ maxBuffer

/-- What holds in front of a call: a turn finds the match finder in step with its position, and a
pending match is a repetition; behind the skips of a match it does so again. -/
def CallerOk (inp : ℕ → UInt8) (inlen : ℕ) : KiteCaller → KiteMatchfinder → Prop
  | .greedy posIn, mf => InStep inp inlen posIn mf ∧ posIn ≤ max inlen 1
  | .lazy posIn prevLongest, mf => InStep inp inlen posIn mf ∧ posIn ≤ max inlen 1 ∧
      (prevLongest = 0 ∨ 1 ≤ posIn ∧ MatchOk inp inlen (posIn - 1) (mf.matchesRow prevLongest))
  | .skips n next, mf => mf.offset + n ≤ max inlen 1 ∧
      CallerOk inp inlen next (kiteMfSkips inp inlen n mf)

variable {inp : ℕ → UInt8} {inlen : ℕ} {mf : KiteMatchfinder}

theorem FinderOk.ready (h : FinderOk inp inlen mf) : mf.Ready := by
  have hbase := h.base_lt
  have hoff := h.offset_le
  have hlen := h.inlen_le
  have hmax : maxBuffer = 2147450879 := rfl
  have hhist : kHistorySize32 = 32768 := rfl
  exact h.ok.ready_of_lt h.three_le_nice h.lazy_le_nice (by omega)

theorem FinderOk.follow {mf' : KiteMatchfinder} (h : FinderOk inp inlen mf)
    (hok : mf'.Ok inp inlen) (hfol : Follows mf mf') (hoff : mf'.offset ≤ max inlen 1) :
    FinderOk inp inlen mf' where
  ok := hok
  three_le_nice := hfol.niceLen ▸ h.three_le_nice
  lazy_le_nice := by
    rw [hfol.maxLazy, hfol.niceLen]
    exact h.lazy_le_nice
  base_lt := hfol.base ▸ h.base_lt
  offset_le := hoff
  inlen_le := h.inlen_le

theorem KiteMatchfinder.Ready.finderOk (h : mf.Ready) (hlen : inlen ≤ maxBuffer) :
    FinderOk inp inlen (kiteMfReset mf) := by
  have hstep := @Ready.inStep inp inlen mf h (hlen.trans maxBuffer_le)
  have hoff : (kiteMfReset mf).offset = 0 := kiteMfReset_fields.1
  exact ⟨hstep.ok, hstep.three_le_nice, hstep.lazy_le_nice, hstep.base_lt, by omega, hlen⟩

/-- A reset leaves either parser in front of its first turn. -/
theorem KiteMatchfinder.Ready.callerOk (h : mf.Ready) (hlen : inlen ≤ maxBuffer)
    (lazySearch : Bool) : CallerOk inp inlen (.start lazySearch) (kiteMfReset mf) := by
  have hstep := @Ready.inStep inp inlen mf h (hlen.trans maxBuffer_le)
  cases lazySearch with
  | false => exact ⟨hstep, Nat.zero_le _⟩
  | true => exact ⟨hstep, Nat.zero_le _, Or.inl rfl⟩

theorem lazyRow_ok (h : mf.Ok inp inlen) (posIn : ℕ) : (lazyRow inp posIn mf).Ok inp inlen := by
  have hok : KiteMatchfinder.Ok inp inlen { mf with row := !mf.row } :=
    ⟨h.wsiz_pos, h.wsiz_le, h.nice_le, h.fits, h.cyclic, h.hash, h.chain, h.literal⟩
  exact hok.setLiteral _

theorem CallerOk.two_le_len0 {posIn prevLongest : ℕ}
    (h : CallerOk inp inlen (.lazy posIn prevLongest) mf) : 2 ≤ (mf.matchesRow prevLongest).len := by
  obtain ⟨hstep, -, rfl | ⟨-, hm⟩⟩ := h
  · exact le_of_eq (hstep.ok.literal mf.row).symm
  · exact (by decide : 2 ≤ 3).trans hm.three_le

/-- The next call of a parser is one that `kite_mf_getmatches_hc3` is made for. -/
theorem CallerOk.call {c : KiteCaller} (h : CallerOk inp inlen c mf) (hf : FinderOk inp inlen mf)
    {mf' : KiteMatchfinder} {depth bestlen : ℕ}
    (hcall : c.call inp mf = some (mf', depth, bestlen)) :
    mf'.Ok inp inlen ∧ 2 ≤ bestlen ∧ bestlen < mf'.niceLen := by
  have hnice := hf.three_le_nice
  have hlazy := hf.lazy_le_nice
  cases c with
  | greedy posIn =>
      obtain ⟨rfl, rfl, rfl⟩ : mf = mf' ∧ mf.depth = depth ∧ kMatchMinLen - 1 = bestlen := by
        simpa [KiteCaller.call] using hcall
      exact ⟨hf.ok, le_rfl, hnice⟩
  | lazy posIn prevLongest =>
      have htwo := CallerOk.two_le_len0 h
      have hrow := lazyRow_ok hf.ok posIn
      unfold KiteCaller.call at hcall
      simp only at hcall
      by_cases hlt : (mf.matchesRow prevLongest).len < mf.maxLazy
      · rw [if_pos hlt] at hcall
        obtain ⟨rfl, hrest⟩ := Prod.mk.inj (Option.some.inj hcall)
        obtain ⟨-, rfl⟩ := Prod.mk.inj hrest
        exact ⟨hrow, htwo, lt_of_lt_of_le hlt hlazy⟩
      · rw [if_neg hlt] at hcall
        obtain ⟨rfl, hrest⟩ := Prod.mk.inj (Option.some.inj hcall)
        obtain ⟨-, rfl⟩ := Prod.mk.inj hrest
        exact ⟨hrow, le_rfl, hnice⟩
  | skips n next =>
      cases n with
      | zero => exact absurd hcall (by simp [KiteCaller.call])
      | succ n =>
          obtain ⟨rfl, rfl, rfl⟩ : mf = mf' ∧ 0 = depth ∧ 2 = bestlen := by
            simpa [KiteCaller.call] using hcall
          exact ⟨hf.ok, le_rfl, hnice⟩

theorem FinderOk.setLiteral (h : FinderOk inp inlen mf) (d : ℕ) :
    FinderOk inp inlen (mf.setMatch 0 { mf.matchesRow 0 with dist := d }) :=
  ⟨h.ok.setLiteral d, h.three_le_nice, h.lazy_le_nice, h.base_lt, h.offset_le, h.inlen_le⟩

theorem KiteMatchfinder.InStep.setLiteral {posIn : ℕ} (h : InStep inp inlen posIn mf) (d : ℕ) :
    InStep inp inlen posIn (mf.setMatch 0 { mf.matchesRow 0 with dist := d }) :=
  ⟨h.ok.setLiteral d, h.three_le_nice, h.lazy_le_nice, h.base_lt, h.sync, h.behind⟩

theorem lazyRow_inStep {posIn : ℕ} (h : InStep inp inlen posIn mf) :
    InStep inp inlen posIn (lazyRow inp posIn mf) :=
  ⟨lazyRow_ok h.ok posIn, h.three_le_nice, h.lazy_le_nice, h.base_lt, h.sync, h.behind⟩

theorem lazyRow_finderOk (h : FinderOk inp inlen mf) (posIn : ℕ) :
    FinderOk inp inlen (lazyRow inp posIn mf) :=
  ⟨lazyRow_ok h.ok posIn, h.three_le_nice, h.lazy_le_nice, h.base_lt, h.offset_le, h.inlen_le⟩

/-- A turn of `kite_deflate_fast`. -/
theorem CallerOk.greedy_step {posIn : ℕ} (h : CallerOk inp inlen (.greedy posIn) mf)
    (hf : FinderOk inp inlen mf) (hgoes : posIn < max inlen 1) :
    FinderOk inp inlen (KiteCaller.step inp inlen (.greedy posIn) mf).2 ∧
      CallerOk inp inlen (KiteCaller.step inp inlen (.greedy posIn) mf).1
        (KiteCaller.step inp inlen (.greedy posIn) mf).2 := by
  obtain ⟨hstep, -⟩ := h
  have hnice := hf.three_le_nice
  unfold KiteCaller.step
  simp only
  rcases @InStep.getmatches inp inlen mf posIn hstep mf.depth (kMatchMinLen - 1) le_rfl hnice with
    ⟨hend, hget⟩ | ⟨hoff, hin, mf₁, k, hget, hok, hfol, hoff', hmatches⟩
  · rw [hget]
    simp only [Option.getD_none, ne_eq, not_true_eq_false, false_and, if_false]
    have hbehind := hstep.behind
    have hnext : InStep inp inlen (posIn + 1) mf :=
      hstep.follow hf.ok (Follows.refl mf) (Or.inr hend) (by omega)
    exact ⟨hf.setLiteral _, hnext.setLiteral _, hgoes⟩
  · rw [hget]
    simp only [Option.getD_some]
    by_cases hm : k ≠ 0 ∧ ¬ ((mf₁.matchesRow k).len = kMatchMinLen ∧
        zlibDistanceTooFar < (mf₁.matchesRow k).dist)
    · rw [if_pos hm]
      have hmatch := hmatches k (by omega) le_rfl
      have hinside := hmatch.inside
      have h3 := hmatch.three_le
      obtain ⟨hok₂, hfol₂, hoff₂⟩ := hok.skips (hfol.niceLen ▸ hnice) ((mf₁.matchesRow k).len - 1)
      have hoff₁ : mf₁.offset + ((mf₁.matchesRow k).len - 1) ≤ max inlen 1 := by omega
      have hend : posIn + (mf₁.matchesRow k).len ≤ max inlen 1 := by omega
      have hnext : InStep inp inlen (posIn + (mf₁.matchesRow k).len)
          (kiteMfSkips inp inlen ((mf₁.matchesRow k).len - 1) mf₁) :=
        hstep.follow hok₂ (hfol.trans hfol₂) (Or.inl (by omega)) (by omega)
      have hf₁ : FinderOk inp inlen mf₁ := hf.follow hok hfol (by omega)
      exact ⟨hf₁, hoff₁, hnext, hend⟩
    · rw [if_neg hm]
      have hnext : InStep inp inlen (posIn + 1) mf₁ :=
        hstep.follow hok hfol (Or.inl hoff') (le_of_eq hoff')
      exact ⟨(hf.follow hok hfol (by omega)).setLiteral _, hnext.setLiteral _, hgoes⟩

/-- A turn of `kite_deflate_slow`. -/
theorem CallerOk.lazy_step {posIn prevLongest : ℕ}
    (h : CallerOk inp inlen (.lazy posIn prevLongest) mf) (hf : FinderOk inp inlen mf)
    (hgoes : posIn < max inlen 1) :
    FinderOk inp inlen (KiteCaller.step inp inlen (.lazy posIn prevLongest) mf).2 ∧
      CallerOk inp inlen (KiteCaller.step inp inlen (.lazy posIn prevLongest) mf).1
        (KiteCaller.step inp inlen (.lazy posIn prevLongest) mf).2 := by
  have htwo := CallerOk.two_le_len0 h
  obtain ⟨hstep, -, hpending⟩ := h
  obtain ⟨mf₁, found, len, hsearch, hs⟩ :=
    @kiteSlowSearch_spec inp (lazyRow inp posIn mf) inlen posIn _ (lazyRow_inStep hstep) htwo
  have hbehind := hs.behind
  have hf₁ : FinderOk inp inlen mf₁ :=
    (lazyRow_finderOk hf posIn).follow hs.ok hs.follows (by omega)
  unfold KiteCaller.step
  simp only
  rw [hsearch]
  simp only
  by_cases hlt : len < (mf.matchesRow prevLongest).len
  · rw [if_pos hlt]
    have hlen := hs.two_le
    obtain ⟨hone, hm⟩ : 1 ≤ posIn ∧
        MatchOk inp inlen (posIn - 1) (mf.matchesRow prevLongest) := by
      rcases hpending with rfl | hm
      · have hlit := hstep.ok.literal mf.row
        have hmin : kMatchMinLen - 1 = 2 := rfl
        unfold matchesRow at hlt
        omega
      · exact hm
    have hinside := hm.inside
    have h3 := hm.three_le
    obtain ⟨hok, hfol, hoff⟩ := hs.ok.skips hf₁.three_le_nice ((mf.matchesRow prevLongest).len - 2)
    have hoff₁ : mf₁.offset + ((mf.matchesRow prevLongest).len - 2) ≤ max inlen 1 := by omega
    have hend : posIn + ((mf.matchesRow prevLongest).len - 1) ≤ max inlen 1 := by omega
    have hnext : InStep inp inlen (posIn + ((mf.matchesRow prevLongest).len - 1))
        (kiteMfSkips inp inlen ((mf.matchesRow prevLongest).len - 2) mf₁) := by
      refine (lazyRow_inStep hstep).follow hok (hs.follows.trans hfol) ?_ (by omega)
      rcases hs.sync with h₁ | h₁ | ⟨-, h₁⟩
      · exact Or.inl (by omega)
      · exact Or.inr (by omega)
      · exact Or.inr (by omega)
    exact ⟨hf₁, hoff₁, hnext, hend, Or.inl rfl⟩
  · rw [if_neg hlt]
    refine ⟨hf₁, ?_, hgoes, ?_⟩
    · refine (lazyRow_inStep hstep).follow hs.ok hs.follows ?_ hbehind
      rcases hs.sync with h₁ | h₁ | ⟨h₁, -⟩
      · exact Or.inl h₁
      · exact Or.inr h₁
      · exact absurd h₁ hlt
    · rcases hs.matchOk with hz | hm
      · exact Or.inl hz
      · exact Or.inr ⟨Nat.succ_pos _, hm⟩

theorem CallerOk.step {c : KiteCaller} (h : CallerOk inp inlen c mf) (hf : FinderOk inp inlen mf)
    (hgoes : c.Goes inlen) : FinderOk inp inlen (c.step inp inlen mf).2 ∧
      CallerOk inp inlen (c.step inp inlen mf).1 (c.step inp inlen mf).2 := by
  cases c with
  | greedy posIn => exact CallerOk.greedy_step h hf hgoes
  | lazy posIn prevLongest => exact CallerOk.lazy_step h hf hgoes
  | skips n next =>
      obtain ⟨hle, hnext⟩ := h
      cases n with
      | zero => exact ⟨hf, hnext⟩
      | succ n =>
          obtain ⟨hok, hfol, hoff⟩ := hf.ok.skip hf.three_le_nice
          have hf₁ : FinderOk inp inlen (kiteMfHc3Skip inp inlen mf) :=
            hf.follow hok hfol (by omega)
          have hoff₁ : (kiteMfHc3Skip inp inlen mf).offset + n ≤ max inlen 1 := by omega
          exact ⟨hf₁, hoff₁, hnext⟩

/-- `kite_deflate_init` at level 1 for a window of two bytes, in memory that is all zero. -/
def twoByteFinder : KiteMatchfinder where
  hash := .zero
  chain := .zero
  base := 0
  offset := 0
  cyclicPos := 0
  niceLen := 8
  wsiz := 2
  depth := 4
  maxLazy := 4
  goodLen := 4
  row := false
  matrix := fun _ _ => ⟨0, 0⟩

theorem kiteDeflateInit_twoByteFinder :
    kiteDeflateInit twoByteFinder 1 2 = some (.fresh, twoByteFinder, false) := rfl

namespace KiteFinderReach

variable {lazySearch : Bool} {c : KiteCaller}

theorem inv (h : KiteFinderReach maxBuffer lazySearch inp inlen c mf) :
    FinderOk inp inlen mf ∧ CallerOk inp inlen c mf := by
  induction h with
  | @first mf₀ mf s level dictSize hinit hbase hoffset inp inlen hlen =>
      have hready : mf.Ready := by
        refine (KiteReach.init hinit ?_).ready
        rw [hbase, hoffset]
        decide
      exact ⟨hready.finderOk hlen, hready.callerOk hlen lazySearch⟩
  | reset _ hlen ih => exact ⟨ih.1.ready.finderOk hlen, ih.1.ready.callerOk hlen lazySearch⟩
  | step _ hgoes ih => exact ih.2.step ih.1 hgoes

/-- Whatever the buffers were, every call of a parser reads its buffer only and reports
repetitions only. -/
theorem searchSound (h : KiteFinderReach maxBuffer lazySearch inp inlen c mf)
    {mf' : KiteMatchfinder} {depth bestlen : ℕ} (hcall : c.call inp mf = some (mf', depth, bestlen))
    (buf : ℕ) : SearchSound inp buf inlen mf' depth bestlen := by
  obtain ⟨hok, htwo, hlt⟩ := h.inv.2.call h.inv.1 hcall
  exact hok.getmatches_sound htwo hlt

theorem searchSound_five : ∃ mf, (kiteMfGetmatchesHc3 (fun _ => 97) 5 mf 4 2).1.matchesRow 1 =
    ⟨4, 1⟩ ∧ SearchSound (fun _ => 97) 0 5 mf 4 2 := by
  have hfirst := @KiteFinderReach.first maxBuffer false _ _ _ _ _ kiteDeflateInit_twoByteFinder
    rfl rfl (fun _ => 97) 5 (by decide)
  have hstep := hfirst.step (show 0 < max 5 1 by decide)
  exact ⟨_, by decide +kernel, hstep.searchSound rfl 0⟩

end KiteFinderReach

section Wrap

def wrapBytes (i : ℕ) : UInt8 := if i < maxBuffer - 3 ∧ i % 2 = 1 then 1 else 0

theorem wrapBytes_ne {o : ℕ} (hpos : 0 < o) (hle : o ≤ maxBuffer - 3) :
    wrapBytes o ≠ wrapBytes (o - 1) := by
  have hmax : maxBuffer = 2147450879 := rfl
  unfold wrapBytes
  by_cases hodd : o % 2 = 1
  · rw [if_pos ⟨by omega, hodd⟩, if_neg (by omega)]
    decide
  · rw [if_neg (by omega), if_pos ⟨by omega, by omega⟩]
    decide

theorem wrapBytes_behind {o : ℕ} (h : maxBuffer - 3 ≤ o) : wrapBytes o = 0 :=
  if_neg fun hlt => absurd hlt.1 (Nat.not_lt.mpr h)

/-- The hash of three equal bytes that are neither 0 nor 1 stays unused. -/
theorem hashBytes_wrapBytes (o : ℕ) : hashBytes wrapBytes o ≠ hashBytes (fun _ => 2) 0 := by
  have hbyte (i : ℕ) : wrapBytes i = 0 ∨ wrapBytes i = 1 := by
    unfold wrapBytes
    split
    · exact Or.inr rfl
    · exact Or.inl rfl
  unfold hashBytes getUnaligned16
  rcases hbyte o with h₀ | h₀ <;> rcases hbyte (o + 1) with h₁ | h₁ <;>
    rcases hbyte (o + 2) with h₂ | h₂ <;> rw [h₀, h₁, h₂] <;> decide

theorem kiteMfGetmatchesHc3_hash {depth bestlen : ℕ} (hin : mf.offset + (bestlen + 1) ≤ inlen) :
    (kiteMfGetmatchesHc3 inp inlen mf depth bestlen).1.hash =
      setAt mf.hash (hashBytes inp mf.offset) (u32 (mf.base + mf.offset)) := by
  unfold kiteMfGetmatchesHc3
  rw [if_neg (by omega)]

/-- Three bytes in front of the end, a first candidate that agrees is reported. -/
theorem kiteMfGetmatchesHc3_first {depth v d : ℕ} (hin : mf.offset + 3 = inlen)
    (hnice : 3 ≤ mf.niceLen) (hv : mf.hash (hashBytes inp mf.offset) = v)
    (hdiff : sub32 (u32 (mf.base + mf.offset)) v = d) (hd : d < mf.wsiz)
    (hagree : candidateAgrees inp mf.offset (v - mf.base) 2) :
    (kiteMfGetmatchesHc3 inp inlen mf (depth + 1) 2).2 = some 1 ∧
      (kiteMfGetmatchesHc3 inp inlen mf (depth + 1) 2).1.matchesRow 1 = ⟨3, d⟩ := by
  have hlen : min mf.niceLen (inlen - mf.offset) = 3 := by omega
  unfold kiteMfGetmatchesHc3
  rw [if_neg (by omega)]
  simp only [hlen, hv]
  rw [hc3Loop]
  simp only [hdiff]
  rw [if_neg (Nat.not_le.mpr hd), if_pos hagree]
  exact ⟨rfl, if_pos rfl⟩

/-- In a window of two bytes, a byte that differs from the one in front of it is no match. -/
theorem KiteMatchfinder.Ok.getmatches_alone (h : mf.Ok inp inlen) (hwsiz : mf.wsiz = 2)
    (hnice : 3 ≤ mf.niceLen) (hin : mf.offset + 3 ≤ inlen)
    (hne : mf.offset = 0 ∨ inp mf.offset ≠ inp (mf.offset - 1)) (depth : ℕ) :
    ∃ mf', kiteMfGetmatchesHc3 inp inlen mf depth 2 = (mf', some 0) ∧ mf'.Ok inp inlen ∧
      Follows mf mf' ∧ mf'.offset = mf.offset + 1 := by
  obtain ⟨mf', k, hget, hok, hfol, hoff, -⟩ :=
    @Ok.getmatches inp inlen mf h depth 2 le_rfl hnice hin
  obtain ⟨-, hreported⟩ := @Ok.getmatches_sound inp 0 inlen mf h depth 2 le_rfl hnice
  rw [hget] at hreported
  rcases Nat.eq_zero_or_pos k with rfl | hk
  · exact ⟨mf', hget, hok, hfol, hoff⟩
  · have hm : Reported inp inlen mf 2 (mf'.matchesRow 1) := hreported k rfl 1 le_rfl hk
    have hlen := hm.lt_len
    have hpos := hm.dist_pos
    have hlt := hm.dist_lt
    have hle := hm.dist_le
    have hsame := hm.same 0 (by omega)
    rw [Nat.add_zero, show (mf'.matchesRow 1).dist = 1 by omega] at hsame
    rcases hne with hzero | hne
    · omega
    · exact absurd hsame hne

/-- A greedy parser with a window of two bytes at `posIn`, after literals only. -/
structure Alone (inlen base posIn : ℕ) (mf : KiteMatchfinder) : Prop where
  reach : KiteFinderReach (maxBuffer + 1) false wrapBytes inlen (.greedy posIn) mf
  ok : mf.Ok wrapBytes inlen
  offset : mf.offset = posIn
  base : mf.base = base
  wsiz : mf.wsiz = 2
  nice : 3 ≤ mf.niceLen
  lazy_le_nice : mf.maxLazy ≤ mf.niceLen
  depth : mf.depth = 4
  blank : mf.hash (hashBytes (fun _ => 2) 0) = 0

theorem Alone.literal {base posIn : ℕ} (h : Alone inlen base posIn mf) (hin : posIn + 3 ≤ inlen)
    (hle : posIn ≤ maxBuffer - 3) : ∃ mf', Alone inlen base (posIn + 1) mf' ∧
      mf'.hash (hashBytes wrapBytes posIn) = u32 (base + posIn) := by
  have hoff := h.offset
  have hne : mf.offset = 0 ∨ wrapBytes mf.offset ≠ wrapBytes (mf.offset - 1) := by
    rcases Nat.eq_zero_or_pos mf.offset with hzero | hpos
    · exact Or.inl hzero
    · exact Or.inr (wrapBytes_ne hpos (hoff ▸ hle))
  obtain ⟨mf₁, hget, hok, hfol, hoff₁⟩ :=
    h.ok.getmatches_alone h.wsiz h.nice (by omega) hne mf.depth
  have hhash : mf₁.hash = setAt mf.hash (hashBytes wrapBytes posIn) (u32 (base + posIn)) := by
    have hset := @kiteMfGetmatchesHc3_hash wrapBytes inlen mf mf.depth 2 (by omega)
    rwa [hget, hoff, h.base] at hset
  have hgoes : (KiteCaller.greedy posIn).Goes inlen := by
    change posIn < max inlen 1
    omega
  have hnext := h.reach.step hgoes
  have hstep : KiteCaller.step wrapBytes inlen (.greedy posIn) mf = (.greedy (posIn + 1),
      mf₁.setMatch 0 { mf₁.matchesRow 0 with dist := (wrapBytes posIn).toNat }) := by
    unfold KiteCaller.step
    simp only
    rw [show kMatchMinLen - 1 = 2 from rfl, hget]
    rfl
  rw [hstep] at hnext
  refine ⟨_, ⟨hnext, hok.setLiteral _, ?_, ?_, ?_, ?_, ?_, ?_, ?_⟩, ?_⟩
  · exact hoff₁.trans (by rw [hoff])
  · exact hfol.base.trans h.base
  · exact hfol.wsiz.trans h.wsiz
  · exact hfol.niceLen ▸ h.nice
  · change mf₁.maxLazy ≤ mf₁.niceLen
    rw [hfol.maxLazy, hfol.niceLen]
    exact h.lazy_le_nice
  · exact hfol.depth.trans h.depth
  · change mf₁.hash _ = 0
    rw [hhash, setAt_of_ne _ _ (hashBytes_wrapBytes posIn).symm]
    exact h.blank
  · change mf₁.hash _ = _
    rw [hhash, setAt_self]

theorem Alone.literals {base posIn : ℕ} (h : Alone inlen base 0 mf) (hin : posIn + 2 ≤ inlen)
    (hle : posIn ≤ maxBuffer - 2) : ∃ mf', Alone inlen base posIn mf' := by
  induction posIn with
  | zero => exact ⟨mf, h⟩
  | succ posIn ih =>
      obtain ⟨mf', h'⟩ := ih (by omega) (by omega)
      obtain ⟨mf'', h'', -⟩ := h'.literal (by omega) (by omega)
      exact ⟨mf'', h''⟩

theorem kiteMfReset_kept {base : ℕ}
    (hbase : u32 (mf.base + (mf.offset + kHistorySize32 + 1)) = base) (hlt : base < 2 ^ 31) : kiteMfReset mf = { mf with
      base := base
      offset := 0
      cyclicPos := 0
      row := false
      matrix := fun r i => if i = 0 then { mf.matrix r 0 with len := kMatchMinLen - 1 }
        else mf.matrix r i } := by
  unfold kiteMfReset
  simp only [hbase]
  rw [if_neg (by omega)]

theorem kiteMfHc3Skip_end (h : inlen < mf.offset + 3) :
    kiteMfHc3Skip inp inlen mf = { mf with offset := mf.offset + 1 } := by
  unfold kiteMfHc3Skip
  rw [kiteMfGetmatchesHc3_none h]

theorem Alone.reset {base posIn inlen' : ℕ} (h : Alone inlen base posIn mf)
    (hfit : base + posIn + kHistorySize32 + 1 < 2 ^ 31) (hlen : inlen' ≤ maxBuffer + 1) :
    Alone inlen' (base + posIn + kHistorySize32 + 1) 0 (kiteMfReset mf) := by
  have hready : mf.Ready := h.ok.ready_of_lt h.nice h.lazy_le_nice (by
    rw [h.base, h.offset]
    omega)
  have hmax : maxBuffer = 2147450879 := rfl
  have hbase : u32 (mf.base + (mf.offset + kHistorySize32 + 1)) =
      base + posIn + kHistorySize32 + 1 := by
    rw [h.base, h.offset]
    unfold u32
    omega
  have hkept := kiteMfReset_kept hbase hfit
  refine ⟨h.reach.reset hlen, hready.reset (by omega), ?_, ?_, ?_, ?_, ?_, ?_, ?_⟩ <;> rw [hkept]
  · exact h.wsiz
  · exact h.nice
  · exact h.lazy_le_nice
  · exact h.depth
  · exact h.blank

/-- The match at the end of the longest buffer but one takes the rest of it. -/
theorem Alone.last {base : ℕ} (h : Alone (maxBuffer + 1) base (maxBuffer - 2) mf)
    (hfit : base + maxBuffer < 2 ^ 32)
    (hhash : mf.hash (hashBytes wrapBytes (maxBuffer - 2)) = base + (maxBuffer - 3)) :
    ∃ c mf', KiteFinderReach (maxBuffer + 1) false wrapBytes (maxBuffer + 1) c mf' ∧
      mf'.offset = maxBuffer + 1 ∧ Follows mf mf' ∧ mf'.hash (hashBytes (fun _ => 2) 0) = 0 := by
  have hmax : maxBuffer = 2147450879 := rfl
  have hoff := h.offset
  have hbase := h.base
  have hu : u32 (mf.base + mf.offset) = base + (maxBuffer - 2) := by
    rw [hbase, hoff]
    exact Nat.mod_eq_of_lt (by omega)
  have hzero (o : ℕ) (ho : maxBuffer - 3 ≤ o) : wrapBytes o = 0 := wrapBytes_behind ho
  have hagree : candidateAgrees wrapBytes mf.offset (base + (maxBuffer - 3) - mf.base) 2 := by
    rw [hoff, hbase, Nat.add_sub_cancel_left]
    refine ⟨?_, Or.inl (by decide)⟩
    unfold getUnaligned16
    rw [hzero _ (by omega), hzero _ (by omega), hzero _ (by omega), hzero _ (by omega)]
  obtain ⟨mf₁, k, hget, -, hfol, hoff₁, -⟩ :=
    @Ok.getmatches wrapBytes (maxBuffer + 1) mf h.ok 4 2 le_rfl h.nice (by omega)
  have hfirst := @kiteMfGetmatchesHc3_first wrapBytes (maxBuffer + 1) mf 3
    (base + (maxBuffer - 3)) 1 (by omega) h.nice (hoff.symm ▸ hhash)
    (by rw [hu, sub32_of_le (by omega) (by omega)]; omega) (by rw [h.wsiz]; decide) hagree
  have hset := @kiteMfGetmatchesHc3_hash wrapBytes (maxBuffer + 1) mf 4 2 (by omega)
  rw [hget] at hfirst hset
  obtain ⟨hk, hm⟩ : k = 1 ∧ mf₁.matchesRow 1 = ⟨3, 1⟩ := ⟨Option.some.inj hfirst.1, hfirst.2⟩
  subst hk
  have hstep : KiteCaller.step wrapBytes (maxBuffer + 1) (.greedy (maxBuffer - 2)) mf =
      (.skips 2 (.greedy (maxBuffer - 2 + 3)), mf₁) := by
    unfold KiteCaller.step
    simp only
    rw [show kMatchMinLen - 1 = 2 from rfl, h.depth, hget]
    simp only [Option.getD_some, hm]
    rfl
  have hreach := h.reach.step (show maxBuffer - 2 < max (maxBuffer + 1) 1 by omega)
  rw [hstep] at hreach
  have hskips := (hreach.step trivial).step trivial
  simp only [KiteCaller.step] at hskips
  have hskip₁ := @kiteMfHc3Skip_end wrapBytes (maxBuffer + 1) mf₁ (by omega)
  have hskip₂ := @kiteMfHc3Skip_end wrapBytes (maxBuffer + 1)
    { mf₁ with offset := mf₁.offset + 1 } (by simp only; omega)
  rw [hskip₁, hskip₂] at hskips
  refine ⟨_, _, hskips, ?_, ?_, ?_⟩
  · simp only
    omega
  · exact ⟨hfol.base, hfol.niceLen, hfol.wsiz, hfol.depth, hfol.maxLazy, hfol.goodLen, hfol.row,
      hfol.other, hfol.literal⟩
  · simp only at hset ⊢
    rw [hset, setAt_of_ne _ _ (hashBytes_wrapBytes _).symm]
    exact h.blank

theorem alone_first {inlen : ℕ} (hlen : inlen ≤ maxBuffer + 1) :
    Alone inlen (kHistorySize32 + 1) 0 (kiteMfReset twoByteFinder) := by
  have hmax : maxBuffer = 2147450879 := rfl
  have hready : twoByteFinder.Ready :=
    (KiteReach.init kiteDeflateInit_twoByteFinder (by decide)).ready
  have hkept := @kiteMfReset_kept twoByteFinder (kHistorySize32 + 1) (by decide) (by decide)
  have hreach := @KiteFinderReach.first (maxBuffer + 1) false _ _ _ _ _
    kiteDeflateInit_twoByteFinder rfl rfl wrapBytes inlen hlen
  refine ⟨hreach, hready.reset (by omega), ?_, ?_, ?_, ?_, ?_, ?_, ?_⟩ <;> rw [hkept]
  · rfl
  · decide
  · decide
  · rfl
  · rfl

/-- With one byte more, `base` can become zero behind two buffers, and what `hash` never held passes
for the first position of the third: a match of distance zero. -/
theorem KiteFinderReach.wrapped :
    ∃ mf, KiteFinderReach (maxBuffer + 1) false (fun _ => 2) 3 (.greedy 0) mf ∧
      (kiteMfGetmatchesHc3 (fun _ => 2) 3 mf mf.depth 2).2 = some 1 ∧
      (kiteMfGetmatchesHc3 (fun _ => 2) 3 mf mf.depth 2).1.matchesRow 1 = ⟨3, 0⟩ ∧
      ¬ SearchSound (fun _ => 2) 0 3 mf mf.depth 2 := by
  have hmax : maxBuffer = 2147450879 := rfl
  have hhist : kHistorySize32 = 32768 := rfl
  -- the first buffer is as long as it takes to leave `base` at the last value that is kept
  obtain ⟨mf₁, h₁⟩ := (@alone_first 2147418111 (by omega)).literals
    (show 2147418109 + 2 ≤ 2147418111 by omega) (by omega)
  have h₂ := @Alone.reset _ _ _ _ (maxBuffer + 1) h₁ (by omega) le_rfl
  obtain ⟨mf₃, h₃⟩ := h₂.literals (show maxBuffer - 3 + 2 ≤ maxBuffer + 1 by omega) (by omega)
  obtain ⟨mf₄, h₄, hhash⟩ := h₃.literal (by omega) le_rfl
  have hsame : hashBytes wrapBytes (maxBuffer - 2) = hashBytes wrapBytes (maxBuffer - 3) := by
    have hzero (o : ℕ) (ho : maxBuffer - 3 ≤ o) : wrapBytes o = 0 := wrapBytes_behind ho
    unfold hashBytes getUnaligned16
    simp only [hzero _ (show maxBuffer - 3 ≤ maxBuffer - 2 by omega), hzero _ le_rfl,
      hzero _ (show maxBuffer - 3 ≤ maxBuffer - 2 + 1 by omega),
      hzero _ (show maxBuffer - 3 ≤ maxBuffer - 2 + 2 by omega),
      hzero _ (show maxBuffer - 3 ≤ maxBuffer - 3 + 1 by omega),
      hzero _ (show maxBuffer - 3 ≤ maxBuffer - 3 + 2 by omega)]
  rw [← hsame] at hhash
  unfold u32 at hhash
  rw [Nat.mod_eq_of_lt (by omega)] at hhash
  have hstep : maxBuffer - 3 + 1 = maxBuffer - 2 := by omega
  rw [hstep] at h₄
  obtain ⟨c, mf, hreach, hoff, hfol, hblank⟩ := h₄.last (by omega) hhash
  have hbase : u32 (mf.base + (mf.offset + kHistorySize32 + 1)) = 0 := by
    have hsum : kHistorySize32 + 1 + 2147418109 + kHistorySize32 + 1 +
        (maxBuffer + 1 + kHistorySize32 + 1) = 2 ^ 32 := by
      simp only [hmax, hhist, Nat.reduceAdd, Nat.reducePow]
    rw [hfol.base, h₄.base, hoff]
    exact (congrArg u32 hsum).trans (Nat.mod_self _)
  have hkept := kiteMfReset_kept hbase (by decide)
  have hdepth : (kiteMfReset mf).depth = 3 + 1 := by
    rw [hkept]
    exact hfol.depth.trans h₄.depth
  have hwsiz : (kiteMfReset mf).wsiz = 2 := by
    rw [hkept]
    exact hfol.wsiz.trans h₄.wsiz
  have hnice : 3 ≤ (kiteMfReset mf).niceLen := by
    rw [hkept]
    exact hfol.niceLen ▸ h₄.nice
  have hzero : u32 0 = 0 := Nat.zero_mod _
  have hself : sub32 0 0 = 0 := sub32_of_le le_rfl (by decide)
  have hfirst := @kiteMfGetmatchesHc3_first (fun _ => 2) 3 (kiteMfReset mf) 3 0 0
    (by rw [hkept]) hnice (by rw [hkept]; exact hblank)
    (by rw [hkept]; exact hzero.symm ▸ hself) (by rw [hwsiz]; decide)
    (by rw [hkept]; exact ⟨rfl, Or.inl (by decide)⟩)
  rw [← hdepth] at hfirst
  refine ⟨_, hreach.reset (by omega), hfirst.1, hfirst.2, ?_⟩
  intro hsound
  have hpos := (hsound.reported 1 hfirst.1 1 le_rfl le_rfl).dist_pos
  rw [hfirst.2] at hpos
  exact absurd hpos (by decide)

end Wrap

end ErofsUtils
