import ErofsUtils.KiteMatches

/-!
# The match finder between and inside inputs

`kite_mf_init` and `kite_mf_reset` make a match finder ready for an input, and the parsers keep it
in step with their position.
-/

namespace ErofsUtils
namespace KiteMatchfinder

variable {inp : ℕ → UInt8} {inlen : ℕ} {mf : KiteMatchfinder}

theorem kiteMfcfg_nice {level : ℕ} {cfg : KiteMatchfinderCfg} (h : kiteMfcfg[level]? = some cfg)
    (hzero : level ≠ 0) :
    3 ≤ cfg.niceLength ∧ cfg.niceLength ≤ 258 ∧ cfg.maxLazy ≤ cfg.niceLength := by
  have hall : ∀ cfg ∈ kiteMfcfg.tail, 3 ≤ cfg.niceLength ∧ cfg.niceLength ≤ 258 ∧
      cfg.maxLazy ≤ cfg.niceLength := by decide
  obtain ⟨n, rfl⟩ := Nat.exists_eq_succ_of_ne_zero hzero
  refine hall cfg (List.mem_of_getElem? (i := n) ?_)
  rw [List.getElem?_tail]
  exact h

/-- What holds between two inputs: the next `base` is behind every entry of `hash`. -/
structure Ready (mf : KiteMatchfinder) : Prop where
  wsiz_pos : 0 < mf.wsiz
  wsiz_le : mf.wsiz ≤ kHistorySize32
  three_le_nice : 3 ≤ mf.niceLen
  nice_le : mf.niceLen ≤ 258
  lazy_le_nice : mf.maxLazy ≤ mf.niceLen
  base_lt : mf.base + mf.offset + kHistorySize32 + 1 < 2 ^ 32
  hash_le : ∀ h, mf.hash h + mf.wsiz ≤ mf.base + mf.offset + kHistorySize32 + 1

/-- The longest input that `kite_mf_reset` provides for; `z_erofs_compress_one` passes at most
`Z_EROFS_COMPR_QUEUE_SZ` bytes. -/
def maxInput : ℕ := 2 ^ 31 - 2 * kHistorySize32

theorem maxInput_lt : maxInput < 2 ^ 31 := by decide

theorem Ready.reset (h : mf.Ready) (hlen : inlen ≤ 2 ^ 31) : (kiteMfReset mf).Ok inp inlen := by
  have hw := h.wsiz_le
  have hbase := h.base_lt
  have hhist : kHistorySize32 = 32768 := rfl
  have hu : u32 (mf.base + (mf.offset + kHistorySize32 + 1)) =
      mf.base + (mf.offset + kHistorySize32 + 1) := Nat.mod_eq_of_lt (by omega)
  unfold kiteMfReset
  simp only [hu]
  by_cases hbig : (2 ^ 32 - 1) / 2 < mf.base + (mf.offset + kHistorySize32 + 1)
  · rw [if_pos hbig]
    refine ⟨h.wsiz_pos, h.wsiz_le, h.nice_le, ?_, fun _ => (Nat.zero_mod _).symm, ?_, ?_, ?_⟩
    · simp only
      omega
    · intro v
      refine Or.inl ?_
      simp only [CArray.zero_get]
      omega
    · exact fun o ho => absurd ho (Nat.not_lt_zero o)
    · exact fun r => rfl
  · rw [if_neg hbig]
    refine ⟨h.wsiz_pos, h.wsiz_le, h.nice_le, ?_, fun _ => (Nat.zero_mod _).symm, ?_, ?_, ?_⟩
    · simp only
      omega
    · intro v
      have := h.hash_le v
      refine Or.inl ?_
      simp only
      omega
    · exact fun o ho => absurd ho (Nat.not_lt_zero o)
    · exact fun r => rfl

/-- What `kite_mf_reset` does to the rest of the match finder. -/
theorem kiteMfReset_fields : (kiteMfReset mf).offset = 0 ∧ (kiteMfReset mf).base < 2 ^ 31 ∧
    (kiteMfReset mf).niceLen = mf.niceLen ∧ (kiteMfReset mf).maxLazy = mf.maxLazy := by
  have hhist : kHistorySize32 = 32768 := rfl
  unfold kiteMfReset
  simp only [true_and, and_true]
  split <;> omega

/-- The match finder is ready for the next input when the sum of `kite_mf_reset` does not wrap. -/
theorem Ok.ready_of_lt (h : mf.Ok inp inlen) (hnice : 3 ≤ mf.niceLen)
    (hlazy : mf.maxLazy ≤ mf.niceLen) (hfit : mf.base + mf.offset + kHistorySize32 + 1 < 2 ^ 32) :
    mf.Ready := by
  have hw := h.wsiz_le
  refine ⟨h.wsiz_pos, hw, hnice, h.nice_le, hlazy, hfit, ?_⟩
  intro v
  rcases h.hash v with hold | ⟨o, ho, heq, -⟩
  · omega
  · omega

theorem Ok.ready (h : mf.Ok inp inlen) (hnice : 3 ≤ mf.niceLen) (hlazy : mf.maxLazy ≤ mf.niceLen)
    (hbase : mf.base < 2 ^ 31) (hlen : inlen ≤ maxInput) (hoff : mf.offset ≤ inlen + 2) :
    mf.Ready := by
  have hhist : kHistorySize32 = 32768 := rfl
  have hmax : maxInput = 2147418112 := rfl
  exact h.ready_of_lt hnice hlazy (by omega)

/-- `kite_mf_init` leaves a match finder that is ready, when what `malloc` left in `base` and
`offset` does not wrap. -/
theorem kiteMfInit_ready {mf₀ : KiteMatchfinder} {wsiz level : ℕ} {lazySearch : Bool}
    (h : kiteMfInit mf₀ wsiz level = some (mf, lazySearch)) (hpos : 0 < wsiz)
    (hfresh : mf₀.base + mf₀.offset + kHistorySize32 + 1 < 2 ^ 32) : mf.Ready := by
  unfold kiteMfInit at h
  cases hcfg : kiteMfcfg[level]? with
  | none => rw [hcfg] at h; simp at h
  | some cfg =>
      rw [hcfg] at h
      simp only at h
      split_ifs at h with hzero hw
      obtain ⟨rfl, -⟩ := Prod.mk.inj (Option.some.inj h)
      have hwle : wsiz ≤ kHistorySize32 := by omega
      obtain ⟨h3, h258, hlazy⟩ : 3 ≤ cfg.niceLength ∧ cfg.niceLength ≤ 258 ∧
          cfg.maxLazy ≤ cfg.niceLength := kiteMfcfg_nice hcfg hzero
      refine ⟨hpos, hwle, h3, h258, hlazy, hfresh, ?_⟩
      intro v
      simp only [CArray.zero_get]
      omega

/-- The match finder in step with a parser at `posIn`. Behind the last position that has three
bytes it may fall back. -/
structure InStep (inp : ℕ → UInt8) (inlen posIn : ℕ) (mf : KiteMatchfinder) : Prop where
  ok : mf.Ok inp inlen
  three_le_nice : 3 ≤ mf.niceLen
  lazy_le_nice : mf.maxLazy ≤ mf.niceLen
  base_lt : mf.base < 2 ^ 31
  sync : mf.offset = posIn ∨ inlen < mf.offset + 3
  behind : mf.offset ≤ posIn

theorem Ready.inStep (h : mf.Ready) (hlen : inlen ≤ 2 ^ 31) :
    InStep inp inlen 0 (kiteMfReset mf) := by
  obtain ⟨hoff, hbase, hnice, hlazy⟩ := @kiteMfReset_fields mf
  refine ⟨h.reset hlen, ?_, ?_, hbase, Or.inl hoff, le_of_eq hoff⟩
  · rw [hnice]
    exact h.three_le_nice
  · rw [hlazy, hnice]
    exact h.lazy_le_nice

theorem InStep.follow {posIn posIn' : ℕ} {mf' : KiteMatchfinder} (h : InStep inp inlen posIn mf)
    (hok : mf'.Ok inp inlen) (hfol : Follows mf mf')
    (hsync : mf'.offset = posIn' ∨ inlen < mf'.offset + 3) (hbehind : mf'.offset ≤ posIn') :
    InStep inp inlen posIn' mf' where
  ok := hok
  three_le_nice := hfol.niceLen ▸ h.three_le_nice
  lazy_le_nice := by
    rw [hfol.maxLazy, hfol.niceLen]
    exact h.lazy_le_nice
  base_lt := hfol.base ▸ h.base_lt
  sync := hsync
  behind := hbehind

theorem InStep.ready {posIn : ℕ} (h : InStep inp inlen posIn mf) {mf' : KiteMatchfinder}
    (hok : mf'.Ok inp inlen) (hfol : Follows mf mf') (hlen : inlen ≤ maxInput)
    (hoff : mf'.offset ≤ inlen + 2) : mf'.Ready := by
  refine hok.ready ?_ ?_ ?_ hlen hoff
  · rw [hfol.niceLen]
    exact h.three_le_nice
  · rw [hfol.maxLazy, hfol.niceLen]
    exact h.lazy_le_nice
  · rw [hfol.base]
    exact h.base_lt

/-- The search of a parser: it stays behind, or enters the position and finds matches there. -/
theorem InStep.getmatches {posIn : ℕ} (h : InStep inp inlen posIn mf) {depth bestlen : ℕ}
    (h2 : 2 ≤ bestlen) (hnice : bestlen + 1 ≤ mf.niceLen) :
    (inlen < mf.offset + (bestlen + 1) ∧
      kiteMfGetmatchesHc3 inp inlen mf depth bestlen = (mf, none)) ∨
    (mf.offset = posIn ∧ posIn + (bestlen + 1) ≤ inlen ∧
      ∃ mf' k, kiteMfGetmatchesHc3 inp inlen mf depth bestlen = (mf', some k) ∧
        mf'.Ok inp inlen ∧ Follows mf mf' ∧ mf'.offset = posIn + 1 ∧
        ∀ i, 1 ≤ i → i ≤ k → MatchOk inp inlen posIn (mf'.matchesRow i)) := by
  by_cases hin : mf.offset + (bestlen + 1) ≤ inlen
  · have hoff : mf.offset = posIn := by
      rcases h.sync with hs | hs <;> omega
    have hspec := @Ok.getmatches inp inlen mf h.ok depth bestlen h2 hnice hin
    rw [hoff] at hspec hin
    exact Or.inr ⟨hoff, hin, hspec⟩
  · exact Or.inl ⟨by omega, kiteMfGetmatchesHc3_none (by omega)⟩

theorem Ok.setLiteral (h : mf.Ok inp inlen) (d : ℕ) :
    (mf.setMatch 0 { mf.matchesRow 0 with dist := d }).Ok inp inlen := by
  refine ⟨h.wsiz_pos, h.wsiz_le, h.nice_le, h.fits, h.cyclic, h.hash, h.chain, ?_⟩
  intro r
  unfold setMatch
  simp only
  split_ifs
  · exact h.literal mf.row
  · exact h.literal r

theorem matchesRow_setMatch (mf : KiteMatchfinder) (k : ℕ) (m : KiteMatch) :
    (mf.setMatch k m).matchesRow k = m := if_pos ⟨rfl, rfl⟩

end KiteMatchfinder

end ErofsUtils
