import ErofsUtils.KiteMatchfinder
import Mathlib.Data.List.Nodup
import Mathlib.Data.Nat.Bitwise

/-!
# What the match finder returns

Every entry of `hash` and `chain` is a position of the current input with the right hash, or too
old to be taken. From this every match that `kite_mf_getmatches_hc3` returns is a real repetition
of the input.
-/

namespace ErofsUtils

section Bytes

variable {inp : ℕ → UInt8} {a b : ℕ}

theorem getUnaligned16_inj (h : getUnaligned16 inp a = getUnaligned16 inp b) :
    inp a = inp b ∧ inp (a + 1) = inp (b + 1) := by
  unfold getUnaligned16 at h
  have h₁ := (inp a).toNat_lt
  have h₂ := (inp b).toNat_lt
  have h₃ := (inp (a + 1)).toNat_lt
  have h₄ := (inp (b + 1)).toNat_lt
  exact ⟨UInt8.toNat_inj.mp (by omega), UInt8.toNat_inj.mp (by omega)⟩

/-- No value of a list is a bit of `seen`, and none comes twice. -/
def freshBits : List ℕ → ℕ → Bool
  | [], _ => true
  | x :: xs, seen => !seen.testBit x && freshBits xs (seen ||| 2 ^ x)

theorem nodup_of_freshBits {l : List ℕ} {seen : ℕ} (h : freshBits l seen = true) :
    l.Nodup ∧ ∀ x ∈ l, seen.testBit x = false := by
  induction l generalizing seen with
  | nil => exact ⟨List.nodup_nil, fun _ hx => absurd hx List.not_mem_nil⟩
  | cons x xs ih =>
      rw [freshBits, Bool.and_eq_true, Bool.not_eq_true'] at h
      obtain ⟨hnodup, hfresh⟩ := ih h.2
      have hsplit : ∀ y ∈ xs, seen.testBit y = false ∧ x ≠ y := by
        intro y hy
        have hor := hfresh y hy
        rw [Nat.testBit_or, Bool.or_eq_false_iff, Nat.testBit_two_pow, decide_eq_false_iff_not] at hor
        exact hor
      refine ⟨List.nodup_cons.mpr ⟨fun hx => (hsplit x hx).2 rfl, hnodup⟩, ?_⟩
      intro y hy
      rcases List.mem_cons.mp hy with rfl | hy
      · exact h.1
      · exact (hsplit y hy).1

theorem crcCcittTable_nodup : crcCcittTable.Nodup := by
  have hfresh : freshBits crcCcittTable 0 = true := by decide +kernel
  exact (nodup_of_freshBits hfresh).1

theorem crcCcittTable_inj {x y : UInt8}
    (h : crcCcittTable.getD x.toNat 0 = crcCcittTable.getD y.toNat 0) : x = y := by
  have hlen : crcCcittTable.length = 256 := by decide +kernel
  have hx : x.toNat < crcCcittTable.length := hlen ▸ x.toNat_lt
  have hy : y.toNat < crcCcittTable.length := hlen ▸ y.toNat_lt
  rw [List.getD_eq_getElem?_getD, List.getD_eq_getElem?_getD, List.getElem?_eq_getElem hx,
    List.getElem?_eq_getElem hy] at h
  exact UInt8.toNat_inj.mp (crcCcittTable_nodup.getElem_inj_iff.mp h)

/-- Two bytes and the hash determine the third byte. -/
theorem hashBytes_inj (hv : getUnaligned16 inp a = getUnaligned16 inp b)
    (hh : hashBytes inp a = hashBytes inp b) : inp (a + 2) = inp (b + 2) := by
  unfold hashBytes at hh
  rw [hv] at hh
  have hcancel := congrArg (getUnaligned16 inp b ^^^ ·) hh
  simp only [Nat.xor_xor_cancel_left] at hcancel
  exact crcCcittTable_inj hcancel

theorem candidateAgrees.bytes {q bestlen : ℕ} (h : candidateAgrees inp a q bestlen)
    (hh : hashBytes inp a = hashBytes inp q) (h2 : 2 ≤ bestlen) :
    ∀ i ≤ bestlen, inp (a + i) = inp (q + i) := by
  obtain ⟨hv, hrest⟩ := h
  obtain ⟨h₀, h₁⟩ := getUnaligned16_inj hv
  have htwo := hashBytes_inj hv hh
  intro i hi
  rcases Nat.lt_or_ge i 3 with hlt | hge
  · rcases (show i = 0 ∨ i = 1 ∨ i = 2 by omega) with rfl | rfl | rfl
    · exact h₀
    · exact h₁
    · exact htwo
  · rcases hrest with hlt | ⟨hu, hmem⟩
    · omega
    · have e₁ : a + bestlen - 1 + 1 = a + bestlen := by omega
      have e₂ : q + bestlen - 1 + 1 = q + bestlen := by omega
      obtain ⟨-, hlast⟩ := getUnaligned16_inj hu
      rw [e₁, e₂] at hlast
      rcases Nat.lt_or_ge i bestlen with hlt | hge'
      · have := hmem (i - 3) (by omega)
        rwa [show a + 3 + (i - 3) = a + i by omega, show q + 3 + (i - 3) = q + i by omega] at this
      · obtain rfl : i = bestlen := by omega
        exact hlast

end Bytes

/-- A repetition of the input at `cur`, of a length and a distance that DEFLATE can carry. -/
structure MatchOk (inp : ℕ → UInt8) (inlen cur : ℕ) (m : KiteMatch) : Prop where
  three_le : 3 ≤ m.len
  len_le : m.len ≤ 258
  dist_pos : 1 ≤ m.dist
  dist_le : m.dist ≤ cur
  dist_lt : m.dist < kHistorySize32
  inside : cur + m.len ≤ inlen
  same : ∀ i < m.len, inp (cur + i) = inp (cur + i - m.dist)

namespace KiteMatchfinder

/-- The value `v` is a position in front of `o` with the hash `h`, or too old to be taken. -/
def Older (mf : KiteMatchfinder) (inp : ℕ → UInt8) (inlen o h v : ℕ) : Prop :=
  v + mf.wsiz ≤ mf.base ∨ ∃ o' < o, v = mf.base + o' ∧ hashBytes inp o' = h ∧ o' + 3 ≤ inlen

/-- The hash chains describe the input in front of `offset`. -/
structure Ok (inp : ℕ → UInt8) (inlen : ℕ) (mf : KiteMatchfinder) : Prop where
  wsiz_pos : 0 < mf.wsiz
  wsiz_le : mf.wsiz ≤ kHistorySize32
  nice_le : mf.niceLen ≤ 258
  fits : mf.base + inlen < 2 ^ 32
  cyclic : mf.offset + 3 ≤ inlen → mf.cyclicPos = mf.offset % mf.wsiz
  hash : ∀ h, mf.Older inp inlen mf.offset h (mf.hash h)
  chain : ∀ o < mf.offset, mf.offset ≤ o + mf.wsiz → o + 3 ≤ inlen →
    mf.Older inp inlen o (hashBytes inp o) (mf.chain (o % mf.wsiz))
  literal : ∀ r, (mf.matrix r 0).len = kMatchMinLen - 1

variable {inp : ℕ → UInt8} {inlen : ℕ} {mf : KiteMatchfinder}

/-- The ring index that the chain walk computes is the one of the candidate. -/
theorem ring_index {w c o : ℕ} (ho : o ≤ c) (hw : c - o < w) :
    (w + c % w - (c - o)) % w = o % w := by
  have hdiv := Nat.div_add_mod c w
  have hlt := Nat.mod_lt c (show 0 < w by omega)
  have hsum : w + c % w - (c - o) + w * (c / w) = o + w := by omega
  rw [← Nat.add_mul_mod_self_left _ w (c / w), hsum, Nat.add_mod_right]

def RowsMeet (P : KiteMatch → Prop) (k : ℕ) (row : ℕ → KiteMatch) : Prop :=
  1 ≤ k ∧ k ≤ 4 ∧ ∀ i, 1 ≤ i → i < k → P (row i)

theorem RowsMeet.push {P : KiteMatch → Prop} {k : ℕ} {row : ℕ → KiteMatch} {m : KiteMatch}
    (h : RowsMeet P k row) (hm : P m) :
    RowsMeet P ((if 4 ≤ k then k - 1 else k) + 1)
      fun i => if i = (if 4 ≤ k then k - 1 else k) then m else row i := by
  obtain ⟨h1, h4, hrow⟩ := h
  generalize hk : (if 4 ≤ k then k - 1 else k) = k'
  have hk' : 1 ≤ k' ∧ k' ≤ 3 ∧ k' ≤ k := by
    rw [← hk]
    split_ifs <;> omega
  refine ⟨by omega, by omega, ?_⟩
  intro i hi hlt
  by_cases heq : i = k'
  · simp only [heq, if_true]
    exact hm
  · simp only [heq, if_false]
    exact hrow i hi (by omega)

/-- The rows that a chain walk may have written: `k - 1` matches in front of `k`. -/
def RowOk (inp : ℕ → UInt8) (inlen cur k : ℕ) (row : ℕ → KiteMatch) : Prop :=
  1 ≤ k ∧ k ≤ 4 ∧ ∀ i, 1 ≤ i → i < k → MatchOk inp inlen cur (row i)

theorem RowOk.push {cur k : ℕ} {row : ℕ → KiteMatch} {m : KiteMatch}
    (h : RowOk inp inlen cur k row) (hm : MatchOk inp inlen cur m) :
    RowOk inp inlen cur ((if 4 ≤ k then k - 1 else k) + 1)
      fun i => if i = (if 4 ≤ k then k - 1 else k) then m else row i :=
  @RowsMeet.push (MatchOk inp inlen cur) k row m h hm

/-- What the chain walk needs of the match finder: every candidate leads to older ones. -/
def ChainsOk (inp : ℕ → UInt8) (inlen cur : ℕ) (mf : KiteMatchfinder) : Prop :=
  ∀ o < cur, cur < o + mf.wsiz → o + 3 ≤ inlen →
    mf.Older inp inlen o (hashBytes inp o) (mf.chain (o % mf.wsiz))

theorem Older.mono {o o' h v : ℕ} (hv : mf.Older inp inlen o h v) (ho : o ≤ o') :
    mf.Older inp inlen o' h v := by
  rcases hv with hv | ⟨o₁, hlt, rest⟩
  · exact Or.inl hv
  · exact Or.inr ⟨o₁, by omega, rest⟩

/-- A candidate that is not too far away is a position of this input. -/
theorem Older.candidate {cur p v h : ℕ} (hv : mf.Older inp inlen cur h v) (hp : p = mf.base + cur)
    (hfit : mf.base + cur < 2 ^ 32) (hdiff : sub32 p v < mf.wsiz) :
    ∃ o < cur, v = mf.base + o ∧ hashBytes inp o = h ∧ o + 3 ≤ inlen ∧ sub32 p v = cur - o := by
  rcases hv with hold | ⟨o, ho, rfl, hho, hoin⟩
  · rw [hp, sub32_of_le (by omega) hfit] at hdiff
    omega
  · refine ⟨o, ho, rfl, hho, hoin, ?_⟩
    rw [hp, sub32_of_le (by omega) hfit]
    omega

/-- The chain walk returns matches only, and keeps the literal in front of them. -/
theorem hc3Loop_ok {cur p hv : ℕ} (hp : p = mf.base + cur) (hfit : mf.base + cur < 2 ^ 32)
    (hw : mf.wsiz ≤ kHistorySize32) (hcyc : mf.cyclicPos = cur % mf.wsiz)
    (hchain : ChainsOk inp inlen cur mf) (hhv : hv ≤ 258) (hin : cur + hv ≤ inlen)
    {depth curMatch bestlen k : ℕ} {row : ℕ → KiteMatch}
    (hcur : mf.Older inp inlen cur (hashBytes inp cur) curMatch) (h2 : 2 ≤ bestlen)
    (hbest : bestlen + 1 ≤ hv) (hrow : RowOk inp inlen cur k row) :
    RowOk inp inlen cur (hc3Loop inp mf cur p hv depth curMatch bestlen k row).1
        (hc3Loop inp mf cur p hv depth curMatch bestlen k row).2 ∧
      (hc3Loop inp mf cur p hv depth curMatch bestlen k row).2 0 = row 0 := by
  induction depth generalizing curMatch bestlen k row with
  | zero => exact ⟨hrow, rfl⟩
  | succ depth ih =>
      rw [hc3Loop]
      simp only
      by_cases hdiff : mf.wsiz ≤ sub32 p curMatch
      · rw [if_pos hdiff]
        exact ⟨hrow, rfl⟩
      · rw [if_neg hdiff]
        obtain ⟨o, ho, rfl, hho, hoin, hdist⟩ := hcur.candidate hp hfit (Nat.not_le.mp hdiff)
        rw [hdist] at hdiff ⊢
        have hnext := hchain o ho (by omega) hoin
        rw [hcyc, ring_index (by omega) (by omega), Nat.add_sub_cancel_left]
        by_cases hagree : candidateAgrees inp cur o bestlen
        · rw [if_pos hagree]
          have hbytes := hagree.bytes hho.symm h2
          obtain ⟨n, hn, hsame⟩ : ∃ n, n = erofsMemcmp2 (fun i => inp (cur + bestlen + 1 + i))
                (fun i => inp (o + bestlen + 1 + i)) (cur + bestlen + 1) (o + bestlen + 1)
                (hv - bestlen - 1) ∧
              SamePrefix (fun i => inp (cur + bestlen + 1 + i))
                (fun i => inp (o + bestlen + 1 + i)) (hv - bestlen - 1) n :=
            ⟨_, rfl, (erofsMemcmp2_spec _ _ _).1⟩
          rw [← hn]
          have hnle := hsame.le
          have hm : MatchOk inp inlen cur ⟨bestlen + 1 + n, cur - o⟩ := by
            refine ⟨by simp only; omega, by simp only; omega, by simp only; omega,
              by simp only; omega, ?_, by simp only; omega, ?_⟩
            · have : mf.wsiz ≤ kHistorySize32 := hw
              simp only
              omega
            · intro i hi
              have hi' : i < bestlen + 1 + n := hi
              simp only
              rw [show cur + i - (cur - o) = o + i by omega]
              rcases Nat.lt_or_ge bestlen i with hlt | hge
              · have := hsame.eq (i - bestlen - 1) (by omega)
                rwa [show cur + bestlen + 1 + (i - bestlen - 1) = cur + i by omega,
                  show o + bestlen + 1 + (i - bestlen - 1) = o + i by omega] at this
              · exact hbytes i hge
          have hpush := hrow.push hm
          have hzero : (0 : ℕ) ≠ (if 4 ≤ k then k - 1 else k) := by
            have := hrow.1
            split_ifs <;> omega
          by_cases hlong : hv ≤ bestlen + 1 + n
          · rw [if_pos hlong]
            exact ⟨hpush, if_neg hzero⟩
          · rw [if_neg hlong]
            obtain ⟨hres, hlit⟩ := @ih _ (bestlen + 1 + n) _ _ (hho ▸ hnext.mono (by omega))
              (by omega) (by omega) hpush
            exact ⟨hres, hlit.trans (if_neg hzero)⟩
        · rw [if_neg hagree]
          exact ih (hho ▸ hnext.mono (by omega)) h2 hbest hrow

/-- What a search or a skip leaves alone. -/
structure Follows (mf mf' : KiteMatchfinder) : Prop where
  base : mf'.base = mf.base
  niceLen : mf'.niceLen = mf.niceLen
  wsiz : mf'.wsiz = mf.wsiz
  depth : mf'.depth = mf.depth
  maxLazy : mf'.maxLazy = mf.maxLazy
  goodLen : mf'.goodLen = mf.goodLen
  row : mf'.row = mf.row
  other : mf'.matrix (!mf.row) = mf.matrix (!mf.row)
  literal : mf'.matrix mf.row 0 = mf.matrix mf.row 0

theorem Follows.refl (mf : KiteMatchfinder) : Follows mf mf :=
  ⟨rfl, rfl, rfl, rfl, rfl, rfl, rfl, rfl, rfl⟩

theorem Follows.trans {mf₁ mf₂ mf₃ : KiteMatchfinder} (h₁ : Follows mf₁ mf₂)
    (h₂ : Follows mf₂ mf₃) : Follows mf₁ mf₃ where
  base := h₂.base.trans h₁.base
  niceLen := h₂.niceLen.trans h₁.niceLen
  wsiz := h₂.wsiz.trans h₁.wsiz
  depth := h₂.depth.trans h₁.depth
  maxLazy := h₂.maxLazy.trans h₁.maxLazy
  goodLen := h₂.goodLen.trans h₁.goodLen
  row := h₂.row.trans h₁.row
  other := by rw [← h₁.other, ← h₁.row, h₂.other]
  literal := by rw [← h₁.literal, ← h₁.row, h₂.literal]

theorem mod_ne_of_near {w a b : ℕ} (hlt : a < b) (hw : b < a + w) : a % w ≠ b % w := by
  intro heq
  have ha := Nat.div_add_mod a w
  have hb := Nat.div_add_mod b w
  rcases Nat.lt_or_ge (a / w) (b / w) with hq | hq
  · have := Nat.mul_le_mul_left w hq
    rw [Nat.mul_succ] at this
    omega
  · have := Nat.mul_le_mul_left w hq
    omega

/-- The match finder once `hash` and `chain` know the position `offset`. -/
def entered (mf : KiteMatchfinder) (inp : ℕ → UInt8) : KiteMatchfinder :=
  { mf with
    hash := setAt mf.hash (hashBytes inp mf.offset) (mf.base + mf.offset)
    chain := setAt mf.chain mf.cyclicPos (mf.hash (hashBytes inp mf.offset)) }

/-- The entry of the current position does not overwrite one that is still in reach. -/
theorem Ok.chainsOk (h : mf.Ok inp inlen) (hin : mf.offset + 3 ≤ inlen) :
    ChainsOk inp inlen mf.offset (mf.entered inp) := by
  intro o ho hnear hoin
  have hne : o % mf.wsiz ≠ mf.cyclicPos := by
    rw [h.cyclic hin]
    exact mod_ne_of_near ho hnear
  have hold := h.chain o ho (le_of_lt hnear) hoin
  rw [← setAt_of_ne mf.chain (mf.hash (hashBytes inp mf.offset)) hne] at hold
  exact hold

theorem Ok.enter (h : mf.Ok inp inlen) (hin : mf.offset + 3 ≤ inlen) {row : ℕ → KiteMatch}
    (hlit : row 0 = mf.matchesRow 0) :
    Ok inp inlen { mf.entered inp with
      matrix := fun r i => if r = mf.row then row i else mf.matrix r i
      offset := mf.offset + 1
      cyclicPos := (mf.cyclicPos + 1) % mf.wsiz } := by
  have hcyc := h.cyclic hin
  refine ⟨h.wsiz_pos, h.wsiz_le, h.nice_le, h.fits, ?_, ?_, ?_, ?_⟩
  · intro _
    simp only [hcyc, Nat.mod_add_mod, entered]
  · intro v
    by_cases hv : v = hashBytes inp mf.offset
    · subst hv
      refine Or.inr ⟨mf.offset, by simp only; omega, ?_, rfl, hin⟩
      exact setAt_self _ _ _
    · have := (h.hash v).mono (show mf.offset ≤ mf.offset + 1 by omega)
      rw [← setAt_of_ne mf.hash (mf.base + mf.offset) hv] at this
      exact this
  · intro o ho hnear hoin
    simp only at ho hnear
    by_cases heq : o = mf.offset
    · subst heq
      have hself : setAt mf.chain mf.cyclicPos (mf.hash (hashBytes inp mf.offset))
          (mf.offset % mf.wsiz) = mf.hash (hashBytes inp mf.offset) := by
        rw [hcyc]
        exact setAt_self _ _ _
      have := h.hash (hashBytes inp mf.offset)
      rw [← hself] at this
      exact this
    · exact h.chainsOk hin o (by omega) (by omega) hoin
  · intro r
    by_cases hr : r = mf.row
    · simp only [hr, if_true, hlit]
      exact h.literal _
    · simp only [hr, if_false]
      exact h.literal _

theorem kiteMfGetmatchesHc3_none {depth bestlen : ℕ} (h : inlen < mf.offset + (bestlen + 1)) :
    kiteMfGetmatchesHc3 inp inlen mf depth bestlen = (mf, none) := if_pos h

/-- A search that is far enough from the end enters its position and returns matches only. -/
theorem Ok.getmatches (h : mf.Ok inp inlen) {depth bestlen : ℕ} (h2 : 2 ≤ bestlen)
    (hnice : bestlen + 1 ≤ mf.niceLen) (hin : mf.offset + (bestlen + 1) ≤ inlen) :
    ∃ mf' k, kiteMfGetmatchesHc3 inp inlen mf depth bestlen = (mf', some k) ∧
      mf'.Ok inp inlen ∧ Follows mf mf' ∧ mf'.offset = mf.offset + 1 ∧
      ∀ i, 1 ≤ i → i ≤ k → MatchOk inp inlen mf.offset (mf'.matchesRow i) := by
  have hfits := h.fits
  have hu : u32 (mf.base + mf.offset) = mf.base + mf.offset := Nat.mod_eq_of_lt (by omega)
  generalize hres : hc3Loop inp (mf.entered inp) mf.offset (mf.base + mf.offset)
    (min mf.niceLen (inlen - mf.offset)) depth (mf.hash (hashBytes inp mf.offset)) bestlen 1
    mf.matchesRow = res
  obtain ⟨⟨hk1, -, hrow⟩, hlit⟩ : RowOk inp inlen mf.offset res.1 res.2 ∧
      res.2 0 = mf.matchesRow 0 := by
    rw [← hres]
    have hsum : mf.base + mf.offset < 2 ^ 32 := by omega
    have hlt : (mf.entered inp).base + mf.offset < 2 ^ 32 := hsum
    have hhv : min mf.niceLen (inlen - mf.offset) ≤ 258 := (Nat.min_le_left _ _).trans h.nice_le
    exact hc3Loop_ok rfl hlt h.wsiz_le (h.cyclic (by omega)) (h.chainsOk (by omega))
      hhv (by omega) (h.hash _) h2 (by omega) ⟨le_refl 1, by omega, by omega⟩
  refine ⟨_, res.1 - 1, ?_, h.enter (by omega) hlit, ?_, rfl, ?_⟩
  · unfold kiteMfGetmatchesHc3
    rw [if_neg (by omega)]
    simp only [hu]
    rw [← hres]
    rfl
  · refine ⟨rfl, rfl, rfl, rfl, rfl, rfl, rfl, ?_, ?_⟩
    · funext i
      exact if_neg (by simp)
    · exact (if_pos rfl).trans hlit
  · intro i hi hk
    have := hrow i hi (by omega)
    simpa only [matchesRow, entered, if_true] using this

/-- A skip enters its position or is behind the last one that has three bytes. -/
theorem Ok.skip (h : mf.Ok inp inlen) (hnice : 3 ≤ mf.niceLen) :
    (kiteMfHc3Skip inp inlen mf).Ok inp inlen ∧ Follows mf (kiteMfHc3Skip inp inlen mf) ∧
      (kiteMfHc3Skip inp inlen mf).offset = mf.offset + 1 := by
  unfold kiteMfHc3Skip
  by_cases hin : mf.offset + (2 + 1) ≤ inlen
  · obtain ⟨mf', k, hget, hok, hfol, hoff, -⟩ := h.getmatches (le_refl 2) hnice hin
    rw [hget]
    exact ⟨hok, hfol, hoff⟩
  · rw [kiteMfGetmatchesHc3_none (by omega)]
    refine ⟨⟨h.wsiz_pos, h.wsiz_le, h.nice_le, h.fits, ?_, ?_, ?_, h.literal⟩, ?_, rfl⟩
    · intro hlt
      simp only at hlt
      omega
    · exact fun v => (h.hash v).mono (Nat.le_succ _)
    · intro o ho hnear hoin
      simp only at ho hnear
      exact h.chain o (by omega) (by omega) hoin
    · exact ⟨rfl, rfl, rfl, rfl, rfl, rfl, rfl, rfl, rfl⟩

theorem Ok.skips (h : mf.Ok inp inlen) (hnice : 3 ≤ mf.niceLen) (n : ℕ) :
    (kiteMfSkips inp inlen n mf).Ok inp inlen ∧ Follows mf (kiteMfSkips inp inlen n mf) ∧
      (kiteMfSkips inp inlen n mf).offset = mf.offset + n := by
  induction n generalizing mf with
  | zero => exact ⟨h, Follows.refl mf, rfl⟩
  | succ n ih =>
      obtain ⟨hok, hfol, hoff⟩ := h.skip hnice
      obtain ⟨hok', hfol', hoff'⟩ := ih hok (hfol.niceLen ▸ hnice)
      refine ⟨hok', hfol.trans hfol', ?_⟩
      rw [kiteMfSkips, hoff', hoff]
      omega

end KiteMatchfinder

end ErofsUtils
