import ErofsUtils.KiteFinder
import ErofsUtils.Memcmp2

/-!
# One search of the match finder

The bytes of the buffer that `kite_mf_getmatches_hc3` reads, and what it reports. A candidate is
read at `qbase + curMatch` before anything is known of it but its distance, so the walk stays in
the buffer because of what `hash` and `chain` hold.
-/

namespace ErofsUtils

section Reads

variable (inp : ℕ → UInt8)

def candidateReads (cur : ℕ) (q : ℤ) (bestlen : ℕ) : List ℤ :=
  [q, q + 1] ++
    if getUnaligned16 inp cur = getUnaligned16 inp q.toNat ∧ 3 ≤ bestlen then
      [(cur + bestlen - 1 : ℤ), cur + bestlen, q + bestlen - 1, q + bestlen] ++
        if getUnaligned16 inp (cur + bestlen - 1) = getUnaligned16 inp (q.toNat + bestlen - 1) then
          (List.range (bestlen - 3)).flatMap fun i : ℕ => [(cur + 3 + i : ℤ), q + 3 + i]
        else []
    else []

/-- What `erofs_memcmp2` reads behind the `bestlen + 1` bytes that agree, in a buffer at the
address `buf`, and `cur[2]` and `q[2]`. -/
def extendReads (buf cur : ℕ) (q : ℤ) (bestlen hv : ℕ) : List ℤ :=
  [(cur + 2 : ℤ), q + 2] ++
    (erofsMemcmp2Reads (fun i => inp (cur + bestlen + 1 + i))
      (fun i => inp (q.toNat + bestlen + 1 + i)) (buf + cur + bestlen + 1)
      (buf + q.toNat + bestlen + 1) (hv - bestlen - 1)).flatMap fun i : ℕ =>
        [(cur + bestlen + 1 + i : ℤ), q + bestlen + 1 + i]

def hc3LoopReads (buf : ℕ) (mf : KiteMatchfinder) (cur p hv : ℕ) : ℕ → ℕ → ℕ → List ℤ
  | 0, _, _ => []
  | depth + 1, curMatch, bestlen =>
      let diff := sub32 p curMatch
      if mf.wsiz ≤ diff then []
      else
        let q : ℤ := curMatch - mf.base
        let next := mf.chain ((mf.wsiz + mf.cyclicPos - diff) % mf.wsiz)
        candidateReads inp cur q bestlen ++
          if candidateAgrees inp cur q.toNat bestlen then
            let bestlen' := bestlen + 1 + erofsMemcmp2 (fun i => inp (cur + bestlen + 1 + i))
              (fun i => inp (q.toNat + bestlen + 1 + i)) (cur + bestlen + 1)
              (q.toNat + bestlen + 1) (hv - bestlen - 1)
            extendReads inp buf cur q bestlen hv ++
              if hv ≤ bestlen' then [] else hc3LoopReads buf mf cur p hv depth next bestlen'
          else hc3LoopReads buf mf cur p hv depth next bestlen

/-- What `kite_mf_getmatches_hc3` reads of the buffer, as distances from its start. -/
def kiteMfGetmatchesHc3Reads (buf inlen : ℕ) (mf : KiteMatchfinder) (depth bestlen : ℕ) : List ℤ :=
  if inlen < mf.offset + (bestlen + 1) then []
  else
    let cur := mf.offset
    let h := hashBytes inp cur
    let p := u32 (mf.base + cur)
    let mf₁ := { mf with
      hash := setAt mf.hash h p
      chain := setAt mf.chain mf.cyclicPos (mf.hash h) }
    [(cur : ℤ), cur + 1, cur + 2] ++
      hc3LoopReads inp buf mf₁ cur p (min mf.niceLen (inlen - cur)) depth (mf.hash h) bestlen

end Reads

/-- A match that a search at `offset` may report: longer than `bestlen`, no longer than the search
goes, and a repetition of the bytes `dist` in front of it, inside the window and the buffer. -/
structure Reported (inp : ℕ → UInt8) (inlen : ℕ) (mf : KiteMatchfinder) (bestlen : ℕ)
    (m : KiteMatch) : Prop where
  lt_len : bestlen < m.len
  len_le : m.len ≤ min mf.niceLen (inlen - mf.offset)
  dist_pos : 1 ≤ m.dist
  dist_lt : m.dist < mf.wsiz
  dist_le : m.dist ≤ mf.offset
  same : ∀ i < m.len, inp (mf.offset + i) = inp (mf.offset + i - m.dist)

structure SearchSound (inp : ℕ → UInt8) (buf inlen : ℕ) (mf : KiteMatchfinder)
    (depth bestlen : ℕ) : Prop where
  reads : ∀ x ∈ kiteMfGetmatchesHc3Reads inp buf inlen mf depth bestlen, 0 ≤ x ∧ x < inlen
  reported : ∀ k, (kiteMfGetmatchesHc3 inp inlen mf depth bestlen).2 = some k → ∀ i, 1 ≤ i → i ≤ k →
    Reported inp inlen mf bestlen ((kiteMfGetmatchesHc3 inp inlen mf depth bestlen).1.matchesRow i)

namespace KiteMatchfinder

variable {inp : ℕ → UInt8} {buf inlen : ℕ} {mf : KiteMatchfinder}

theorem candidateReads_inside {cur o bestlen : ℕ} (ho : o < cur) (h2 : 2 ≤ bestlen)
    (hin : cur + bestlen < inlen) :
    ∀ x ∈ candidateReads inp cur o bestlen, 0 ≤ x ∧ x < inlen := by
  intro x hx
  unfold candidateReads at hx
  rcases List.mem_append.mp hx with hx | hx
  · simp only [List.mem_cons, List.not_mem_nil, or_false] at hx
    omega
  · split_ifs at hx with hv hlast
    · rcases List.mem_append.mp hx with hx | hx
      · simp only [List.mem_cons, List.not_mem_nil, or_false] at hx
        omega
      · obtain ⟨i, hi, hx⟩ := List.mem_flatMap.mp hx
        have hlt := List.mem_range.mp hi
        simp only [List.mem_cons, List.not_mem_nil, or_false] at hx
        omega
    · simp only [List.append_nil, List.mem_cons, List.not_mem_nil, or_false] at hx
      omega
    · cases hx

theorem extendReads_inside {cur o bestlen hv : ℕ} (ho : o < cur) (h2 : 2 ≤ bestlen)
    (hbest : bestlen + 1 ≤ hv) (hin : cur + hv ≤ inlen) :
    ∀ x ∈ extendReads inp buf cur o bestlen hv, 0 ≤ x ∧ x < inlen := by
  intro x hx
  unfold extendReads at hx
  rcases List.mem_append.mp hx with hx | hx
  · simp only [List.mem_cons, List.not_mem_nil, or_false] at hx
    omega
  · obtain ⟨i, hi, hx⟩ := List.mem_flatMap.mp hx
    have hlt := lt_of_mem_erofsMemcmp2Reads hi
    simp only [List.mem_cons, List.not_mem_nil, or_false] at hx
    omega

theorem hc3LoopReads_inside {cur p hv : ℕ} (hp : p = mf.base + cur)
    (hfit : mf.base + cur < 2 ^ 32) (hcyc : mf.cyclicPos = cur % mf.wsiz)
    (hchain : ChainsOk inp inlen cur mf) (hin : cur + hv ≤ inlen) {depth curMatch bestlen : ℕ}
    (hcur : mf.Older inp inlen cur (hashBytes inp cur) curMatch) (h2 : 2 ≤ bestlen)
    (hbest : bestlen + 1 ≤ hv) :
    ∀ x ∈ hc3LoopReads inp buf mf cur p hv depth curMatch bestlen, 0 ≤ x ∧ x < inlen := by
  induction depth generalizing curMatch bestlen with
  | zero => exact fun x hx => absurd hx List.not_mem_nil
  | succ depth ih =>
      intro x hx
      rw [hc3LoopReads] at hx
      simp only at hx
      by_cases hdiff : mf.wsiz ≤ sub32 p curMatch
      · rw [if_pos hdiff] at hx
        exact absurd hx List.not_mem_nil
      · rw [if_neg hdiff] at hx
        obtain ⟨o, ho, rfl, hho, hoin, hdist⟩ := hcur.candidate hp hfit (Nat.not_le.mp hdiff)
        have hq : ((mf.base + o : ℕ) : ℤ) - mf.base = o := by omega
        rw [hdist] at hdiff hx
        rw [hq, Int.toNat_natCast, hcyc, ring_index (by omega) (by omega)] at hx
        have hnext := hchain o ho (by omega) hoin
        rcases List.mem_append.mp hx with hx | hx
        · exact candidateReads_inside ho h2 (by omega) x hx
        · split_ifs at hx with hagree hlong
          · rw [List.append_nil] at hx
            exact extendReads_inside ho h2 hbest hin x hx
          · rcases List.mem_append.mp hx with hx | hx
            · exact extendReads_inside ho h2 hbest hin x hx
            · exact ih (hho ▸ hnext.mono (by omega)) (by omega) (by omega) x hx
          · exact ih (hho ▸ hnext.mono (by omega)) h2 hbest x hx

/-- Every match of the chain walk is longer than asked for and ends where the search does. -/
theorem hc3Loop_bounds {cur p hv len : ℕ} {depth curMatch bestlen k : ℕ} {row : ℕ → KiteMatch}
    (hlen : len ≤ bestlen) (hbest : bestlen + 1 ≤ hv)
    (hrow : RowsMeet (fun m => len < m.len ∧ m.len ≤ hv ∧ m.dist < mf.wsiz) k row) :
    RowsMeet (fun m => len < m.len ∧ m.len ≤ hv ∧ m.dist < mf.wsiz)
      (hc3Loop inp mf cur p hv depth curMatch bestlen k row).1
      (hc3Loop inp mf cur p hv depth curMatch bestlen k row).2 := by
  induction depth generalizing curMatch bestlen k row with
  | zero => exact hrow
  | succ depth ih =>
      rw [hc3Loop]
      simp only
      by_cases hdiff : mf.wsiz ≤ sub32 p curMatch
      · rw [if_pos hdiff]
        exact hrow
      · rw [if_neg hdiff]
        generalize curMatch - mf.base = q
        by_cases hagree : candidateAgrees inp cur q bestlen
        · rw [if_pos hagree]
          have hle := (@erofsMemcmp2_spec (fun i => inp (cur + bestlen + 1 + i))
            (fun i => inp (q + bestlen + 1 + i)) (cur + bestlen + 1) (q + bestlen + 1)
            (hv - bestlen - 1)).1.le
          generalize erofsMemcmp2 (fun i => inp (cur + bestlen + 1 + i))
            (fun i => inp (q + bestlen + 1 + i)) (cur + bestlen + 1) (q + bestlen + 1)
            (hv - bestlen - 1) = n at hle ⊢
          have hpush := @RowsMeet.push _ k row ⟨bestlen + 1 + n, sub32 p curMatch⟩ hrow
            ⟨by simp only; omega, by simp only; omega, Nat.not_le.mp hdiff⟩
          by_cases hlong : hv ≤ bestlen + 1 + n
          · rw [if_pos hlong]
            exact hpush
          · rw [if_neg hlong]
            exact ih (by omega) (by omega) hpush
        · rw [if_neg hagree]
          exact ih hlen hbest hrow

/-- Every match of a search is longer than asked for and ends where the search does. -/
theorem Ok.getmatches_bounds (h : mf.Ok inp inlen) {depth bestlen k : ℕ}
    (hnice : bestlen < mf.niceLen) (hin : mf.offset + (bestlen + 1) ≤ inlen)
    (hk : (kiteMfGetmatchesHc3 inp inlen mf depth bestlen).2 = some k) :
    ∀ i, 1 ≤ i → i ≤ k →
      bestlen < ((kiteMfGetmatchesHc3 inp inlen mf depth bestlen).1.matchesRow i).len ∧
      ((kiteMfGetmatchesHc3 inp inlen mf depth bestlen).1.matchesRow i).len ≤
        min mf.niceLen (inlen - mf.offset) ∧
      ((kiteMfGetmatchesHc3 inp inlen mf depth bestlen).1.matchesRow i).dist < mf.wsiz := by
  have hbounds := @hc3Loop_bounds inp (mf.entered inp) mf.offset (u32 (mf.base + mf.offset))
    (min mf.niceLen (inlen - mf.offset)) bestlen depth (mf.hash (hashBytes inp mf.offset)) bestlen 1
    mf.matchesRow le_rfl (by omega) ⟨le_rfl, by decide, fun i hi hlt => absurd hlt (by omega)⟩
  have hfits := h.fits
  have hu : u32 (mf.base + mf.offset) = mf.base + mf.offset := Nat.mod_eq_of_lt (by omega)
  rw [hu] at hbounds
  obtain ⟨hone, -, hrow⟩ := hbounds
  intro i hi hik
  unfold kiteMfGetmatchesHc3 at hk ⊢
  rw [if_neg (by omega)] at hk ⊢
  simp only [hu] at hk ⊢
  change some ((hc3Loop inp (mf.entered inp) mf.offset (mf.base + mf.offset)
    (min mf.niceLen (inlen - mf.offset)) depth (mf.hash (hashBytes inp mf.offset)) bestlen 1
    mf.matchesRow).1 - 1) = some k at hk
  have hlast := Option.some.inj hk
  have hmatch := hrow i hi (by omega)
  simpa only [matchesRow, entered, if_true] using hmatch

/-- A search that is in step reads the buffer only, and reports repetitions only. -/
theorem Ok.getmatches_sound (h : mf.Ok inp inlen) {depth bestlen : ℕ} (h2 : 2 ≤ bestlen)
    (hnice : bestlen < mf.niceLen) : SearchSound inp buf inlen mf depth bestlen := by
  by_cases hin : inlen < mf.offset + (bestlen + 1)
  · refine ⟨?_, ?_⟩
    · intro x hx
      rw [kiteMfGetmatchesHc3Reads, if_pos hin] at hx
      exact absurd hx List.not_mem_nil
    · intro k hk
      rw [kiteMfGetmatchesHc3_none hin] at hk
      exact absurd hk (by simp)
  · obtain ⟨mf', k', hget, -, -, -, hmatches⟩ := @Ok.getmatches inp inlen mf h depth bestlen h2
      (by omega) (by omega)
    refine ⟨?_, ?_⟩
    · intro x hx
      have hfits := h.fits
      have hu : u32 (mf.base + mf.offset) = mf.base + mf.offset := Nat.mod_eq_of_lt (by omega)
      rw [kiteMfGetmatchesHc3Reads, if_neg hin] at hx
      simp only [hu] at hx
      rcases List.mem_append.mp hx with hx | hx
      · simp only [List.mem_cons, List.not_mem_nil, or_false] at hx
        omega
      · have hsum : (mf.entered inp).base + mf.offset < 2 ^ 32 := by
          change mf.base + mf.offset < 2 ^ 32
          omega
        exact hc3LoopReads_inside rfl hsum (h.cyclic (by omega)) (h.chainsOk (by omega)) (by omega)
          (h.hash _) h2 (by omega) x hx
    · intro k hk i hi hik
      have hbounds := h.getmatches_bounds hnice (by omega) hk i hi hik
      rw [hget] at hk hbounds ⊢
      obtain rfl : k' = k := Option.some.inj hk
      have hmatch := hmatches i hi hik
      exact ⟨hbounds.1, hbounds.2.1, hmatch.dist_pos, hbounds.2.2, hmatch.dist_le, hmatch.same⟩

end KiteMatchfinder

end ErofsUtils
