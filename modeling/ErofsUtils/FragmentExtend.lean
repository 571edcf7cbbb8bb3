import ErofsUtils.Dedupe

/-!
# Extending a match in the packed file

The last loop of `z_erofs_fragments_dedupe_find` goes backwards from a match, in the packed file and
in the source, as long as the chunks in front of it are the same. `deduped` has 32 bits, and so has
the position from which the size of a chunk is computed.
-/

namespace ErofsUtils

/-- `pread` of `n` bytes, all of which must come; an offset from `2 ^ 63` on is negative. -/
def preadWhole (data : List UInt8) (offset n : ℕ) : Option (List UInt8) :=
  if 2 ^ 63 ≤ offset then none
  else if (bytesAt data offset n).length = n then some (bytesAt data offset n)
  else none

/-- Both reads of a turn give `sz` bytes, the same ones. -/
def ChunkEqual (packed file : List UInt8) (iSize deduped pos sz : ℕ) : Prop :=
  preadWhole packed (sub64 pos sz) sz ≠ none ∧
    preadWhole file (sub64 (sub64 iSize deduped) sz) sz = preadWhole packed (sub64 pos sz) sz

instance (packed file : List UInt8) (iSize deduped pos sz : ℕ) :
    Decidable (ChunkEqual packed file iSize deduped pos sz) :=
  inferInstanceAs (Decidable (_ ∧ _))

def chunkSize (pos : ℕ) : ℕ := min (u32 pos) 16384

/-- The loop with at most `fuel` turns; `none` when it has not ended by then. -/
def extendLoop (packed file : List UInt8) (iSize : ℕ) : ℕ → ℕ → ℕ → Option (ℕ × ℕ)
  | 0, _, _ => none
  | fuel + 1, deduped, pos =>
    if (deduped < iSize ∧ pos ≠ 0) ∧ ChunkEqual packed file iSize deduped pos (chunkSize pos) then
      extendLoop packed file iSize fuel (u32 (deduped + chunkSize pos)) (sub64 pos (chunkSize pos))
    else some (deduped, pos)

/-- The loop ends, and both counters have moved by the same amount. -/
def ExtendsExactly (packed file : List UInt8) (iSize deduped pos : ℕ) : Prop :=
  ∃ fuel n deduped' pos', extendLoop packed file iSize fuel deduped pos = some (deduped', pos') ∧
    pos' + n = pos ∧ deduped' = deduped + n

/-- The `n` bytes in front of `pos` in the packed file are those in front of the last `deduped` bytes
of the source. -/
structure SameBefore (packed file : List UInt8) (iSize deduped pos n : ℕ) : Prop where
  packed_le : n ≤ pos
  file_le : deduped + n ≤ iSize
  same : ∀ i < n, ∃ c, packed[pos - 1 - i]? = some c ∧ file[iSize - deduped - 1 - i]? = some c

/-- `n` bytes are whole chunks, or all bytes down to a multiple of `2 ^ 32`. -/
def ChunkEnd (pos n : ℕ) : Prop := n ≤ pos % 2 ^ 32 ∧ (16384 ∣ n ∨ n = pos % 2 ^ 32)

/-- The match goes on to a positive multiple of `2 ^ 32`, and not to the beginning of the source. -/
def Stuck (packed file : List UInt8) (iSize deduped pos : ℕ) : Prop :=
  2 ^ 32 ≤ pos ∧ SameBefore packed file iSize deduped pos (pos % 2 ^ 32) ∧
    deduped + pos % 2 ^ 32 < iSize

/-- The length of the match leaves 32 bits. -/
def Wraps (packed file : List UInt8) (iSize deduped pos : ℕ) : Prop :=
  ∃ n, ChunkEnd pos n ∧ SameBefore packed file iSize deduped pos n ∧ 2 ^ 32 ≤ deduped + n

section Chunks

variable {packed file : List UInt8} {iSize deduped pos : ℕ}

theorem bytesAt_getElem? (data : List UInt8) (a n i : ℕ) :
    (bytesAt data a n)[i]? = if i < n then data[a + i]? else none := by
  rw [bytesAt, List.getElem?_take, List.getElem?_drop]

theorem preadWhole_eq_some {data : List UInt8} {offset n : ℕ} (hoff : offset < 2 ^ 63)
    {buf : List UInt8} : preadWhole data offset n = some buf ↔
      buf.length = n ∧ ∀ i < n, data[offset + i]? = buf[i]? := by
  rw [preadWhole, if_neg (by omega)]
  constructor
  · intro h
    split at h
    next hlen =>
      obtain rfl := Option.some.inj h
      refine ⟨hlen, ?_⟩
      intro i hi
      rw [bytesAt_getElem?, if_pos hi]
    · cases h
  · rintro ⟨hlen, hsame⟩
    have heq : bytesAt data offset n = buf := by
      apply List.ext_getElem?
      intro i
      rw [bytesAt_getElem?]
      split
      next hi => exact hsame i hi
      · exact (List.getElem?_eq_none (by omega)).symm
    rw [heq, if_pos hlen]

theorem chunkEqual_iff_exists {sz : ℕ} :
    ChunkEqual packed file iSize deduped pos sz ↔
      ∃ buf, preadWhole packed (sub64 pos sz) sz = some buf ∧
        preadWhole file (sub64 (sub64 iSize deduped) sz) sz = some buf := by
  constructor
  · rintro ⟨hne, heq⟩
    obtain ⟨buf, hbuf⟩ := Option.ne_none_iff_exists'.mp hne
    exact ⟨buf, hbuf, heq.trans hbuf⟩
  · rintro ⟨buf, hp, hf⟩
    exact ⟨by rw [hp]; exact Option.some_ne_none buf, hf.trans hp.symm⟩

theorem chunkEqual_iff (hpos : pos < 2 ^ 63) (hsize : iSize < 2 ^ 63) {sz : ℕ} (hsz : sz ≤ pos)
    (hded : deduped < iSize) (hsz64 : sz < 2 ^ 32) :
    ChunkEqual packed file iSize deduped pos sz ↔ SameBefore packed file iSize deduped pos sz := by
  have hoff : sub64 pos sz = pos - sz := sub64_of_le hsz (by omega)
  have hrest : sub64 iSize deduped = iSize - deduped := sub64_of_le hded.le (by omega)
  rw [chunkEqual_iff_exists, hoff, hrest]
  by_cases hle : deduped + sz ≤ iSize
  · have hoff' : sub64 (iSize - deduped) sz = iSize - deduped - sz :=
      sub64_of_le (by omega) (by omega)
    rw [hoff']
    simp only [preadWhole_eq_some (show pos - sz < 2 ^ 63 by omega),
      preadWhole_eq_some (show iSize - deduped - sz < 2 ^ 63 by omega)]
    constructor
    · rintro ⟨buf, ⟨hlen, hp⟩, -, hf⟩
      refine ⟨hsz, hle, ?_⟩
      intro i hi
      have hat : pos - sz + (sz - 1 - i) = pos - 1 - i := by omega
      have hat' : iSize - deduped - sz + (sz - 1 - i) = iSize - deduped - 1 - i := by omega
      have hp' := hp (sz - 1 - i) (by omega)
      have hf' := hf (sz - 1 - i) (by omega)
      obtain ⟨c, hc⟩ : ∃ c, buf[sz - 1 - i]? = some c :=
        ⟨_, List.getElem?_eq_getElem (by omega)⟩
      rw [hat, hc] at hp'
      rw [hat', hc] at hf'
      exact ⟨c, hp', hf'⟩
    · rintro ⟨-, -, hsame⟩
      have hget : ∀ i < sz, ∃ c, packed[pos - sz + i]? = some c ∧
          file[iSize - deduped - sz + i]? = some c := by
        intro i hi
        obtain ⟨c, hc, hc'⟩ := hsame (sz - 1 - i) (by omega)
        have hat : pos - 1 - (sz - 1 - i) = pos - sz + i := by omega
        have hat' : iSize - deduped - 1 - (sz - 1 - i) = iSize - deduped - sz + i := by omega
        rw [hat] at hc
        rw [hat'] at hc'
        exact ⟨c, hc, hc'⟩
      have hlen : (bytesAt packed (pos - sz) sz).length = sz := by
        rw [length_bytesAt]
        by_cases hz : sz = 0
        · omega
        · obtain ⟨c, hc, -⟩ := hget (sz - 1) (by omega)
          have hlt := (List.getElem?_eq_some_iff.mp hc).1
          omega
      refine ⟨bytesAt packed (pos - sz) sz, ⟨hlen, ?_⟩, hlen, ?_⟩
      · intro i hi
        rw [bytesAt_getElem?, if_pos hi]
      · intro i hi
        obtain ⟨c, hc, hc'⟩ := hget i hi
        rw [bytesAt_getElem?, if_pos hi, hc, hc']
  · -- the offset in the source is negative
    have hneg : preadWhole file (sub64 (iSize - deduped) sz) sz = none := by
      apply if_pos
      rw [sub64]
      omega
    rw [hneg]
    constructor
    · rintro ⟨buf, -, h⟩
      cases h
    · exact fun h => absurd h.file_le hle

theorem sameBefore_add {sz : ℕ} (hsz : SameBefore packed file iSize deduped pos sz) (n : ℕ) :
    SameBefore packed file iSize deduped pos (sz + n) ↔
      SameBefore packed file iSize (deduped + sz) (pos - sz) n := by
  have hp := hsz.packed_le
  have hf := hsz.file_le
  constructor
  · intro h
    have hp' := h.packed_le
    have hf' := h.file_le
    refine ⟨by omega, by omega, ?_⟩
    intro i hi
    have hat : pos - sz - 1 - i = pos - 1 - (sz + i) := by omega
    have hat' : iSize - (deduped + sz) - 1 - i = iSize - deduped - 1 - (sz + i) := by omega
    rw [hat, hat']
    exact h.same (sz + i) (by omega)
  · intro h
    have hp' := h.packed_le
    have hf' := h.file_le
    refine ⟨by omega, by omega, ?_⟩
    intro i hi
    by_cases hlt : i < sz
    · exact hsz.same i hlt
    · have hat : pos - 1 - i = pos - sz - 1 - (i - sz) := by omega
      have hat' : iSize - deduped - 1 - i = iSize - (deduped + sz) - 1 - (i - sz) := by omega
      rw [hat, hat']
      exact h.same (i - sz) (by omega)

theorem SameBefore.mono {n m : ℕ} (h : SameBefore packed file iSize deduped pos n) (hm : m ≤ n) :
    SameBefore packed file iSize deduped pos m :=
  ⟨hm.trans h.packed_le, (Nat.add_le_add_left hm _).trans h.file_le, fun i hi => h.same i (by omega)⟩

end Chunks

section Loop

variable {packed file : List UInt8} {iSize deduped pos : ℕ}

theorem extendLoop_exit (hexit : ¬((deduped < iSize ∧ pos ≠ 0) ∧
    ChunkEqual packed file iSize deduped pos (chunkSize pos))) (fuel : ℕ) :
    extendLoop packed file iSize (fuel + 1) deduped pos = some (deduped, pos) :=
  if_neg hexit

theorem extendLoop_go (hgo : (deduped < iSize ∧ pos ≠ 0) ∧
    ChunkEqual packed file iSize deduped pos (chunkSize pos)) (fuel : ℕ) :
    extendLoop packed file iSize (fuel + 1) deduped pos =
      extendLoop packed file iSize fuel (u32 (deduped + chunkSize pos)) (sub64 pos (chunkSize pos)) :=
  if_pos hgo

theorem chunkSize_le (pos : ℕ) : chunkSize pos ≤ pos :=
  (Nat.min_le_left _ _).trans (Nat.mod_le _ _)

theorem extendLoop_le {fuel deduped' pos' : ℕ} (hded : deduped < 2 ^ 32) (hpos : pos < 2 ^ 63)
    (h : extendLoop packed file iSize fuel deduped pos = some (deduped', pos')) :
    deduped' < 2 ^ 32 ∧ pos' ≤ pos := by
  induction fuel generalizing deduped pos with
  | zero => cases h
  | succ fuel ih =>
    by_cases hgo : (deduped < iSize ∧ pos ≠ 0) ∧
        ChunkEqual packed file iSize deduped pos (chunkSize pos)
    · have hoff := sub64_of_le (chunkSize_le pos) (show pos < 2 ^ 64 by omega)
      rw [extendLoop_go hgo, hoff] at h
      obtain ⟨hd, hp⟩ := ih (u32_lt _) (by omega) h
      exact ⟨hd, by omega⟩
    · rw [extendLoop_exit hgo] at h
      obtain ⟨rfl, rfl⟩ := Prod.mk.inj (Option.some.inj h)
      exact ⟨hded, le_rfl⟩

/-- At a multiple of `2 ^ 32` the chunk is empty, and nothing moves any more. -/
theorem extendLoop_stuck (hded : deduped < 2 ^ 32) (hsize : iSize < 2 ^ 63) (hpos : pos < 2 ^ 63)
    (hgo : deduped < iSize ∧ pos ≠ 0) (hzero : pos % 2 ^ 32 = 0) (fuel : ℕ) :
    extendLoop packed file iSize fuel deduped pos = none := by
  have hsz : chunkSize pos = 0 := by
    rw [chunkSize, u32, hzero]
    exact Nat.zero_min 16384
  have hchunk : ChunkEqual packed file iSize deduped pos (chunkSize pos) := by
    rw [hsz]
    exact (chunkEqual_iff hpos hsize (Nat.zero_le _) hgo.1 (by omega)).mpr
      ⟨Nat.zero_le _, hgo.1.le, fun i hi => absurd hi (Nat.not_lt_zero i)⟩
  induction fuel with
  | zero => rfl
  | succ fuel ih =>
    rw [extendLoop_go ⟨hgo, hchunk⟩, hsz, Nat.add_zero, u32_of_lt hded,
      sub64_of_le (Nat.zero_le _) (by omega), Nat.sub_zero, ih]

theorem ChunkEnd.first_le {n : ℕ} (h : ChunkEnd pos n) (hn : 0 < n) : chunkSize pos ≤ n := by
  obtain ⟨hle, ⟨k, rfl⟩ | rfl⟩ := h
  · have hk : 1 ≤ k := by
      by_contra hk
      obtain rfl : k = 0 := by omega
      omega
    exact (Nat.min_le_right _ _).trans (Nat.le_mul_of_pos_right _ hk)
  · exact Nat.min_le_left _ _

theorem chunkEnd_first (pos : ℕ) : ChunkEnd pos (chunkSize pos) := by
  refine ⟨Nat.min_le_left _ _, ?_⟩
  rw [chunkSize]
  rcases Nat.le_total (u32 pos) 16384 with h | h
  · exact Or.inr (Nat.min_eq_left h)
  · rw [Nat.min_eq_right h]
    exact Or.inl (dvd_refl _)

theorem chunkEnd_add (n : ℕ) :
    ChunkEnd pos (chunkSize pos + n) ↔ ChunkEnd (pos - chunkSize pos) n := by
  have hle : u32 pos ≤ pos := Nat.mod_le _ _
  have hmod : (pos - chunkSize pos) % 2 ^ 32 = u32 pos - chunkSize pos := by
    rw [chunkSize]
    rw [u32] at hle ⊢
    omega
  have hu : pos % 2 ^ 32 = u32 pos := rfl
  rw [ChunkEnd, ChunkEnd, hmod, hu, chunkSize]
  rcases Nat.le_total (u32 pos) 16384 with h | h
  · rw [Nat.min_eq_left h]
    omega
  · rw [Nat.min_eq_right h, Nat.dvd_add_right (dvd_refl 16384)]
    omega

end Loop

section Exact

variable {packed file : List UInt8} {iSize deduped pos : ℕ}

theorem SameBefore.zero (h : deduped ≤ iSize) : SameBefore packed file iSize deduped pos 0 :=
  ⟨Nat.zero_le _, h, fun i hi => absurd hi (Nat.not_lt_zero i)⟩

/-- Where the loop ends at once, it has neither run into a multiple nor left 32 bits. -/
theorem not_stuck_of_exit (hded : deduped < 2 ^ 32) (hsize : iSize < 2 ^ 63) (hpos : pos < 2 ^ 63)
    (hexit : ¬((deduped < iSize ∧ pos ≠ 0) ∧
      ChunkEqual packed file iSize deduped pos (chunkSize pos))) :
    ¬ Stuck packed file iSize deduped pos ∧ ¬ Wraps packed file iSize deduped pos := by
  have hsz32 : chunkSize pos < 2 ^ 32 := (Nat.min_le_left _ _).trans_lt (u32_lt _)
  have hfirst : deduped < iSize → pos ≠ 0 → ¬ SameBefore packed file iSize deduped pos (chunkSize pos) := by
    intro hlt hne hsame
    exact hexit ⟨⟨hlt, hne⟩, (chunkEqual_iff hpos hsize (chunkSize_le pos) hlt hsz32).mpr hsame⟩
  constructor
  · rintro ⟨hge, hsame, hlt⟩
    exact hfirst (by omega) (by omega) (hsame.mono (Nat.min_le_left _ _))
  · rintro ⟨n, hend, hsame, hwrap⟩
    have hfile := hsame.file_le
    have hpacked := hsame.packed_le
    exact hfirst (by omega) (by omega) (hsame.mono (hend.first_le (by omega)))

theorem exact_of_turn (hpos : pos < 2 ^ 63) (hle : chunkSize pos ≤ pos)
    (hgo : (deduped < iSize ∧ pos ≠ 0) ∧ ChunkEqual packed file iSize deduped pos (chunkSize pos))
    (hfits : deduped + chunkSize pos < 2 ^ 32) :
    ExtendsExactly packed file iSize deduped pos ↔
      ExtendsExactly packed file iSize (deduped + chunkSize pos) (pos - chunkSize pos) := by
  have hoff := sub64_of_le hle (show pos < 2 ^ 64 by omega)
  constructor
  · rintro ⟨fuel, n, d, p, hrun, hp, hd⟩
    cases fuel with
    | zero => cases hrun
    | succ fuel =>
      rw [extendLoop_go hgo, hoff, u32_of_lt hfits] at hrun
      have hp' := (extendLoop_le hfits (by omega) hrun).2
      exact ⟨fuel, n - chunkSize pos, d, p, hrun, by omega, by omega⟩
  · rintro ⟨fuel, n, d, p, hrun, hp, hd⟩
    refine ⟨fuel + 1, chunkSize pos + n, d, p, ?_, by omega, by omega⟩
    rw [extendLoop_go hgo, hoff, u32_of_lt hfits]
    exact hrun

/-- The loop ends with both counters moved by the same amount exactly when it does not come to a
positive multiple of `2 ^ 32` and the length stays below `2 ^ 32`. -/
theorem extendLoop_exact (packed file : List UInt8) {iSize deduped pos : ℕ}
    (hsize : iSize < 2 ^ 63) (hded : deduped < 2 ^ 32) (hpos : pos < 2 ^ 63) :
    ExtendsExactly packed file iSize deduped pos ↔
      ¬ Stuck packed file iSize deduped pos ∧ ¬ Wraps packed file iSize deduped pos := by
  induction h : pos % 2 ^ 32 using Nat.strong_induction_on generalizing deduped pos with
  | _ r ih =>
    subst h
    have hle := chunkSize_le pos
    have hr : chunkSize pos ≤ pos % 2 ^ 32 := Nat.min_le_left _ _
    have hr32 : pos % 2 ^ 32 < 2 ^ 32 := Nat.mod_lt _ (by omega)
    by_cases hgo : (deduped < iSize ∧ pos ≠ 0) ∧
        ChunkEqual packed file iSize deduped pos (chunkSize pos)
    · have hsame := (chunkEqual_iff hpos hsize hle hgo.1.1 (by omega)).mp hgo.2
      by_cases hzero : pos % 2 ^ 32 = 0
      · -- the chunk is empty
        apply iff_of_false
        · rintro ⟨fuel, n, d, p, hrun, -⟩
          rw [extendLoop_stuck hded hsize hpos hgo.1 hzero] at hrun
          cases hrun
        · rintro ⟨hstuck, -⟩
          apply hstuck
          refine ⟨by omega, ?_, by omega⟩
          rw [hzero]
          exact SameBefore.zero hgo.1.1.le
      · have hszpos : 0 < chunkSize pos := by
          rw [chunkSize, u32]
          omega
        by_cases hfits : deduped + chunkSize pos < 2 ^ 32
        · have hmod : (pos - chunkSize pos) % 2 ^ 32 = pos % 2 ^ 32 - chunkSize pos := by omega
          have hrec := ih ((pos - chunkSize pos) % 2 ^ 32) (by omega) hfits
            (show pos - chunkSize pos < 2 ^ 63 by omega) rfl
          have hrest : chunkSize pos + (pos - chunkSize pos) % 2 ^ 32 = pos % 2 ^ 32 := by omega
          rw [exact_of_turn hpos hle hgo hfits, hrec]
          apply and_congr
          · apply not_congr
            rw [Stuck, Stuck, ← sameBefore_add hsame, hrest, Nat.add_assoc, hrest]
            have hmul : 2 ^ 32 ≤ pos - chunkSize pos ↔ 2 ^ 32 ≤ pos := by omega
            rw [hmul]
          · apply not_congr
            constructor
            · rintro ⟨n, hend, hn, hwrap⟩
              exact ⟨chunkSize pos + n, (chunkEnd_add n).mpr hend, (sameBefore_add hsame n).mpr hn,
                by omega⟩
            · rintro ⟨n, hend, hn, hwrap⟩
              obtain ⟨m, rfl⟩ : ∃ m, n = chunkSize pos + m :=
                ⟨n - chunkSize pos, by have := hend.first_le (by omega); omega⟩
              exact ⟨m, (chunkEnd_add m).mp hend, (sameBefore_add hsame m).mp hn, by omega⟩
        · -- the length begins again at zero
          apply iff_of_false
          · rintro ⟨fuel, n, d, p, hrun, hp, hd⟩
            have hd32 := (extendLoop_le hded hpos hrun).1
            cases fuel with
            | zero => cases hrun
            | succ fuel =>
              rw [extendLoop_go hgo, sub64_of_le hle (by omega)] at hrun
              have hp' := (extendLoop_le (u32_lt _) (by omega) hrun).2
              omega
          · rintro ⟨-, hwraps⟩
            exact hwraps ⟨chunkSize pos, chunkEnd_first pos, hsame, by omega⟩
    · apply iff_of_true
      · exact ⟨1, 0, deduped, pos, extendLoop_exit hgo 0, rfl, rfl⟩
      · exact not_stuck_of_exit hded hsize hpos hgo

/-- An item of 17 bytes at position 3 of the packed file, and a source that is the packed file. -/
theorem extendLoop_exact_item : ExtendsExactly ([1, 2, 3] ++ List.replicate 17 0)
    ([1, 2, 3] ++ List.replicate 17 0) 20 17 3 :=
  (extendLoop_exact _ _ (by decide) (by decide) (by decide)).mpr
    ⟨fun h => absurd h.1 (by decide), by
      rintro ⟨n, ⟨hle, -⟩, -, hwrap⟩
      omega⟩

/-- An item of 17 bytes at 4 GiB of the packed file, and a source with one more byte in front. -/
theorem extendLoop_endless :
    ¬ ExtendsExactly (List.replicate (2 ^ 32) 1 ++ List.replicate 17 0) (List.replicate 18 0)
      18 17 (2 ^ 32) := by
  rintro ⟨fuel, n, d, p, hrun, -⟩
  rw [extendLoop_stuck (by omega) (by omega) (by omega) (by omega) (by omega)] at hrun
  cases hrun

end Exact

end ErofsUtils
