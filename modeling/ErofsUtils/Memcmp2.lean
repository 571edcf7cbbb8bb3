import ErofsUtils.Dedupe
import Mathlib.Order.Bounds.Defs

/-!
# The common start of two buffers

`erofs_memcmp2` with the bytes that it reads: the same indices in both buffers, one at a time in the
loops over bytes and eight at a time in the loop over words.
-/

namespace ErofsUtils

section Reads

variable (s1 s2 : ℕ → UInt8)

def memcmp2BytesReads : ℕ → ℕ → List ℕ
  | 0, _ => []
  | n + 1, k => k :: if s1 k = s2 k then memcmp2BytesReads n (k + 1) else []

def memcmp2WordsReads : ℕ → ℕ → List ℕ
  | 0, _ => []
  | n + 1, k =>
    List.range' k 8 ++
      if ∀ i < 8, s1 (k + i) = s2 (k + i) then memcmp2WordsReads n (k + 8) else []

def erofsMemcmp2Reads (a1 a2 sz : ℕ) : List ℕ :=
  if sz < 8 then memcmp2BytesReads s1 s2 sz 0
  else
    let n := if a1 % 8 = a2 % 8 then (8 - a1 % 8) % 8 else 0
    let k := memcmp2Bytes s1 s2 n 0
    let m := memcmp2Words s1 s2 ((sz - k) / 8) k
    memcmp2BytesReads s1 s2 n 0 ++ memcmp2WordsReads s1 s2 ((sz - k) / 8) k ++
      memcmp2BytesReads s1 s2 (sz - m) m

variable {s1 s2}

theorem lt_of_mem_memcmp2BytesReads {n k i : ℕ} (hi : i ∈ memcmp2BytesReads s1 s2 n k) :
    i < k + n := by
  induction n generalizing k with
  | zero => cases hi
  | succ n ih =>
    rw [memcmp2BytesReads, List.mem_cons] at hi
    rcases hi with rfl | hi
    · omega
    · split at hi
      · have h := ih hi
        omega
      · cases hi

theorem lt_of_mem_memcmp2WordsReads {n k i : ℕ} (hi : i ∈ memcmp2WordsReads s1 s2 n k) :
    i < k + 8 * n := by
  induction n generalizing k with
  | zero => cases hi
  | succ n ih =>
    rw [memcmp2WordsReads, List.mem_append, List.mem_range'_1] at hi
    rcases hi with hi | hi
    · omega
    · split at hi
      · have h := ih hi
        omega
      · cases hi

theorem lt_of_mem_erofsMemcmp2Reads {a1 a2 sz i : ℕ} (hi : i ∈ erofsMemcmp2Reads s1 s2 a1 a2 sz) :
    i < sz := by
  have h0 : SamePrefix s1 s2 sz 0 := .zero sz
  rw [erofsMemcmp2Reads] at hi
  by_cases hsz : sz < 8
  · rw [if_pos hsz] at hi
    have h := lt_of_mem_memcmp2BytesReads hi
    omega
  · have hn : (if a1 % 8 = a2 % 8 then (8 - a1 % 8) % 8 else 0) < 8 := by
      split <;> omega
    rw [if_neg hsz] at hi
    generalize (if a1 % 8 = a2 % 8 then (8 - a1 % 8) % 8 else 0) = n at hi hn
    have hk : SamePrefix s1 s2 sz (memcmp2Bytes s1 s2 n 0) := h0.memcmp2Bytes (by omega)
    have hkle := hk.le
    have hm : SamePrefix s1 s2 sz (memcmp2Words s1 s2 ((sz - memcmp2Bytes s1 s2 n 0) / 8)
        (memcmp2Bytes s1 s2 n 0)) := hk.memcmp2Words (by omega)
    have hmle := hm.le
    simp only [List.mem_append] at hi
    rcases hi with (hi | hi) | hi
    · have h := lt_of_mem_memcmp2BytesReads hi
      omega
    · have h := lt_of_mem_memcmp2WordsReads hi
      omega
    · have h := lt_of_mem_memcmp2BytesReads hi
      omega

end Reads

/-- `erofs_memcmp2` returns the length of the longest common start of at most `sz` bytes, whatever
the alignments of the pointers are, and reads nothing behind it. -/
theorem erofsMemcmp2_exact (s1 s2 : ℕ → UInt8) (a1 a2 sz : ℕ) :
    IsGreatest {k | SamePrefix s1 s2 sz k} (erofsMemcmp2 s1 s2 a1 a2 sz) ∧
      ∀ i ∈ erofsMemcmp2Reads s1 s2 a1 a2 sz, i < sz := by
  obtain ⟨hsame, hstop⟩ := @erofsMemcmp2_spec s1 s2 a1 a2 sz
  refine ⟨⟨hsame, ?_⟩, fun i hi => lt_of_mem_erofsMemcmp2Reads hi⟩
  intro k hk
  by_contra hlt
  have hle := SamePrefix.le hk
  exact hstop (by omega) (SamePrefix.eq hk _ (by omega))

end ErofsUtils
