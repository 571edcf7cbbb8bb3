import Mathlib.Data.Nat.ModEq
import Mathlib.Data.List.Basic

/-!
# A window of a log in a ring of slots

A ring of `n` slots whose slot `k % n` holds the entry `k` of a log, for every `k` from the start
of a window to the end of the log. Entries are stored behind the last one and forgotten from the
front; a window of at most `n` entries never meets itself.
-/

namespace ErofsUtils

structure RingLog {J : Type*} (slots : ℕ → J) (n : ℕ) (log : List J) (lo : ℕ) : Prop where
  le : lo ≤ log.length
  fits : log.length ≤ lo + n
  holds : ∀ k job, lo ≤ k → log[k]? = some job → slots (k % n) = job

namespace RingLog

variable {J : Type*} {slots : ℕ → J} {n : ℕ} {log : List J} {lo : ℕ}

theorem empty (slots : ℕ → J) (n : ℕ) : RingLog slots n [] 0 := by
  refine ⟨le_rfl, Nat.zero_le _, ?_⟩
  intro k job _ hk
  cases hk

/-- Two positions of a window that is not longer than the ring have different slots. -/
theorem mod_ne {k m : ℕ} (hlt : k < m) (hnear : m < k + n) : k % n ≠ m % n := by
  intro heq
  have hdvd : n ∣ m - k := (Nat.modEq_iff_dvd' hlt.le).mp heq
  have hle := Nat.le_of_dvd (by omega) hdvd
  omega

/-- The entry in front of the window is in the slot of its position. -/
theorem get {job : J} (h : RingLog slots n log lo) (hlo : log[lo]? = some job) :
    slots (lo % n) = job :=
  h.holds lo job le_rfl hlo

/-- An entry is stored behind the last one, while there is room. -/
theorem push (h : RingLog slots n log lo) (hroom : log.length < lo + n) (job : J) :
    RingLog (Function.update slots (log.length % n) job) n (log ++ [job]) lo := by
  have hle := h.le
  constructor
  · rw [List.length_append]
    omega
  · rw [List.length_append, List.length_singleton]
    omega
  · intro k job' hk hget
    rcases Nat.lt_or_ge k log.length with hlt | hge
    · rw [List.getElem?_append_left hlt] at hget
      rw [Function.update_of_ne (mod_ne hlt (by omega))]
      exact h.holds k job' hk hget
    · have hlast : k = log.length := by
        obtain ⟨hlen, -⟩ := List.getElem?_eq_some_iff.mp hget
        rw [List.length_append, List.length_singleton] at hlen
        omega
      subst hlast
      rw [List.getElem?_append_right le_rfl, Nat.sub_self] at hget
      cases hget
      exact Function.update_self _ _ _

/-- The first entry of the window is given up. -/
theorem pop (h : RingLog slots n log lo) (hlt : lo < log.length) :
    RingLog slots n log (lo + 1) := by
  have hfits := h.fits
  refine ⟨hlt, by omega, ?_⟩
  intro k job hk hget
  exact h.holds k job (by omega) hget

/-- The indexes of a ring agree exactly when its window is empty, as long as a slot stays free. -/
theorem mod_eq_iff {lo hi : ℕ} (hle : lo ≤ hi) (hlt : hi < lo + n) :
    lo % n = hi % n ↔ lo = hi := by
  constructor
  · intro heq
    rcases Nat.lt_or_eq_of_le hle with h | h
    · exact absurd heq (mod_ne h hlt)
    · exact h
  · intro heq
    rw [heq]

/-- The index behind the last entry is that of the first one exactly when one slot is free. -/
theorem succ_mod_eq_iff {lo hi : ℕ} (hle : lo ≤ hi) (hlt : hi < lo + n) :
    (hi + 1) % n = lo % n ↔ hi + 1 = lo + n := by
  constructor
  · intro heq
    rcases Nat.lt_or_eq_of_le (Nat.succ_le_of_lt hlt) with h | h
    · exact absurd heq.symm (mod_ne (Nat.lt_succ_of_le hle) h)
    · exact h
  · intro heq
    rw [heq, Nat.add_mod_right]

end RingLog

end ErofsUtils
