import Mathlib.Data.List.Basic
import Mathlib.Tactic.Ring

/-!
# Literals and back references

A text as a list of literals and copies of earlier output, over any alphabet. A copy may reach
into the text that it produces itself. The lemmas step the statement "the tokens so far produce
the first `n` letters of the text".
-/

namespace ErofsUtils
namespace Lz77

variable {α : Type*}

inductive Token (α : Type*)
  | literal (a : α)
  | copy (len dist : ℕ)

def firstOf (text : ℕ → α) (n : ℕ) : List α := (List.range n).map text

@[simp] theorem length_firstOf (text : ℕ → α) (n : ℕ) : (firstOf text n).length = n := by
  simp [firstOf]

theorem getElem?_firstOf (text : ℕ → α) {n i : ℕ} (h : i < n) :
    (firstOf text n)[i]? = some (text i) := by
  simp [firstOf, h]

theorem firstOf_succ (text : ℕ → α) (n : ℕ) :
    firstOf text (n + 1) = firstOf text n ++ [text n] := by
  simp [firstOf, List.range_succ]

/-- Appends `n` letters, each `dist` letters behind the end of the output. -/
def copyRun (dist : ℕ) : ℕ → List α → List α
  | 0, out => out
  | n + 1, out => copyRun dist n (out ++ out[out.length - dist]?.toList)

/-- The output after one more token; a copy must not reach in front of the output. -/
def emit (out : List α) : Token α → Option (List α)
  | .literal a => some (out ++ [a])
  | .copy len dist => if 1 ≤ dist ∧ dist ≤ out.length then some (copyRun dist len out) else none

def expand (out : List α) (tokens : List (Token α)) : Option (List α) := tokens.foldlM emit out

@[simp] theorem expand_nil (out : List α) : expand out [] = some out := rfl

theorem expand_append {out mid : List α} {ts us : List (Token α)}
    (h : expand out ts = some mid) : expand out (ts ++ us) = expand mid us := by
  unfold expand at h ⊢
  rw [List.foldlM_append, h]
  rfl

theorem expand_concat {out mid : List α} {ts : List (Token α)} {t : Token α}
    (h : expand out ts = some mid) : expand out (ts ++ [t]) = emit mid t := by
  rw [expand_append h]
  unfold expand
  simp

theorem expand_append_some {out res : List α} {ts us : List (Token α)}
    (h : expand out (ts ++ us) = some res) :
    ∃ mid, expand out ts = some mid ∧ expand mid us = some res := by
  cases hts : expand out ts with
  | none =>
      unfold expand at h hts
      rw [List.foldlM_append, hts] at h
      exact absurd h (by simp)
  | some mid => exact ⟨mid, rfl, expand_append hts ▸ h⟩

/-- A copy in a text that can be produced does not reach in front of it. -/
theorem copy_of_expand {out res : List α} {ts us : List (Token α)} {len dist : ℕ}
    (h : expand out (ts ++ .copy len dist :: us) = some res) :
    ∃ mid, expand out ts = some mid ∧ 1 ≤ dist ∧ dist ≤ mid.length := by
  obtain ⟨mid, hts, hus⟩ := expand_append_some h
  refine ⟨mid, hts, ?_⟩
  by_contra hno
  unfold expand at hus
  rw [List.foldlM_cons, emit, if_neg hno] at hus
  exact absurd hus (by simp)

section Text

variable {text : ℕ → α} {n : ℕ}

theorem emit_literal : emit (firstOf text n) (.literal (text n)) = some (firstOf text (n + 1)) := by
  rw [firstOf_succ]
  rfl

theorem copyRun_firstOf {len dist : ℕ} (h1 : 1 ≤ dist) (hle : dist ≤ n)
    (heq : ∀ i < len, text (n + i) = text (n + i - dist)) :
    copyRun dist len (firstOf text n) = firstOf text (n + len) := by
  induction len generalizing n with
  | zero => rfl
  | succ len ih =>
      have h0 := heq 0 (by omega)
      rw [Nat.add_zero] at h0
      rw [copyRun, length_firstOf, getElem?_firstOf text (by omega), Option.toList_some, ← h0,
        ← firstOf_succ, ih (by omega)]
      · congr 1
        omega
      · intro i hi
        have := heq (i + 1) (by omega)
        rwa [show n + (i + 1) = n + 1 + i by omega] at this

/-- A copy of letters that were compared extends the output along the text. -/
theorem emit_copy {len dist : ℕ} (h1 : 1 ≤ dist) (hle : dist ≤ n)
    (heq : ∀ i < len, text (n + i) = text (n + i - dist)) :
    emit (firstOf text n) (.copy len dist) = some (firstOf text (n + len)) := by
  rw [emit, length_firstOf, if_pos ⟨h1, hle⟩, copyRun_firstOf h1 hle heq]

end Text

end Lz77
end ErofsUtils
