import Mathlib.Data.List.Basic
import Mathlib.Algebra.Order.Group.Nat

/-!
# Folding over blocks

A function that takes a list block by block: what it makes of the whole blocks of a list and which
elements are left behind them. The lemmas say how a list that comes in pieces is taken.
-/

namespace ErofsUtils.BlockFold

variable {σ β : Type*} (n : ℕ) (f : σ → List β → σ)

/-- `f` takes `k` blocks of `n` elements from the front of a list. -/
def foldBlocks : ℕ → σ → List β → σ
  | 0, s, _ => s
  | k + 1, s, l => foldBlocks k (f s (l.take n)) (l.drop n)

def wholeBlocks (s : σ) (l : List β) : σ := foldBlocks n f (l.length / n) s l

def blockRest (l : List β) : List β := l.drop (l.length / n * n)

variable {n f}

theorem foldBlocks_append {k : ℕ} (s : σ) {l : List β} (l' : List β) (hk : k * n ≤ l.length) :
    foldBlocks n f k s (l ++ l') = foldBlocks n f k s l := by
  induction k generalizing s l with
  | zero => rfl
  | succ k ih =>
      rw [Nat.succ_mul] at hk
      rw [foldBlocks, foldBlocks, List.take_append_of_le_length (by omega),
        List.drop_append_of_le_length (by omega)]
      refine ih _ ?_
      rw [List.length_drop]
      omega

theorem foldBlocks_add (k j : ℕ) (s : σ) (l : List β) :
    foldBlocks n f (k + j) s l = foldBlocks n f j (foldBlocks n f k s l) (l.drop (k * n)) := by
  induction k generalizing s l with
  | zero => rw [Nat.zero_add, Nat.zero_mul, List.drop_zero, foldBlocks]
  | succ k ih =>
      rw [Nat.succ_add, foldBlocks, ih, foldBlocks, List.drop_drop, Nat.succ_mul, Nat.add_comm n]

variable (n)

theorem length_blockRest (l : List β) : (blockRest n l).length = l.length % n := by
  have hdiv := Nat.div_add_mod l.length n
  rw [blockRest, List.length_drop, Nat.mul_comm]
  omega

variable {n}

theorem append_of_lt (s : σ) {l : List β} (piece : List β)
    (h : (blockRest n l).length + piece.length < n) :
    wholeBlocks n f s (l ++ piece) = wholeBlocks n f s l ∧
      blockRest n (l ++ piece) = blockRest n l ++ piece := by
  have hmod := length_blockRest n l
  have hdiv := Nat.div_add_mod l.length n
  have hsame : (l ++ piece).length / n = l.length / n := by
    rw [List.length_append]
    refine Nat.div_eq_of_lt_le ?_ ?_
    · rw [Nat.mul_comm]
      omega
    · rw [Nat.succ_mul, Nat.mul_comm]
      omega
  have hle : l.length / n * n ≤ l.length := Nat.div_mul_le_self _ _
  constructor
  · rw [wholeBlocks, hsame, foldBlocks_append s piece hle]
    rfl
  · rw [blockRest, hsame, List.drop_append_of_le_length hle]
    rfl

/-- Elements that fill the block are taken with those that are left. -/
theorem append_of_eq (s : σ) {l : List β} (piece : List β) (hn : 0 < n)
    (h : (blockRest n l).length + piece.length = n) :
    wholeBlocks n f s (l ++ piece) = f (wholeBlocks n f s l) (blockRest n l ++ piece) ∧
      blockRest n (l ++ piece) = [] := by
  have hmod := length_blockRest n l
  have hdiv := Nat.div_add_mod l.length n
  have hlen : (l ++ piece).length = (l.length / n + 1) * n := by
    rw [List.length_append, Nat.succ_mul, Nat.mul_comm]
    omega
  have hle : l.length / n * n ≤ l.length := Nat.div_mul_le_self _ _
  have hblocks : (l ++ piece).length / n = l.length / n + 1 := by
    rw [hlen, Nat.mul_div_cancel _ hn]
  have hdrop : (l ++ piece).drop (l.length / n * n) = blockRest n l ++ piece :=
    List.drop_append_of_le_length hle
  constructor
  · rw [wholeBlocks, hblocks, foldBlocks_add, foldBlocks_append s piece hle, hdrop, foldBlocks,
      foldBlocks, List.take_of_length_le (by rw [List.length_append]; omega)]
    rfl
  · rw [blockRest, hblocks, ← hlen, List.drop_length]

end ErofsUtils.BlockFold
