import ErofsUtils.KiteHuffman
import Mathlib.Algebra.BigOperators.Group.Finset.Piecewise
import Mathlib.Algebra.Order.BigOperators.Group.Finset
import Mathlib.Data.Finset.Max
import Mathlib.Order.Interval.Finset.Nat
import Mathlib.Algebra.Order.Interval.Finset.SuccPred
import Mathlib.Data.Nat.SuccPred

/-!
# The tree of Huffman_Generate

The merge of leaves and inner nodes keeps the symbols in the low bits and leaves, for each inner
node but the last, the number of its parent in the high bits. Parents come later than their
children and do not go back, and no more than two inner nodes have the same one. The depths are
then computed from the root down, and the counters of code lengths keep Kraft's equality; as soon
as a depth reaches the limit, a shorter code is split instead, and there is one since the codes so
far are fewer than the leaves.
-/

namespace ErofsUtils
namespace Huffman

theorem mask_eq : huffmanMask = 1024 := rfl

/-- Writing a value above the low bits. -/
theorem div_mask (a e : ℕ) : (a % huffmanMask + e * huffmanMask) / huffmanMask = e := by
  rw [mask_eq]
  omega

/-- Writing a value whose low bits are clear. -/
theorem setAt_low (p : CArray) {v : ℕ} (e j : ℕ) (hv : v % huffmanMask = 0) :
    setAt p e (p e % huffmanMask + v) j % huffmanMask = p j % huffmanMask := by
  rw [setAt_apply]
  split
  · next hj => rw [hj, Nat.add_mod, hv, Nat.add_zero, Nat.mod_mod, Nat.mod_mod]
  · rfl

section Merge

/-- The inner nodes from `b` to `b'` are given the parent `e`, and nothing else happens to inner
nodes before `b'` nor to the low bits. -/
structure Taken (e b b' : ℕ) (p p' : CArray) : Prop where
  kept : ∀ j, j < b → p' j = p j
  marked : ∀ j, b ≤ j → j < b' → p' j / huffmanMask = e
  low : ∀ j, p' j % huffmanMask = p j % huffmanMask

variable {num e i b b' b'' : ℕ} {p p' p'' : CArray}

theorem Taken.trans (h : Taken e b b' p p') (h' : Taken e b' b'' p' p'') (hb : b ≤ b') :
    Taken e b b'' p p'' := by
  refine ⟨fun j hj => ?_, fun j hj hj' => ?_, fun j => (h'.low j).trans (h.low j)⟩
  · rw [h'.kept j (hj.trans_le hb), h.kept j hj]
  · by_cases hjb : j < b'
    · rw [h'.kept j hjb]
      exact h.marked j hj hjb
    · exact h'.marked j (Nat.le_of_not_lt hjb) hj'

/-- The next node is a leaf or an inner node, whichever there still is. -/
theorem huffmanPick_cases (p : CArray) (hi : i ≤ num) (hb : b ≤ e) (hleft : i < num ∨ b < e) :
    (huffmanPick p num i b e = (i, i + 1, b) ∧ i < num) ∨
      (huffmanPick p num i b e = (b, i, b + 1) ∧ b < e) := by
  rw [huffmanPick]
  by_cases hpick : i ≠ num ∧ (b = e ∨ p i / huffmanMask ≤ p b / huffmanMask)
  · exact Or.inl ⟨if_pos hpick, by omega⟩
  · have hbe : b < e := by
      by_contra hnot
      exact hpick ⟨by omega, Or.inl (by omega)⟩
    exact Or.inr ⟨if_neg hpick, hbe⟩

theorem take_node (p : CArray) (hi : i ≤ num) (hb : b ≤ e) (hie : e ≤ i)
    (hleft : i < num ∨ b < e) : ∃ n i' b', huffmanPick p num i b e = (n, i', b') ∧
      i' + b' = i + b + 1 ∧ i ≤ i' ∧ i' ≤ num ∧ b ≤ b' ∧ b' ≤ e ∧
        Taken e b b' p (setAt p n (p n % huffmanMask + e * huffmanMask)) := by
  have hlow : ∀ n j, setAt p n (p n % huffmanMask + e * huffmanMask) j % huffmanMask =
      p j % huffmanMask := fun n j => setAt_low p n j (Nat.mul_mod_left e huffmanMask)
  rcases huffmanPick_cases p hi hb hleft with ⟨hpick, hlt⟩ | ⟨hpick, hlt⟩
  · refine ⟨i, i + 1, b, hpick, by omega, by omega, by omega, le_rfl, hb, ?_, ?_, hlow i⟩
    · exact fun j hj => setAt_of_ne _ _ (by omega)
    · intro j hj hj'
      omega
  · refine ⟨b, i, b + 1, hpick, by omega, le_rfl, hi, by omega, by omega, ?_, ?_, hlow b⟩
    · exact fun j hj => setAt_of_ne _ _ (by omega)
    · intro j hj hj'
      have hjb : j = b := by omega
      rw [hjb, setAt_self, div_mask]

/-- The merge before the inner node `e` is made, from the leaves `p₀`. -/
structure Merged (num e : ℕ) (p₀ : CArray) (st : CArray × ℕ × ℕ) : Prop where
  count : st.2.1 + st.2.2 = 2 * e
  leaves : st.2.1 ≤ num
  behind : st.2.2 ≤ e - 1
  parent : ∀ j, j < st.2.2 → j < st.1 j / huffmanMask ∧ st.1 j / huffmanMask < e
  mono : ∀ j, j + 1 < st.2.2 → st.1 j / huffmanMask ≤ st.1 (j + 1) / huffmanMask
  pairs : ∀ j, j + 2 < st.2.2 → st.1 j / huffmanMask < st.1 (j + 2) / huffmanMask
  low : ∀ j, st.1 j % huffmanMask = p₀ j % huffmanMask

theorem huffmanMerge_taken (hi : i ≤ num) (hb : b ≤ e) (hcount : i + b = 2 * e)
    (hnum : e + 2 ≤ num) : ∃ p' i' b', huffmanMerge num (p, i, b) e = (p', i', b') ∧
      i' + b' = 2 * (e + 1) ∧ i ≤ i' ∧ i' ≤ num ∧ b ≤ b' ∧ b' ≤ e ∧ Taken e b b' p p' := by
  obtain ⟨n, i₁, b₁, hpick, hsum, hi₁, hin₁, hb₁, hbe₁, htaken₁⟩ :=
    take_node p hi hb (by omega) (by omega)
  obtain ⟨m, i₂, b₂, hpick', hsum', hi₂, hin₂, hb₂, hbe₂, htaken₂⟩ :=
    take_node (setAt p n (p n % huffmanMask + e * huffmanMask)) hin₁ hbe₁ (by omega) (by omega)
  have htaken := htaken₁.trans htaken₂ hb₁
  rw [huffmanMerge, hpick]
  dsimp only
  rw [hpick']
  refine ⟨_, i₂, b₂, rfl, by omega, by omega, hin₂, by omega, hbe₂, ?_, ?_, ?_⟩
  · intro j hj
    rw [setAt_of_ne _ _ (by omega)]
    exact htaken.kept j hj
  · intro j hj hj'
    rw [setAt_of_ne _ _ (by omega)]
    exact htaken.marked j hj hj'
  · intro j
    rw [← htaken.low j]
    apply setAt_low
    rw [mask_eq, u32]
    omega

theorem Merged.step {p₀ : CArray} {st : CArray × ℕ × ℕ} (h : Merged num e p₀ st)
    (hnum : e + 2 ≤ num) : Merged num (e + 1) p₀ (huffmanMerge num st e) := by
  obtain ⟨p, i, b⟩ := st
  obtain ⟨hcount, hleaves, hbehind, hparent, hmono, hpairs, hlow⟩ := h
  dsimp only at hcount hleaves hbehind hparent hmono hpairs hlow
  obtain ⟨p', i', b', heq, hcount', hi, hleaves', hb, hbe, htaken⟩ :=
    huffmanMerge_taken (p := p) hleaves (by omega) hcount hnum
  rw [heq]
  have hold : ∀ j, j < b → p' j / huffmanMask = p j / huffmanMask := by
    intro j hj
    rw [htaken.kept j hj]
  constructor
  · exact hcount'
  · exact hleaves'
  · exact hbe
  · intro j hj
    dsimp only at hj ⊢
    by_cases hjb : j < b
    · rw [hold j hjb]
      exact ⟨(hparent j hjb).1, by have := (hparent j hjb).2; omega⟩
    · rw [htaken.marked j (by omega) hj]
      omega
  · intro j hj
    dsimp only at hj ⊢
    by_cases hjb : j + 1 < b
    · rw [hold j (by omega), hold (j + 1) hjb]
      exact hmono j hjb
    · rw [htaken.marked (j + 1) (by omega) hj]
      by_cases hjb' : j < b
      · rw [hold j hjb']
        exact (hparent j hjb').2.le
      · rw [htaken.marked j (by omega) (by omega)]
  · intro j hj
    dsimp only at hj ⊢
    by_cases hjb : j + 2 < b
    · rw [hold j (by omega), hold (j + 2) hjb]
      exact hpairs j hjb
    · have hjb' : j < b := by omega
      rw [htaken.marked (j + 2) (by omega) hj, hold j hjb']
      exact (hparent j hjb').2
  · intro j
    exact (htaken.low j).trans (hlow j)

theorem merged_run (p₀ : CArray) (hnum : e + 1 ≤ num) :
    Merged num e p₀ ((List.range e).foldl (huffmanMerge num) (p₀, 0, 0)) := by
  induction e with
  | zero =>
      constructor
      · rfl
      · exact Nat.zero_le num
      · exact le_rfl
      · exact fun j hj => absurd hj (Nat.not_lt_zero j)
      · exact fun j hj => absurd hj (Nat.not_lt_zero _)
      · exact fun j hj => absurd hj (Nat.not_lt_zero _)
      · exact fun j => rfl
  | succ e ih =>
      rw [List.range_succ, List.foldl_append]
      exact (ih (by omega)).step hnum

end Merge

/-- The parents of the inner nodes, below the root `root`. -/
structure Parents (root : ℕ) (parent : ℕ → ℕ) : Prop where
  lt : ∀ j, j < root → j < parent j
  le : ∀ j, j < root → parent j ≤ root
  mono : ∀ j, j + 1 < root → parent j ≤ parent (j + 1)
  pairs : ∀ j, j + 2 < root → parent j < parent (j + 2)

/-- All nodes but the last one are taken when the loop ends. -/
theorem Merged.parents {num : ℕ} {p₀ : CArray} {st : CArray × ℕ × ℕ}
    (h : Merged num (num - 1) p₀ st) (hnum : 2 ≤ num) :
    Parents (num - 2) fun j => st.1 j / huffmanMask := by
  have hcount := h.count
  have hleaves := h.leaves
  have hbehind := h.behind
  have hb : st.2.2 = num - 2 := by omega
  constructor
  · intro j hj
    exact (h.parent j (by omega)).1
  · intro j hj
    have := (h.parent j (by omega)).2
    omega
  · intro j hj
    exact h.mono j (by omega)
  · intro j hj
    exact h.pairs j (by omega)

section Counters

open Finset

/-- A code of length `len` is replaced by two that are one bit longer. -/
def splitLen (lenCounters : CArray) (len : ℕ) : CArray :=
  setAt (setAt lenCounters len (lenCounters len - 1)) (len + 1)
    (setAt lenCounters len (lenCounters len - 1) (len + 1) + 2)

/-- The counters of the lengths of `leaves` codes, none longer than `maxLen`, that leave no code
unused. -/
structure Balanced (maxLen leaves : ℕ) (lenCounters : CArray) : Prop where
  zero : lenCounters 0 = 0
  above : ∀ l, maxLen < l → lenCounters l = 0
  total : ∑ l ∈ range (maxLen + 1), lenCounters l = leaves
  kraft : ∑ l ∈ range (maxLen + 1), lenCounters l * 2 ^ (maxLen - l) = 2 ^ maxLen

variable {maxLen leaves len : ℕ} {lenCounters : CArray}

theorem splitLen_add (hlen : 1 ≤ lenCounters len) (l : ℕ) :
    splitLen lenCounters len l + (if l = len then 1 else 0) =
      lenCounters l + if l = len + 1 then 2 else 0 := by
  rw [splitLen, setAt_of_ne _ _ (by omega : len + 1 ≠ len), setAt_apply]
  by_cases hl : l = len + 1
  · rw [if_pos hl, if_pos hl, if_neg (by omega), hl]
  · rw [if_neg hl, if_neg hl, setAt_apply]
    by_cases hl' : l = len
    · rw [if_pos hl', if_pos hl', hl']
      omega
    · rw [if_neg hl', if_neg hl']

theorem sum_splitLen (f : ℕ → ℕ) {n : ℕ} (hlen : 1 ≤ lenCounters len) (hn : len + 1 < n) :
    ∑ l ∈ range n, splitLen lenCounters len l * f l + f len =
      ∑ l ∈ range n, lenCounters l * f l + 2 * f (len + 1) := by
  have hterm : ∀ l ∈ range n, splitLen lenCounters len l * f l + (if l = len then f l else 0) =
      lenCounters l * f l + if l = len + 1 then 2 * f l else 0 := by
    intro l _
    have h := congrArg (· * f l) (splitLen_add hlen l)
    simpa only [Nat.add_mul, ite_mul, Nat.one_mul, Nat.zero_mul] using h
  have hsum := sum_congr rfl hterm
  rw [sum_add_distrib, sum_add_distrib, sum_ite_eq', sum_ite_eq', if_pos (mem_range.mpr (by omega)),
    if_pos (mem_range.mpr hn)] at hsum
  exact hsum

theorem Balanced.split (h : Balanced maxLen leaves lenCounters) (hpos : 1 ≤ len)
    (hmax : len < maxLen) (hlen : 1 ≤ lenCounters len) :
    Balanced maxLen (leaves + 1) (splitLen lenCounters len) := by
  constructor
  · have hzero := splitLen_add hlen 0
    rw [if_neg (by omega), if_neg (by omega), h.zero] at hzero
    exact hzero
  · intro l hl
    have habove := splitLen_add hlen l
    rw [if_neg (by omega), if_neg (by omega), h.above l hl] at habove
    exact habove
  · have hsum := sum_splitLen (fun _ => 1) hlen (by omega : len + 1 < maxLen + 1)
    simp only [Nat.mul_one] at hsum
    rw [h.total] at hsum
    omega
  · have hsum := sum_splitLen (fun l => 2 ^ (maxLen - l)) hlen (by omega : len + 1 < maxLen + 1)
    have hhalf : 2 ^ (maxLen - len) = 2 * 2 ^ (maxLen - (len + 1)) := by
      rw [← Nat.pow_succ']
      congr 1
      omega
    rw [h.kraft, hhalf] at hsum
    omega

/-- With fewer leaves than codes of the largest length, one code is shorter. -/
theorem Balanced.exists_shorter (h : Balanced maxLen leaves lenCounters)
    (hleaves : leaves < 2 ^ maxLen) : ∃ l, 1 ≤ l ∧ l ≤ maxLen - 1 ∧ lenCounters l ≠ 0 := by
  by_contra hnone
  have hzero : ∀ l ∈ range maxLen, lenCounters l = 0 := by
    intro l hl
    have hlt := mem_range.mp hl
    by_cases hl0 : l = 0
    · rw [hl0, h.zero]
    · by_contra hne
      exact hnone ⟨l, by omega, by omega, hne⟩
  have htotal := h.total
  have hkraft := h.kraft
  rw [sum_range_succ, sum_eq_zero hzero] at htotal
  rw [sum_range_succ, sum_eq_zero (fun l hl => by rw [hzero l hl, Nat.zero_mul]), Nat.sub_self]
    at hkraft
  omega

theorem huffmanFindLen_spec {n : ℕ} (h : ∃ l, 1 ≤ l ∧ l ≤ n ∧ lenCounters l ≠ 0) :
    1 ≤ huffmanFindLen lenCounters n ∧ huffmanFindLen lenCounters n ≤ n ∧
      lenCounters (huffmanFindLen lenCounters n) ≠ 0 := by
  induction n with
  | zero =>
      obtain ⟨l, hl, hle, -⟩ := h
      omega
  | succ n ih =>
      rw [huffmanFindLen]
      split
      · next hzero =>
          obtain ⟨l, hl, hle, hne⟩ := h
          have hln : l ≠ n + 1 := fun heq => hne (heq ▸ hzero)
          obtain ⟨h1, h2, h3⟩ := ih ⟨l, hl, by omega, hne⟩
          exact ⟨h1, by omega, h3⟩
      · next hne => exact ⟨by omega, le_rfl, hne⟩

theorem balanced_two (hmax : 1 ≤ maxLen) : Balanced maxLen 2 (setAt .zero 1 2) := by
  have hother : ∀ l, l ≠ 1 → setAt .zero 1 2 l = 0 := fun l hl => setAt_of_ne _ _ hl
  have hone : 1 ∈ range (maxLen + 1) := mem_range.mpr (by omega)
  constructor
  · exact hother 0 (by omega)
  · exact fun l hl => hother l (by omega)
  · exact sum_eq_single_of_mem 1 hone fun l _ hl => hother l hl
  · rw [sum_eq_single_of_mem 1 hone fun l _ hl => by rw [hother l hl, Nat.zero_mul], setAt_self,
      ← Nat.pow_succ']
    congr 1
    omega

/-- No more than two inner nodes stand below each one. -/
theorem Parents.card_le {root e d : ℕ} {parent depth : ℕ → ℕ} (h : Parents root parent)
    (hroot : depth root = 0) (hdepth : ∀ j, e ≤ j → j < root → depth j = depth (parent j) + 1) :
    #{j ∈ Icc e root | depth j = d + 1} ≤ 2 * #{j ∈ Icc (e + 1) root | depth j = d} := by
  have hbelow : ∀ j, depth j = d + 1 → j ≤ root → j < root := by
    intro j hj hle
    have hne : j ≠ root := by
      rintro rfl
      omega
    omega
  have hmono : ∀ j k, j ≤ k → k < root → parent j ≤ parent k := by
    intro j k hjk hk
    induction k, hjk using Nat.le_induction with
    | base => exact le_rfl
    | succ k hjk ih => exact (ih (by omega)).trans (h.mono k hk)
  apply card_le_mul_card_image_of_maps_to (f := parent)
  · intro j hj
    rw [mem_filter, mem_Icc] at hj ⊢
    have hlt := hbelow j hj.2 hj.1.2
    have hparent := h.lt j hlt
    have := hdepth j hj.1.1 hlt
    exact ⟨⟨by omega, h.le j hlt⟩, by omega⟩
  · intro a _
    -- the nodes with one parent stand next to each other
    rcases Finset.eq_empty_or_nonempty {j ∈ {j ∈ Icc e root | depth j = d + 1} | parent j = a} with
      hempty | hne
    · rw [hempty]
      exact Nat.zero_le _
    · set first := Finset.min' _ hne with hfirst
      have hsub : {j ∈ {j ∈ Icc e root | depth j = d + 1} | parent j = a} ⊆
          {first, first + 1} := by
        intro j hj
        have hle := Finset.min'_le _ j hj
        have hmem := Finset.min'_mem _ hne
        rw [← hfirst] at hle hmem
        rw [mem_filter, mem_filter, mem_Icc] at hj hmem
        have hlt := hbelow j hj.1.2 hj.1.1.2
        have hnear : j < first + 2 := by
          by_contra hfar
          have hpair := h.pairs first (by omega)
          have := hmono (first + 2) j (by omega) hlt
          omega
        rw [mem_insert, mem_singleton]
        omega
      exact (card_le_card hsub).trans card_le_two

end Counters

section Depth

open Finset

def nodesAt (root e : ℕ) (depth : ℕ → ℕ) (d : ℕ) : ℕ := #{j ∈ Icc e root | depth j = d}

/-- The inner nodes from `e` on have their depths, and the counters are those of the tree so far.
While no depth has reached the limit a counter is what the nodes one level up gave, less those of
this level that gave it on. -/
structure Depths (root maxLen e : ℕ) (p₀ : CArray) (st : CArray × CArray) : Prop where
  todo : ∀ j, j < e → st.1 j = p₀ j
  top : st.1 root / huffmanMask = 0
  done : ∀ j, e ≤ j → j < root →
    st.1 j / huffmanMask = st.1 (p₀ j / huffmanMask) / huffmanMask + 1
  anti : ∀ j k, e ≤ j → j ≤ k → k ≤ root → st.1 k / huffmanMask ≤ st.1 j / huffmanMask
  low : ∀ j, st.1 j % huffmanMask = p₀ j % huffmanMask
  balanced : Balanced maxLen (root + 2 - e) st.2
  counts : st.1 e / huffmanMask < maxLen → ∀ d, st.2 (d + 1) +
    nodesAt root e (fun j => st.1 j / huffmanMask) (d + 1) =
      2 * nodesAt root e (fun j => st.1 j / huffmanMask) d

variable {root maxLen e : ℕ} {p₀ : CArray} {st : CArray × CArray}

theorem nodesAt_root (depth : ℕ → ℕ) (d : ℕ) :
    nodesAt root root depth d = if depth root = d then 1 else 0 := by
  rw [nodesAt, Icc_self, filter_singleton]
  split <;> rfl

theorem nodesAt_succ {depth depth' : ℕ → ℕ} (he : e ≤ root)
    (hsame : ∀ j, e + 1 ≤ j → j ≤ root → depth' j = depth j) (d : ℕ) :
    nodesAt root e depth' d = nodesAt root (e + 1) depth d + if depth' e = d then 1 else 0 := by
  have hrest : {j ∈ Icc (e + 1) root | depth' j = d} = {j ∈ Icc (e + 1) root | depth j = d} := by
    apply filter_congr
    intro j hj
    rw [mem_Icc] at hj
    rw [hsame j hj.1 hj.2]
  rw [nodesAt, nodesAt, ← insert_Icc_add_one_left_eq_Icc he, filter_insert, hrest]
  split
  · rw [card_insert_of_notMem]
    intro hin
    rw [mem_filter, mem_Icc] at hin
    omega
  · rfl

/-- The depths before the loop: the root has depth 0 and two codes of one bit. -/
theorem depths_start (hmax : 1 ≤ maxLen) (hroot : p₀ root / huffmanMask = 0) :
    Depths root maxLen root p₀ (p₀, setAt .zero 1 2) := by
  refine ⟨fun j _ => rfl, hroot, fun j hj hj' => by omega, ?_, fun j => rfl, ?_, ?_⟩
  · intro j k hj hjk hk
    have hkj : k = j := by omega
    rw [hkj]
  · rw [Nat.add_sub_cancel_left]
    exact balanced_two hmax
  · intro _ d
    dsimp only
    rw [nodesAt_root, nodesAt_root, hroot, setAt_apply, if_neg (by omega : ¬ 0 = d + 1)]
    by_cases hd : d = 0
    · rw [hd]
      rfl
    · rw [if_neg (by omega), if_neg (by omega)]
      rfl

/-- The turn for a node, with the length its codes would have and the code that is split. -/
theorem huffmanDepth_eq {p lenCounters : CArray} {len : ℕ}
    (hlen : len = p (p e / huffmanMask) / huffmanMask + 1) :
    huffmanDepth maxLen (p, lenCounters) e =
      (setAt p e (p e % huffmanMask + len * huffmanMask), splitLen lenCounters
        (if maxLen ≤ len then huffmanFindLen lenCounters (maxLen - 1) else len)) := by
  rw [hlen]
  rfl

theorem Depths.step (h : Depths root maxLen (e + 1) p₀ st)
    (hparents : Parents root fun j => p₀ j / huffmanMask) (he : e < root) (hmax : 1 ≤ maxLen)
    (hfit : root + 2 ≤ 2 ^ maxLen) : Depths root maxLen e p₀ (huffmanDepth maxLen st e) := by
  obtain ⟨p, lenCounters⟩ := st
  obtain ⟨htodo, hroot, hdone, hanti, hlow, hbalanced, hcounts⟩ := h
  dsimp only at htodo hroot hdone hanti hlow hbalanced hcounts
  have hpe : p e = p₀ e := htodo e (by omega)
  have hparent_lt := hparents.lt e he
  have hparent_le := hparents.le e he
  obtain ⟨d₀, hd₀⟩ : ∃ d, p (p₀ e / huffmanMask) / huffmanMask = d := ⟨_, rfl⟩
  have hlen : d₀ + 1 = p (p e / huffmanMask) / huffmanMask + 1 := by rw [hpe, hd₀]
  rw [huffmanDepth_eq hlen]
  obtain ⟨p', hp'⟩ : ∃ p', setAt p e (p e % huffmanMask + (d₀ + 1) * huffmanMask) = p' := ⟨_, rfl⟩
  have hsame : ∀ j, j ≠ e → p' j = p j := by
    intro j hj
    rw [← hp', setAt_of_ne _ _ hj]
  have hown : p' e / huffmanMask = d₀ + 1 := by rw [← hp', setAt_self, div_mask]
  have hdone' : ∀ j, e ≤ j → j < root →
      p' j / huffmanMask = p' (p₀ j / huffmanMask) / huffmanMask + 1 := by
    intro j hj hj'
    have hlt := hparents.lt j hj'
    rw [hsame (p₀ j / huffmanMask) (by omega)]
    by_cases hje : j = e
    · rw [hje, hown, hd₀]
    · rw [hsame j hje]
      exact hdone j (by omega) hj'
  have hroot' : p' root / huffmanMask = 0 := by rw [hsame root (by omega), hroot]
  have hnext : p (e + 1) / huffmanMask ≤ d₀ + 1 := by
    by_cases hlast : e + 1 = root
    · rw [hlast, hroot]
      exact Nat.zero_le _
    · have hmono := hparents.mono e (by omega)
      have hle := hparents.le (e + 1) (by omega)
      rw [hdone (e + 1) le_rfl (by omega), ← hd₀]
      exact Nat.succ_le_succ (hanti _ _ (by omega) hmono hle)
  have hanti' : ∀ j k, e ≤ j → j ≤ k → k ≤ root → p' k / huffmanMask ≤ p' j / huffmanMask := by
    intro j k hj hjk hk
    by_cases hke : k = e
    · have hje : j = e := by omega
      rw [hke, hje]
    · rw [hsame k hke]
      by_cases hje : j = e
      · rw [hje, hown]
        exact (hanti (e + 1) k le_rfl (by omega) hk).trans hnext
      · rw [hsame j hje]
        exact hanti j k (by omega) hjk hk
  have hnodes : ∀ d, nodesAt root e (fun j => p' j / huffmanMask) d =
      nodesAt root (e + 1) (fun j => p j / huffmanMask) d +
        if p' e / huffmanMask = d then 1 else 0 :=
    nodesAt_succ he.le fun j hj _ => by rw [hsame j (by omega)]
  -- while the limit is not reached, the node itself has not given its code on
  have hown_code : d₀ + 1 < maxLen → 1 ≤ lenCounters (d₀ + 1) := by
    intro hshort
    have hcount := hcounts (by omega) d₀
    have hcard := hparents.card_le (d := d₀) hroot' hdone'
    have hnew := hnodes (d₀ + 1)
    have hold : #{j ∈ Icc (e + 1) root | p' j / huffmanMask = d₀} =
        nodesAt root (e + 1) (fun j => p j / huffmanMask) d₀ := by
      rw [nodesAt]
      congr 1
      apply filter_congr
      intro j hj
      rw [mem_Icc] at hj
      rw [hsame j (by omega)]
    rw [if_pos hown, nodesAt] at hnew
    rw [hold, hnew] at hcard
    omega
  rw [hp']
  have hsplit : ∀ short, short = (if maxLen ≤ d₀ + 1 then huffmanFindLen lenCounters (maxLen - 1)
      else d₀ + 1) → 1 ≤ short ∧ short < maxLen ∧ 1 ≤ lenCounters short := by
    intro short hshort
    by_cases hlong : maxLen ≤ d₀ + 1
    · -- some code is shorter than the limit, since not all leaves are there yet
      rw [if_pos hlong] at hshort
      obtain ⟨h1, h2, h3⟩ := huffmanFindLen_spec (hbalanced.exists_shorter (by omega))
      rw [hshort]
      exact ⟨h1, by omega, Nat.one_le_iff_ne_zero.mpr h3⟩
    · rw [if_neg hlong] at hshort
      rw [hshort]
      exact ⟨by omega, by omega, hown_code (by omega)⟩
  have hleaves : root + 2 - e = root + 2 - (e + 1) + 1 := by omega
  refine ⟨fun j hj => ?_, hroot', hdone', hanti', fun j => ?_, ?_, ?_⟩
  · rw [hsame j (by omega)]
    exact htodo j (by omega)
  · rw [← hlow j, ← hp']
    exact setAt_low p e j (Nat.mul_mod_left (d₀ + 1) huffmanMask)
  · obtain ⟨h1, h2, h3⟩ := hsplit _ rfl
    rw [hleaves]
    exact hbalanced.split h1 h2 h3
  · intro hlim d
    rw [hown] at hlim
    have hcount := hcounts (by omega) d
    have hadd := splitLen_add (hown_code hlim) (d + 1)
    have hnode := hnodes d
    have hnode' := hnodes (d + 1)
    rw [hown] at hnode hnode'
    dsimp only
    rw [if_neg (by omega : ¬ maxLen ≤ d₀ + 1), hnode, hnode']
    by_cases hd : d = d₀
    · rw [if_pos (by omega), if_neg (by omega)] at hadd
      rw [if_pos (by omega), if_neg (by omega)]
      omega
    · rw [if_neg (by omega)] at hadd
      rw [if_neg (by omega : ¬ d₀ + 1 = d + 1)]
      by_cases hd' : d = d₀ + 1
      · rw [if_pos (by omega)] at hadd
        rw [if_pos hd'.symm]
        omega
      · rw [if_neg (by omega)] at hadd
        rw [if_neg (Ne.symm hd')]
        omega

theorem depths_run (hparents : Parents root fun j => p₀ j / huffmanMask) (hmax : 1 ≤ maxLen)
    (hfit : root + 2 ≤ 2 ^ maxLen) {n : ℕ} (hn : n ≤ root) {st : CArray × CArray}
    (h : Depths root maxLen n p₀ st) :
    Depths root maxLen 0 p₀ ((List.range n).reverse.foldl (huffmanDepth maxLen) st) := by
  induction n generalizing st with
  | zero => exact h
  | succ n ih =>
      rw [List.range_succ, List.reverse_append, List.foldl_append]
      exact ih (by omega) (h.step hparents (by omega) hmax hfit)

end Depth

theorem huffmanCounts_spec (p : CArray) {num maxLen : ℕ} (hnum : 2 ≤ num) (hmax : 1 ≤ maxLen)
    (hfit : num ≤ 2 ^ maxLen) : Balanced maxLen num (huffmanCounts p num maxLen).2 ∧
      ∀ j, (huffmanCounts p num maxLen).1 j % huffmanMask = p j % huffmanMask := by
  have hmerged : Merged num (num - 1) p
      ((List.range (num - 1)).foldl (huffmanMerge num) (p, 0, 0)) := merged_run p (by omega)
  have hparents := hmerged.parents hnum
  rw [huffmanCounts]
  generalize (List.range (num - 1)).foldl (huffmanMerge num) (p, 0, 0) = st at hmerged hparents
  obtain ⟨q, i, b⟩ := st
  dsimp only at hparents ⊢
  set q₀ := setAt q (num - 2) (q (num - 2) % huffmanMask) with hq₀
  have hparents₀ : Parents (num - 2) fun j => q₀ j / huffmanMask := by
    have hsame : ∀ j, j < num - 2 → q₀ j = q j := fun j hj => setAt_of_ne _ _ (by omega)
    constructor
    · intro j hj
      rw [hsame j hj]
      exact hparents.lt j hj
    · intro j hj
      rw [hsame j hj]
      exact hparents.le j hj
    · intro j hj
      rw [hsame j (by omega), hsame (j + 1) hj]
      exact hparents.mono j hj
    · intro j hj
      rw [hsame j (by omega), hsame (j + 2) hj]
      exact hparents.pairs j hj
  have hroot : q₀ (num - 2) / huffmanMask = 0 := by
    rw [hq₀, setAt_self, mask_eq]
    omega
  have hlow₀ : ∀ j, q₀ j % huffmanMask = q j % huffmanMask :=
    fun j => setAt_low q (num - 2) j (Nat.zero_mod _)
  have hdepths := depths_run hparents₀ hmax (by omega) le_rfl (depths_start hmax hroot)
  have hbalanced := hdepths.balanced
  rw [Nat.sub_zero, Nat.sub_add_cancel hnum] at hbalanced
  refine ⟨hbalanced, fun j => ?_⟩
  rw [hdepths.low j, hlow₀ j]
  exact hmerged.low j

end Huffman
end ErofsUtils
