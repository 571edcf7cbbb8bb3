import ErofsUtils.CanonicalCode
import ErofsUtils.HeapSort
import ErofsUtils.HuffmanTree

/-!
# The codes of Huffman_Generate

The symbols in use are sorted by their frequencies, with the symbols in the low bits, and the
lengths are handed out in this order, the longest ones first, as often as the counters say. So the
lengths satisfy Kraft's equality and do not grow with the frequency, and the codes that
`deflate_genhuffcodes` makes of them are the canonical ones.
-/

namespace ErofsUtils
namespace Huffman

def usedSymbols (freqs : CArray) (numSymbols : ℕ) : List ℕ :=
  (List.range numSymbols).filter fun i => freqs i ≠ 0

structure LengthLimited (freqs : CArray) (numSymbols maxLen : ℕ) (codes lens : CArray) : Prop where
  zero : ∀ i, i < numSymbols → (lens i = 0 ↔ freqs i = 0)
  bounds : ∀ i, i < numSymbols → freqs i ≠ 0 → 1 ≤ lens i ∧ lens i ≤ maxLen
  kraft : ∑ i ∈ Finset.range numSymbols with freqs i ≠ 0, 2 ^ (maxLen - lens i) = 2 ^ maxLen
  monotone : ∀ i j, i < numSymbols → j < numSymbols → freqs j ≠ 0 → freqs j < freqs i →
    lens i ≤ lens j
  canonical : ∀ i, i < numSymbols → freqs i ≠ 0 →
    codes i = CanonicalCode.code ((List.range numSymbols).map lens.get) i
  fits : ∀ i, i < numSymbols → freqs i ≠ 0 → codes i < 2 ^ lens i
  prefixFree : ∀ i j, i < numSymbols → j < numSymbols → freqs i ≠ 0 → freqs j ≠ 0 → i ≠ j →
    lens i ≤ lens j → codes j / 2 ^ (lens j - lens i) ≠ codes i

section Assign

def lengthsDown (lenCounters : CArray) : ℕ → List ℕ
  | 0 => []
  | len + 1 => List.replicate (lenCounters (len + 1)) (len + 1) ++ lengthsDown lenCounters len

/-- The lengths of a list go to the symbols from position `i` on. -/
def assignList (p : CArray) : List ℕ → ℕ → CArray → CArray
  | [], _, lens => lens
  | len :: rest, i, lens => assignList p rest (i + 1) (setAt lens (p i % huffmanMask) (len % 256))

variable {p lenCounters lens : CArray} {i j n len : ℕ}

theorem assignList_append (l l' : List ℕ) (i : ℕ) (lens : CArray) :
    assignList p (l ++ l') i lens = assignList p l' (i + l.length) (assignList p l i lens) := by
  induction l generalizing i lens with
  | nil => rfl
  | cons len l ih =>
      rw [List.cons_append, assignList, assignList, ih, List.length_cons]
      congr 1
      omega

theorem huffmanAssignRun_eq (len k i : ℕ) (lens : CArray) :
    huffmanAssignRun p len k i lens = (i + k, assignList p (List.replicate k len) i lens) := by
  induction k generalizing i lens with
  | zero => rfl
  | succ k ih =>
      rw [huffmanAssignRun, ih, List.replicate_succ, assignList]
      congr 1
      omega

theorem huffmanAssign_eq (n i : ℕ) (lens : CArray) :
    huffmanAssign p lenCounters n i lens = assignList p (lengthsDown lenCounters n) i lens := by
  induction n generalizing i lens with
  | zero => rfl
  | succ n ih =>
      rw [huffmanAssign, huffmanAssignRun_eq]
      dsimp only
      rw [ih, lengthsDown, assignList_append, List.length_replicate]

/-- Every symbol is given the length at its place, and no other symbol changes. -/
theorem assignList_other (l : List ℕ) (h : ∀ k, k < l.length → p (i + k) % huffmanMask ≠ j) :
    assignList p l i lens j = lens j := by
  induction l generalizing i lens with
  | nil => rfl
  | cons len l ih =>
      rw [assignList, ih]
      · exact setAt_of_ne _ _ (h 0 (by rw [List.length_cons]; omega)).symm
      · intro k hk
        have hnext := h (k + 1) (by rw [List.length_cons]; omega)
        rwa [← Nat.add_assoc, Nat.add_right_comm] at hnext

theorem assignList_at (l : List ℕ) {k : ℕ} (hk : k < l.length)
    (hinj : ∀ a b, a < l.length → b < l.length →
      p (i + a) % huffmanMask = p (i + b) % huffmanMask → a = b) :
    assignList p l i lens (p (i + k) % huffmanMask) = l.getD k 0 % 256 := by
  induction l generalizing i lens k with
  | nil => exact absurd hk (Nat.not_lt_zero k)
  | cons len l ih =>
      rw [List.length_cons] at hk hinj
      rw [assignList]
      cases k with
      | zero =>
          rw [assignList_other l]
          · exact setAt_self _ _ _
          · intro k hk heq
            have hkey : p (i + (k + 1)) % huffmanMask = p (i + 0) % huffmanMask := by
              rw [← heq]
              congr 2
              omega
            have := hinj (k + 1) 0 (by omega) (by omega) hkey
            omega
      | succ k =>
          have hpos : i + (k + 1) = i + 1 + k := by omega
          rw [hpos, ih (by omega)]
          · rfl
          · intro a b ha hb hab
            have hkey : p (i + (a + 1)) % huffmanMask = p (i + (b + 1)) % huffmanMask := by
              have ha' : i + (a + 1) = i + 1 + a := by omega
              have hb' : i + (b + 1) = i + 1 + b := by omega
              rw [ha', hb', hab]
            have := hinj (a + 1) (b + 1) (by omega) (by omega) hkey
            omega

theorem mem_lengthsDown (h : len ∈ lengthsDown lenCounters n) : 1 ≤ len ∧ len ≤ n := by
  induction n with
  | zero => exact absurd h List.not_mem_nil
  | succ n ih =>
      rw [lengthsDown, List.mem_append] at h
      cases h with
      | inl h =>
          have heq := (List.mem_replicate.mp h).2
          omega
      | inr h =>
          have := ih h
          omega

theorem lengthsDown_sorted (lenCounters : CArray) (n : ℕ) :
    (lengthsDown lenCounters n).Pairwise fun a b => b ≤ a := by
  induction n with
  | zero => exact List.Pairwise.nil
  | succ n ih =>
      rw [lengthsDown, List.pairwise_append]
      refine ⟨?_, ih, ?_⟩
      · rw [List.pairwise_replicate]
        exact Or.inr le_rfl
      · intro a ha b hb
        have heq := (List.mem_replicate.mp ha).2
        have := mem_lengthsDown hb
        omega

theorem count_lengthsDown (h1 : 1 ≤ len) :
    (lengthsDown lenCounters n).count len = if len ≤ n then lenCounters len else 0 := by
  induction n with
  | zero => rw [if_neg (by omega)]; rfl
  | succ n ih =>
      rw [lengthsDown, List.count_append, ih, List.count_replicate]
      by_cases heq : n + 1 = len
      · rw [if_pos (beq_iff_eq.mpr heq), if_neg (by omega), if_pos (by omega), heq, Nat.add_zero]
      · rw [if_neg (fun hb => heq (beq_iff_eq.mp hb)), Nat.zero_add]
        exact if_congr (by omega) rfl rfl

theorem sum_lengthsDown (hzero : lenCounters 0 = 0) (f : ℕ → ℕ) (n : ℕ) :
    ((lengthsDown lenCounters n).map f).sum =
      ∑ l ∈ Finset.range (n + 1), lenCounters l * f l := by
  induction n with
  | zero =>
      rw [Finset.sum_range_one, hzero, Nat.zero_mul]
      rfl
  | succ n ih =>
      rw [Finset.sum_range_succ, ← ih, lengthsDown, List.map_append, List.sum_append,
        List.map_replicate, List.sum_replicate, smul_eq_mul, Nat.add_comm]

end Assign

section Codes

variable {lens blCount p : CArray}

theorem genCodesFrom_spec (lens next p : CArray) (n : ℕ) :
    (∀ l, (genCodesFrom lens next p n).1 l =
      next l + ((List.range n).map lens.get).count l) ∧
    ∀ k, k < n → (genCodesFrom lens next p n).2 k =
      next (lens k) + ((List.range k).map lens.get).count (lens k) := by
  induction n with
  | zero => exact ⟨fun _ => rfl, fun k hk => absurd hk (Nat.not_lt_zero k)⟩
  | succ n ih =>
      obtain ⟨hnext, hcodes⟩ := ih
      rw [genCodesFrom] at hnext hcodes ⊢
      rw [List.range_succ, List.foldl_append]
      generalize (List.range n).foldl _ (next, p) = st at hnext hcodes ⊢
      obtain ⟨next', p'⟩ := st
      dsimp only [List.foldl_cons, List.foldl_nil] at hnext hcodes ⊢
      refine ⟨fun l => ?_, fun k hk => ?_⟩
      · rw [List.map_append, List.count_append, List.map_singleton, setAt_apply,
          List.count_singleton]
        by_cases hl : l = lens n
        · rw [if_pos hl, if_pos (beq_iff_eq.mpr hl.symm), hl, hnext]
          omega
        · rw [if_neg hl, if_neg (fun hb => hl (beq_iff_eq.mp hb).symm), hnext]
          omega
      · by_cases hkn : k = n
        · rw [hkn, setAt_self, hnext]
        · rw [setAt_of_ne _ _ hkn]
          exact hcodes k (by omega)

theorem nextCodes_eq {l : List ℕ} (h : ∀ n, blCount n = CanonicalCode.blCount l n) (n : ℕ) :
    nextCodes blCount n = CanonicalCode.firstCode l n := by
  induction n with
  | zero => rfl
  | succ n ih => rw [nextCodes, CanonicalCode.firstCode, ih, h n]

theorem len_map_range {n k : ℕ} (hk : k < n) :
    CanonicalCode.len ((List.range n).map lens.get) k = lens k := by
  rw [CanonicalCode.len, List.getD_eq_getElem?_getD, List.getElem?_map, List.getElem?_range hk]
  rfl

/-- `deflate_genhuffcodes` makes the canonical codes when it is given the right counters. -/
theorem deflateGenhuffcodes_canonical {n k : ℕ}
    (h : ∀ l, blCount l = CanonicalCode.blCount ((List.range n).map lens.get) l) (hk : k < n) :
    deflateGenhuffcodes lens p n blCount k =
      CanonicalCode.code ((List.range n).map lens.get) k := by
  have htake : ((List.range n).map lens.get).take k = (List.range k).map lens.get := by
    rw [← List.map_take, List.take_range, Nat.min_eq_left hk.le]
  rw [deflateGenhuffcodes, (genCodesFrom_spec lens ⟨nextCodes blCount⟩ p n).2 k hk,
    CanonicalCode.code, len_map_range hk, htake]
  congr 1
  exact nextCodes_eq h (lens k)

end Codes

section Symbols

variable {freqs : CArray} {numSymbols : ℕ}

theorem mem_usedSymbols {i : ℕ} : i ∈ usedSymbols freqs numSymbols ↔ i < numSymbols ∧ freqs i ≠ 0 := by
  rw [usedSymbols, List.mem_filter, List.mem_range, decide_eq_true_eq]

theorem usedSymbols_nodup : (usedSymbols freqs numSymbols).Nodup :=
  List.Nodup.filter _ List.nodup_range

theorem entry_eq (hsym : numSymbols ≤ 1024) {i : ℕ} (hi : i < numSymbols) (hfreq : freqs i < 2 ^ 22) :
    i ||| u32 (freqs i * huffmanMask) = i + freqs i * huffmanMask := by
  have hu : u32 (freqs i * huffmanMask) = 2 ^ 10 * freqs i := by
    rw [u32, mask_eq]
    omega
  rw [hu, Nat.or_comm, ← Nat.two_pow_add_eq_or_of_lt (by omega : i < 2 ^ 10), mask_eq]
  omega

theorem huffmanCollect_eq (hsym : numSymbols ≤ 1024)
    (hfreq : ∀ i, i < numSymbols → freqs i < 2 ^ 22) : huffmanCollect freqs numSymbols =
      (usedSymbols freqs numSymbols).map fun i => i + freqs i * huffmanMask := by
  rw [huffmanCollect, usedSymbols]
  apply List.map_congr_left
  intro i hi
  rw [List.mem_filter, List.mem_range] at hi
  exact entry_eq hsym hi.1 (hfreq i hi.1)

/-- The entries in order: each is a symbol with its frequency, every symbol in use is in one, and
no symbol is in two. -/
structure SortedSymbols (freqs : CArray) (numSymbols num : ℕ) (q : CArray) : Prop where
  sorted : ∀ i j, i ≤ j → j < num → q i ≤ q j
  entry : ∀ k, k < num → q k = q k % huffmanMask + freqs (q k % huffmanMask) * huffmanMask
  perm : ((List.range num).map fun k => q k % huffmanMask).Perm (usedSymbols freqs numSymbols)

theorem sortedSymbols (p : CArray) (hsym : numSymbols ≤ 1024)
    (hfreq : ∀ i, i < numSymbols → freqs i < 2 ^ 22) :
    SortedSymbols freqs numSymbols (usedSymbols freqs numSymbols).length
      (heapSort ⟨fun i => if i < (huffmanCollect freqs numSymbols).length then
        (huffmanCollect freqs numSymbols).getD i 0 else p i⟩
        (huffmanCollect freqs numSymbols).length) := by
  have hcollect := huffmanCollect_eq hsym hfreq
  generalize hused : huffmanCollect freqs numSymbols = used at hcollect ⊢
  have hlen : used.length = (usedSymbols freqs numSymbols).length := by
    rw [hcollect, List.length_map]
  obtain ⟨hsorted, hperm⟩ := HeapSort.heapSort_spec
    ⟨fun i => if i < used.length then used.getD i 0 else p i⟩ used.length
  have hstart : ((List.range used.length).map fun i =>
      if i < used.length then used.getD i 0 else p i) = used := by
    apply List.ext_getElem?
    intro i
    rw [List.getElem?_map]
    by_cases hi : i < used.length
    · rw [List.getElem?_range hi, Option.map_some, if_pos hi, List.getD_eq_getElem?_getD,
        List.getElem?_eq_getElem hi]
      rfl
    · rw [List.getElem?_eq_none (by rw [List.length_range]; omega),
        List.getElem?_eq_none (by omega)]
      rfl
  rw [← hlen]
  generalize heapSort _ used.length = q at hsorted hperm ⊢
  replace hperm : ((List.range used.length).map q.get).Perm used := hperm.trans (by rw [hstart])
  have hmod : ∀ i ∈ usedSymbols freqs numSymbols, (i + freqs i * huffmanMask) % huffmanMask = i := by
    intro i hi
    have hlt := (mem_usedSymbols.mp hi).1
    rw [Nat.add_mul_mod_self_right, mask_eq, Nat.mod_eq_of_lt (by omega)]
  refine ⟨hsorted, fun k hk => ?_, ?_⟩
  · have hmem : q k ∈ used := by
      rw [← hperm.mem_iff]
      exact List.mem_map_of_mem (List.mem_range.mpr hk)
    rw [hcollect, List.mem_map] at hmem
    obtain ⟨i, hi, heq⟩ := hmem
    rw [← heq, hmod i hi]
  · have hsymbols : used.map (· % huffmanMask) = usedSymbols freqs numSymbols := by
      rw [hcollect, List.map_map]
      conv_rhs => rw [← List.map_id (usedSymbols freqs numSymbols)]
      exact List.map_congr_left hmod
    rw [← hsymbols]
    have hmap := hperm.map (· % huffmanMask)
    rwa [List.map_map] at hmap

end Symbols

section Lengths

variable {freqs q p lenCounters lens₀ lens : CArray} {numSymbols num maxLen : ℕ}

structure Assigned (freqs : CArray) (numSymbols num : ℕ) (q lens : CArray) (l : List ℕ) :
    Prop where
  length : l.length = num
  place : ∀ i, i < numSymbols → freqs i ≠ 0 → ∃ k, k < num ∧ q k = i + freqs i * huffmanMask ∧
    lens i = l.getD k 0
  unused : ∀ i, i < numSymbols → freqs i = 0 → lens i = 0
  perm : ((usedSymbols freqs numSymbols).map lens.get).Perm l

theorem Balanced.length_lengthsDown (h : Balanced maxLen num lenCounters) :
    (lengthsDown lenCounters maxLen).length = num := by
  have hsum := sum_lengthsDown h.zero (fun _ => 1) maxLen
  simp only [Nat.mul_one] at hsum
  rw [h.total, List.map_const', List.sum_replicate, smul_eq_mul, Nat.mul_one] at hsum
  exact hsum

theorem assigned (hq : SortedSymbols freqs numSymbols num q)
    (hlow : ∀ j, p j % huffmanMask = q j % huffmanMask)
    (hbalanced : Balanced maxLen num lenCounters) (hmax : maxLen ≤ 16)
    (hunused : ∀ i, i < numSymbols → freqs i = 0 → lens₀ i = 0)
    (hlens : lens = assignList p (lengthsDown lenCounters maxLen) 0 lens₀) :
    Assigned freqs numSymbols num q lens (lengthsDown lenCounters maxLen) := by
  have hlength := hbalanced.length_lengthsDown
  have hnodup : ((List.range num).map fun k => q k % huffmanMask).Nodup :=
    hq.perm.nodup_iff.mpr usedSymbols_nodup
  have hinj : ∀ a b, a < num → b < num → q a % huffmanMask = q b % huffmanMask → a = b :=
    fun a b ha hb hab =>
      List.inj_on_of_nodup_map hnodup (List.mem_range.mpr ha) (List.mem_range.mpr hb) hab
  have hused : ∀ i, i ∈ usedSymbols freqs numSymbols ↔ ∃ k, k < num ∧ q k % huffmanMask = i := by
    intro i
    rw [← hq.perm.mem_iff, List.mem_map]
    simp only [List.mem_range]
  have hat : ∀ k, k < num → lens (q k % huffmanMask) = (lengthsDown lenCounters maxLen).getD k 0 := by
    intro k hk
    have hmem : (lengthsDown lenCounters maxLen).getD k 0 ∈ lengthsDown lenCounters maxLen := by
      rw [List.getD_eq_getElem?_getD, List.getElem?_eq_getElem (hlength.symm ▸ hk)]
      exact List.getElem_mem _
    have hsmall := mem_lengthsDown hmem
    have hinj₀ : ∀ a b, a < (lengthsDown lenCounters maxLen).length →
        b < (lengthsDown lenCounters maxLen).length →
        p (0 + a) % huffmanMask = p (0 + b) % huffmanMask → a = b := by
      intro a b ha hb hab
      rw [hlength] at ha hb
      rw [Nat.zero_add, Nat.zero_add, hlow, hlow] at hab
      exact hinj a b ha hb hab
    have h := @assignList_at p lens₀ 0 (lengthsDown lenCounters maxLen) k (hlength.symm ▸ hk) hinj₀
    rw [Nat.zero_add, hlow, ← hlens] at h
    rw [h, Nat.mod_eq_of_lt (by omega)]
  refine ⟨hlength, fun i hi hfreq => ?_, fun i hi hfreq => ?_, ?_⟩
  · obtain ⟨k, hk, hki⟩ := (hused i).mp (mem_usedSymbols.mpr ⟨hi, hfreq⟩)
    refine ⟨k, hk, ?_, ?_⟩
    · rw [hq.entry k hk, hki]
    · rw [← hat k hk, hki]
  · rw [hlens, assignList_other]
    · exact hunused i hi hfreq
    · intro k hk heq
      rw [hlength] at hk
      rw [Nat.zero_add, hlow] at heq
      exact (mem_usedSymbols.mp ((hused i).mpr ⟨k, hk, heq⟩)).2 hfreq
  · have hlist : ((List.range num).map fun k => q k % huffmanMask).map lens.get =
        lengthsDown lenCounters maxLen := by
      apply List.ext_getElem?
      intro k
      rw [List.map_map, List.getElem?_map]
      by_cases hk : k < num
      · have hget : (lengthsDown lenCounters maxLen)[k]? =
            some ((lengthsDown lenCounters maxLen).getD k 0) := by
          rw [List.getD_eq_getElem?_getD, List.getElem?_eq_getElem (hlength.symm ▸ hk)]
          rfl
        rw [List.getElem?_range hk, Option.map_some, hget, ← hat k hk]
        rfl
      · rw [List.getElem?_eq_none (by rw [List.length_range]; omega),
          List.getElem?_eq_none (by omega)]
        rfl
    rw [← hlist]
    exact (hq.perm.map lens.get).symm

theorem Assigned.count {l : List ℕ} (h : Assigned freqs numSymbols num q lens l) {n : ℕ}
    (hn : n ≠ 0) : ((List.range numSymbols).map lens.get).count n = l.count n := by
  rw [← h.perm.count_eq, List.count_eq_countP, List.count_eq_countP, List.countP_map,
    List.countP_map, usedSymbols, List.countP_filter]
  apply List.countP_congr
  intro i hi
  have hlt := List.mem_range.mp hi
  simp only [Function.comp_apply, beq_iff_eq, Bool.and_eq_true, decide_eq_true_eq]
  constructor
  · intro heq
    refine ⟨heq, fun hfreq => hn ?_⟩
    rw [← heq]
    exact h.unused i hlt hfreq
  · exact And.left

theorem Assigned.lengthLimited (hq : SortedSymbols freqs numSymbols num q)
    (hsym : numSymbols ≤ 1024) (hbalanced : Balanced maxLen num lenCounters)
    (h : Assigned freqs numSymbols num q lens (lengthsDown lenCounters maxLen)) :
    LengthLimited freqs numSymbols maxLen (deflateGenhuffcodes lens p numSymbols lenCounters)
      lens := by
  have hbounds : ∀ i, i < numSymbols → freqs i ≠ 0 → 1 ≤ lens i ∧ lens i ≤ maxLen := by
    intro i hi hfreq
    have hmem : lens i ∈ lengthsDown lenCounters maxLen := by
      rw [← h.perm.mem_iff]
      exact List.mem_map_of_mem (mem_usedSymbols.mpr ⟨hi, hfreq⟩)
    exact mem_lengthsDown hmem
  have hcounters : ∀ l, lenCounters l =
      CanonicalCode.blCount ((List.range numSymbols).map lens.get) l := by
    intro l
    rw [CanonicalCode.blCount]
    by_cases hl : l = 0
    · rw [if_pos hl, hl, hbalanced.zero]
    · rw [if_neg hl, h.count hl, count_lengthsDown (by omega)]
      split
      · rfl
      · exact hbalanced.above l (by omega)
  have hkraft : ∑ k ∈ Finset.range (maxLen + 1),
      CanonicalCode.blCount ((List.range numSymbols).map lens.get) k * 2 ^ (maxLen - k) ≤
        2 ^ maxLen := by
    simp only [← hcounters]
    exact hbalanced.kraft.le
  have hcode : ∀ i, i < numSymbols → deflateGenhuffcodes lens p numSymbols lenCounters i =
      CanonicalCode.code ((List.range numSymbols).map lens.get) i :=
    fun i hi => deflateGenhuffcodes_canonical hcounters hi
  have hlen : ∀ i, i < numSymbols →
      CanonicalCode.len ((List.range numSymbols).map lens.get) i = lens i :=
    fun i hi => len_map_range hi
  constructor
  · intro i hi
    constructor
    · intro hzero
      by_contra hfreq
      have := hbounds i hi hfreq
      omega
    · exact h.unused i hi
  · exact hbounds
  · have hset : (Finset.range numSymbols).filter (fun i => freqs i ≠ 0) =
        (usedSymbols freqs numSymbols).toFinset := by
      ext i
      rw [Finset.mem_filter, Finset.mem_range, List.mem_toFinset, mem_usedSymbols]
    rw [hset, List.sum_toFinset _ usedSymbols_nodup]
    have hsum := (h.perm.map fun l => 2 ^ (maxLen - l)).sum_eq
    rw [sum_lengthsDown hbalanced.zero, hbalanced.kraft, List.map_map] at hsum
    exact hsum
  · intro i j hi hj hfreqj hlt
    obtain ⟨ki, hki, hqi, hleni⟩ := h.place i hi (by omega)
    obtain ⟨kj, hkj, hqj, hlenj⟩ := h.place j hj hfreqj
    have hlength := h.length
    -- the entry of the more frequent symbol comes later
    have horder : kj < ki := by
      by_contra hnot
      have hle := hq.sorted ki kj (by omega) hkj
      rw [hqi, hqj, mask_eq] at hle
      omega
    have hsorted := List.pairwise_iff_getElem.mp (lengthsDown_sorted lenCounters maxLen) kj ki
      (by omega) (by omega) horder
    rw [hleni, hlenj, List.getD_eq_getElem?_getD, List.getD_eq_getElem?_getD,
      List.getElem?_eq_getElem (by omega), List.getElem?_eq_getElem (by omega)]
    exact hsorted
  · exact fun i hi _ => hcode i hi
  · intro i hi hfreq
    have hi' := hbounds i hi hfreq
    have hfits := CanonicalCode.code_lt (s := i) (by rw [hlen i hi]; omega)
      (by rw [hlen i hi]; exact hi'.2) hkraft
    rwa [hlen i hi, ← hcode i hi] at hfits
  · intro i j hi hj hfreqi hfreqj hne hle
    have hi' := hbounds i hi hfreqi
    have hj' := hbounds j hj hfreqj
    have hfree := CanonicalCode.prefix_free (s := i) (t := j) (by rw [hlen i hi]; omega)
      (by rw [hlen j hj]; omega) hne (by rw [hlen i hi, hlen j hj]; exact hle)
    rwa [hlen i hi, hlen j hj, ← hcode i hi, ← hcode j hj] at hfree

end Lengths

/-- For every frequency table with two symbols in use or more, with frequencies that add up to less
than `2 ^ 22` and a limit that leaves room for the symbols, `Huffman_Generate` gives exactly the
symbols in use a length within the limit, so that Kraft's equality holds and a more frequent
symbol has no longer code, and the codes are the canonical ones, of which none is the beginning of
another one. -/
theorem huffmanGenerate_lengthLimited (freqs p lens : CArray) {numSymbols maxLen : ℕ}
    (hsym : numSymbols ≤ 1024) (hmax : maxLen ≤ 16)
    (htotal : ∑ i ∈ Finset.range numSymbols, freqs i < 2 ^ 22)
    (htwo : 2 ≤ (usedSymbols freqs numSymbols).length)
    (hfit : (usedSymbols freqs numSymbols).length ≤ 2 ^ maxLen) :
    LengthLimited freqs numSymbols maxLen (huffmanGenerate freqs p lens numSymbols maxLen).1
      (huffmanGenerate freqs p lens numSymbols maxLen).2 := by
  have hfreq : ∀ i, i < numSymbols → freqs i < 2 ^ 22 := by
    intro i hi
    have hle := Finset.single_le_sum (f := freqs.get) (fun j _ => Nat.zero_le _)
      (Finset.mem_range.mpr hi)
    omega
  have hq := sortedSymbols p hsym hfreq
  have hnum : (huffmanCollect freqs numSymbols).length = (usedSymbols freqs numSymbols).length := by
    rw [huffmanCollect_eq hsym hfreq, List.length_map]
  have hmax1 : 1 ≤ maxLen := by
    rcases Nat.eq_zero_or_pos maxLen with h0 | h0
    · rw [h0, pow_zero] at hfit
      omega
    · exact h0
  rw [huffmanGenerate]
  dsimp only
  rw [if_neg (by omega)]
  rw [← hnum] at hq htwo hfit
  generalize (huffmanCollect freqs numSymbols).length = num at hq htwo hfit ⊢
  generalize heapSort _ num = q at hq ⊢
  obtain ⟨hbalanced, hlow⟩ := huffmanCounts_spec q htwo hmax1 hfit
  generalize huffmanCounts q num maxLen = counts at hbalanced hlow ⊢
  have hunused : ∀ i, i < numSymbols → freqs i = 0 →
      (⟨fun i => if i < numSymbols ∧ freqs i = 0 then 0 else lens i⟩ : CArray) i = 0 :=
    fun i hi hfreq => if_pos ⟨hi, hfreq⟩
  have hassigned := assigned hq hlow hbalanced hmax hunused (huffmanAssign_eq maxLen 0 _)
  exact hassigned.lengthLimited hq hsym hbalanced

/-- Four symbols, each twice as frequent as the one before it, whose codes may have two bits. -/
theorem huffmanGenerate_lengthLimited_four :
    LengthLimited ⟨fun i => 2 ^ i⟩ 4 2 (huffmanGenerate ⟨fun i => 2 ^ i⟩ .zero .zero 4 2).1
      (huffmanGenerate ⟨fun i => 2 ^ i⟩ .zero .zero 4 2).2 :=
  huffmanGenerate_lengthLimited _ _ _ (by decide) (by decide) (by decide) (by decide) (by decide)

example : (List.range 4).map (huffmanGenerate ⟨fun i => 2 ^ i⟩ .zero .zero 4 3).2.get =
    [3, 3, 2, 1] := by
  decide +kernel

end Huffman
end ErofsUtils
