import ErofsUtils.KiteHuffman
import Mathlib.GroupTheory.Perm.Basic
import Mathlib.Data.List.Perm.Basic
import Mathlib.Data.List.Nodup

/-!
# HeapSort sorts

The heap of `HeapSort` is numbered from 1, and an entry is never smaller than its children. A hole
in it goes down to the larger child until the value in hand may stand there. Taking the first entry
out puts it behind the heap, where the entries are in order and none is smaller than one of the
heap.
-/

namespace ErofsUtils
namespace HeapSort

/-- The entries of `1..=n` in another order. -/
def Rearranged (n : ℕ) (p q : CArray) : Prop :=
  ∃ σ : Equiv.Perm ℕ, (∀ i, σ i ≠ i → 1 ≤ i ∧ i ≤ n) ∧ ∀ i, q i = p (σ i)

section Rearranged

variable {n m a b : ℕ} {p q r : CArray}

theorem Rearranged.refl (n : ℕ) (p : CArray) : Rearranged n p p :=
  ⟨1, fun _ hi => absurd rfl hi, fun _ => rfl⟩

theorem Rearranged.trans (h : Rearranged n p q) (h' : Rearranged n q r) : Rearranged n p r := by
  obtain ⟨σ, hσ, hq⟩ := h
  obtain ⟨τ, hτ, hr⟩ := h'
  refine ⟨σ * τ, fun i hi => ?_, fun i => ?_⟩
  · by_cases hfix : τ i = i
    · apply hσ i
      rwa [Equiv.Perm.mul_apply, hfix] at hi
    · exact hτ i hfix
  · rw [hr i, hq (τ i), Equiv.Perm.mul_apply]

theorem Rearranged.mono (h : Rearranged m p q) (hm : m ≤ n) : Rearranged n p q := by
  obtain ⟨σ, hσ, hq⟩ := h
  exact ⟨σ, fun i hi => ⟨(hσ i hi).1, (hσ i hi).2.trans hm⟩, hq⟩

/-- Two entries change places. -/
theorem Rearranged.swap (ha : 1 ≤ a ∧ a ≤ n) (hb : 1 ≤ b ∧ b ≤ n) (hqa : q a = p b)
    (hqb : q b = p a) (hother : ∀ i, i ≠ a → i ≠ b → q i = p i) : Rearranged n p q := by
  refine ⟨Equiv.swap a b, fun i hi => ?_, fun i => ?_⟩
  · by_cases hia : i = a
    · exact hia ▸ ha
    · by_cases hib : i = b
      · exact hib ▸ hb
      · exact absurd (Equiv.swap_apply_of_ne_of_ne hia hib) hi
  · by_cases hia : i = a
    · rw [hia, Equiv.swap_apply_left, hqa]
    · by_cases hib : i = b
      · rw [hib, Equiv.swap_apply_right, hqb]
      · rw [Equiv.swap_apply_of_ne_of_ne hia hib, hother i hia hib]

theorem Rearranged.mem (h : Rearranged n p q) {i : ℕ} (h1 : 1 ≤ i) (hi : i ≤ n) :
    ∃ j, 1 ≤ j ∧ j ≤ n ∧ q i = p j := by
  obtain ⟨σ, hσ, hq⟩ := h
  by_cases hfix : σ i = i
  · exact ⟨i, h1, hi, by rw [hq i, hfix]⟩
  · have hmoved := hσ (σ i) fun hfix' => hfix (σ.injective hfix')
    exact ⟨σ i, hmoved.1, hmoved.2, hq i⟩

theorem Rearranged.perm (h : Rearranged n p q) :
    ((List.range n).map fun i => q (i + 1)).Perm ((List.range n).map fun i => p (i + 1)) := by
  obtain ⟨σ, hσ, hq⟩ := h
  have hin : ∀ i, 1 ≤ i ∧ i ≤ n ↔ 1 ≤ σ i ∧ σ i ≤ n := by
    intro i
    by_cases hfix : σ i = i
    · rw [hfix]
    · have hmoved : σ (σ i) ≠ σ i := fun hfix' => hfix (σ.injective hfix')
      exact ⟨fun _ => hσ _ hmoved, fun _ => hσ i hfix⟩
  have hpos : ((List.range n).map fun i => σ (i + 1)).Perm ((List.range n).map (· + 1)) := by
    have hinj : Function.Injective fun i : ℕ => σ (i + 1) :=
      fun i j hij => Nat.succ_injective (σ.injective hij)
    rw [List.perm_ext_iff_of_nodup (List.Nodup.map hinj List.nodup_range)
      (List.Nodup.map Nat.succ_injective List.nodup_range)]
    intro k
    simp only [List.mem_map, List.mem_range]
    constructor
    · rintro ⟨i, hi, rfl⟩
      have := (hin (i + 1)).mp (by omega)
      exact ⟨σ (i + 1) - 1, by omega, by omega⟩
    · rintro ⟨i, hi, rfl⟩
      have hback := (hin (σ.symm (i + 1))).mpr (by rw [Equiv.apply_symm_apply]; omega)
      exact ⟨σ.symm (i + 1) - 1, by omega, by
        rw [Nat.sub_add_cancel hback.1, Equiv.apply_symm_apply]⟩
  have hmap := hpos.map p.get
  rw [List.map_map, List.map_map] at hmap
  simp only [hq]
  exact hmap

end Rearranged

/-- No child that is the child of `lo` or of an entry behind it is larger than its parent. -/
def Ordered (lo size : ℕ) (p : CArray) : Prop :=
  ∀ c, 2 ≤ c → c ≤ size → lo ≤ c / 2 → p c ≤ p (c / 2)

/-- The same but for a hole at `k`, where `temp` does not have to go further up. -/
structure Hole (lo size temp k : ℕ) (p : CArray) : Prop where
  except : ∀ c, 2 ≤ c → c ≤ size → lo ≤ c / 2 → c ≠ k → c / 2 ≠ k → p c ≤ p (c / 2)
  above : 2 ≤ k → lo ≤ k / 2 → temp ≤ p (k / 2)
  grand : ∀ c, 2 ≤ k → lo ≤ k / 2 → c ≤ size → c / 2 = k → p c ≤ p (k / 2)

section Down

variable {lo size temp k fuel : ℕ} {p : CArray}

theorem Hole.fill (h : Hole lo size temp k p)
    (hchild : ∀ c, c ≤ size → c / 2 = k → p c ≤ temp) : Ordered lo size (setAt p k temp) := by
  intro c hc2 hc hlo
  by_cases hck : c = k
  · have hne : c / 2 ≠ k := by omega
    rw [setAt_of_ne p temp hne, hck, setAt_self]
    exact h.above (by omega) (by rwa [← hck])
  · rw [setAt_of_ne p temp hck]
    by_cases hpk : c / 2 = k
    · rw [hpk, setAt_self]
      exact hchild c hc hpk
    · rw [setAt_of_ne p temp hpk]
      exact h.except c hc2 hc hlo hck hpk

/-- The hole goes down to a child that is larger than `temp` and not smaller than the other one. -/
theorem Hole.down {s : ℕ} (h : Hole lo size temp k p) (hk : 1 ≤ k) (hs : s / 2 = k)
    (hle : s ≤ size) (hmax : ∀ c, c ≤ size → c / 2 = k → p c ≤ p s) (htemp : temp ≤ p s) :
    Hole lo size temp s (setAt p k (p s)) := by
  have hsk : s ≠ k := by omega
  constructor
  · intro c hc2 hc hlo hcs hps
    by_cases hck : c = k
    · have hne : c / 2 ≠ k := by omega
      rw [setAt_of_ne p _ hne, hck, setAt_self]
      exact h.grand s (by omega) (by rwa [← hck]) hle hs
    · rw [setAt_of_ne p _ hck]
      by_cases hpk : c / 2 = k
      · rw [hpk, setAt_self]
        exact hmax c hc hpk
      · rw [setAt_of_ne p _ hpk]
        exact h.except c hc2 hc hlo hck hpk
  · intro _ _
    rw [hs, setAt_self]
    exact htemp
  · intro c _ hlo hc hcs
    have hck : c ≠ k := by omega
    rw [hs, setAt_self, setAt_of_ne p _ hck]
    have hpc := h.except c (by omega) hc (by omega) hck (by omega)
    rwa [hcs] at hpc

theorem heapSortDown_ordered (h : Hole lo size temp k p) (hk : 1 ≤ k) (hle : k ≤ size)
    (hfuel : size < k + fuel) : Ordered lo size (heapSortDown size temp fuel k p) := by
  induction fuel generalizing k p with
  | zero => omega
  | succ fuel ih =>
      rw [heapSortDown]
      dsimp only
      split
      · exact h.fill fun c hc hck => by omega
      next hs =>
      set s := if 2 * k < size ∧ p (2 * k) < p (2 * k + 1) then 2 * k + 1 else 2 * k with hsdef
      have hs2 : s / 2 = k ∧ s ≤ size := by
        rw [hsdef]
        split <;> omega
      have hmax : ∀ c, c ≤ size → c / 2 = k → p c ≤ p s := by
        intro c hc hck
        have hc2 : c = 2 * k ∨ c = 2 * k + 1 := by omega
        rw [hsdef]
        split
        · next hlt =>
            rcases hc2 with rfl | rfl
            · exact hlt.2.le
            · exact le_rfl
        · next hlt =>
            rcases hc2 with rfl | rfl
            · exact le_rfl
            · exact Nat.le_of_not_lt fun hgt => hlt ⟨by omega, hgt⟩
      split
      · next hstop => exact h.fill fun c hc hck => (hmax c hc hck).trans hstop
      · next hgo =>
          exact ih (h.down hk hs2.1 hs2.2 hmax (Nat.le_of_not_le hgo)) (by omega) hs2.2 (by omega)

theorem heapSortDown_rearranged (hk : 1 ≤ k) (hle : k ≤ size) :
    Rearranged size (setAt p k temp) (heapSortDown size temp fuel k p) := by
  induction fuel generalizing k p with
  | zero => exact .refl _ _
  | succ fuel ih =>
      rw [heapSortDown]
      dsimp only
      split
      · exact .refl _ _
      next hs =>
      set s := if 2 * k < size ∧ p (2 * k) < p (2 * k + 1) then 2 * k + 1 else 2 * k with hsdef
      have hs2 : k < s ∧ s ≤ size := by
        rw [hsdef]
        split <;> omega
      split
      · exact .refl _ _
      · have hswap : Rearranged size (setAt p k temp) (setAt (setAt p k (p s)) s temp) := by
          apply Rearranged.swap ⟨hk, hle⟩ (⟨by omega, hs2.2⟩ : 1 ≤ s ∧ s ≤ size)
          · rw [setAt_of_ne _ _ (by omega), setAt_self, setAt_of_ne _ _ (by omega)]
          · rw [setAt_self, setAt_self]
          · intro i hik his
            rw [setAt_of_ne _ _ his, setAt_of_ne _ _ hik, setAt_of_ne _ _ hik]
        exact hswap.trans (ih (by omega) hs2.2)

/-- Only entries of the heap below the hole change. -/
theorem heapSortDown_other {i : ℕ} (hk : 1 ≤ k) (hi : i < k ∨ size < i) (hle : k ≤ size) :
    heapSortDown size temp fuel k p i = p i := by
  induction fuel generalizing k p with
  | zero => exact setAt_of_ne _ _ (by omega)
  | succ fuel ih =>
      rw [heapSortDown]
      dsimp only
      split
      · exact setAt_of_ne _ _ (by omega)
      next hs =>
      set s := if 2 * k < size ∧ p (2 * k) < p (2 * k + 1) then 2 * k + 1 else 2 * k with hsdef
      have hs2 : k < s ∧ s ≤ size := by
        rw [hsdef]
        split <;> omega
      split
      · exact setAt_of_ne _ _ (by omega)
      · rw [ih (by omega) (by omega) hs2.2]
        exact setAt_of_ne _ _ (by omega)

end Down

section Sorting

variable {size n : ℕ} {p : CArray}

theorem setAt_get_self (p : CArray) (k : ℕ) : setAt p k (p k) = p := by
  ext j
  rw [setAt_apply]
  split
  · next hj => rw [hj]
  · rfl

theorem heapBuild_spec (size : ℕ) {i : ℕ} (p : CArray) (h : Ordered (i + 1) size p) (hi : i ≤ size) :
    Ordered 1 size (heapBuild size i p) ∧ Rearranged size p (heapBuild size i p) := by
  induction i generalizing p with
  | zero => exact ⟨h, .refl size p⟩
  | succ i ih =>
      have hole : Hole (i + 1) size (p (i + 1)) (i + 1) p := by
        constructor
        · intro c hc2 hc hlo hci hpi
          exact h c hc2 hc (by omega)
        · intro _ hlo
          omega
        · intro c _ hlo
          omega
      have hdown : Ordered (i + 1) size (heapSortDown size (p (i + 1)) size (i + 1) p) :=
        heapSortDown_ordered hole (by omega) hi (by omega)
      have hperm : Rearranged size (setAt p (i + 1) (p (i + 1)))
          (heapSortDown size (p (i + 1)) size (i + 1) p) :=
        heapSortDown_rearranged (by omega) hi
      rw [setAt_get_self] at hperm
      obtain ⟨hord, hrest⟩ := ih _ hdown (by omega)
      exact ⟨hord, hperm.trans hrest⟩

/-- The heap is `1..=size`; what stands behind it is in order and not smaller. -/
structure Drained (size n : ℕ) (p : CArray) : Prop where
  heap : Ordered 1 size p
  sorted : ∀ i j, size < i → i ≤ j → j ≤ n → p i ≤ p j
  above : ∀ i j, 1 ≤ i → i ≤ size → size < j → j ≤ n → p i ≤ p j

theorem Ordered.le_top (h : Ordered 1 size p) {c : ℕ} (hc1 : 1 ≤ c) (hc : c ≤ size) :
    p c ≤ p 1 := by
  induction c using Nat.strongRecOn with
  | ind c ih =>
      by_cases hone : c = 1
      · rw [hone]
      · exact (h c (by omega) hc (by omega)).trans (ih (c / 2) (by omega) (by omega) (by omega))

/-- Below the first entry nothing is larger than the second and the third one. -/
theorem Ordered.le_second (h : Ordered 1 size p) {c : ℕ} (hc2 : 2 ≤ c) (hc : c ≤ size) :
    p c ≤ p (if p 2 < p 3 then 3 else 2) := by
  induction c using Nat.strongRecOn with
  | ind c ih =>
      rcases Nat.lt_or_ge c 4 with hlt | hge
      · have hc23 : c = 2 ∨ c = 3 := by omega
        split
        · next hlt' =>
            rcases hc23 with rfl | rfl
            · exact hlt'.le
            · exact le_rfl
        · next hge' =>
            rcases hc23 with rfl | rfl
            · exact le_rfl
            · exact Nat.le_of_not_lt hge'
      · exact (h c hc2 hc (by omega)).trans (ih (c / 2) (by omega) (by omega) (by omega))

/-- One turn of the loop: the first entry goes behind the heap. -/
theorem Drained.turn (h : Drained (size + 1) n p) (hsize : 3 < size + 1) (hn : size + 1 ≤ n) {k : ℕ}
    (hk : k = if p 2 < p 3 then 3 else 2) {q : CArray}
    (hq : q = heapSortDown size (p (size + 1)) size k
      (setAt (setAt p (size + 1) (p 1)) 1 (setAt p (size + 1) (p 1) k))) :
    Drained size n q ∧ Rearranged n p q := by
  have hk2 : 2 ≤ k ∧ k ≤ 3 := by
    rw [hk]
    split <;> omega
  set p' := setAt (setAt p (size + 1) (p 1)) 1 (setAt p (size + 1) (p 1) k) with hp'
  have hone : p' 1 = p k := by rw [hp', setAt_self, setAt_of_ne _ _ (by omega)]
  have hlast : p' (size + 1) = p 1 := by rw [hp', setAt_of_ne _ _ (by omega), setAt_self]
  have hsame : ∀ i, i ≠ 1 → i ≠ size + 1 → p' i = p i := by
    intro i hi1 hi
    rw [hp', setAt_of_ne _ _ hi1, setAt_of_ne _ _ hi]
  have hsecond : ∀ c, 2 ≤ c → c ≤ size + 1 → p c ≤ p k := by
    intro c hc2 hc
    rw [hk]
    exact h.heap.le_second hc2 hc
  have hole : Hole 1 size (p (size + 1)) k p' := by
    constructor
    · intro c hc2 hc _ hck hpk
      rw [hsame c (by omega) (by omega)]
      by_cases htop : c / 2 = 1
      · rw [htop, hone]
        exact hsecond c hc2 (by omega)
      · rw [hsame (c / 2) htop (by omega)]
        exact h.heap c hc2 (by omega) (by omega)
    · intro _ _
      have htop : k / 2 = 1 := by omega
      rw [htop, hone]
      exact hsecond (size + 1) (by omega) le_rfl
    · intro c _ _ hc hck
      have htop : k / 2 = 1 := by omega
      rw [htop, hone, hsame c (by omega) (by omega)]
      exact hsecond c (by omega) (by omega)
  have hrearranged : Rearranged (size + 1) p q := by
    -- the first entry changes places with the last one, and that one with the larger child
    have hfirst : Rearranged (size + 1) p (setAt (setAt p (size + 1) (p 1)) 1 (p (size + 1))) := by
      apply Rearranged.swap (⟨by omega, by omega⟩ : 1 ≤ 1 ∧ 1 ≤ size + 1)
        (⟨by omega, le_rfl⟩ : 1 ≤ size + 1 ∧ size + 1 ≤ size + 1)
      · exact setAt_self _ _ _
      · rw [setAt_of_ne _ _ (by omega), setAt_self]
      · intro i hi1 hi
        rw [setAt_of_ne _ _ hi1, setAt_of_ne _ _ hi]
    have hthen : Rearranged (size + 1) (setAt (setAt p (size + 1) (p 1)) 1 (p (size + 1)))
        (setAt p' k (p (size + 1))) := by
      apply Rearranged.swap (⟨by omega, by omega⟩ : 1 ≤ 1 ∧ 1 ≤ size + 1)
        (⟨by omega, by omega⟩ : 1 ≤ k ∧ k ≤ size + 1)
      · rw [setAt_of_ne _ _ (by omega), hone, setAt_of_ne _ _ (by omega), setAt_of_ne _ _ (by omega)]
      · rw [setAt_self, setAt_self]
      · intro i hi1 hik
        rw [setAt_of_ne _ _ hik, hp', setAt_of_ne _ _ hi1, setAt_of_ne _ _ hi1]
    have hdown : Rearranged size (setAt p' k (p (size + 1)))
        (heapSortDown size (p (size + 1)) size k p') :=
      heapSortDown_rearranged (by omega) (by omega)
    rw [hq]
    exact (hfirst.trans hthen).trans (hdown.mono (Nat.le_succ size))
  have hother : ∀ i, size < i → q i = p' i := by
    intro i hi
    rw [hq]
    exact heapSortDown_other (by omega) (Or.inr hi) (by omega)
  refine ⟨⟨?_, ?_, ?_⟩, hrearranged.mono hn⟩
  · rw [hq]
    exact heapSortDown_ordered hole (by omega) (by omega) (by omega)
  · intro i j hi hij hj
    rw [hother i hi, hother j (by omega)]
    by_cases hlasti : i = size + 1
    · rw [hlasti, hlast]
      by_cases hlastj : j = size + 1
      · rw [hlastj, hlast]
      · rw [hsame j (by omega) hlastj]
        exact h.above 1 j le_rfl (by omega) (by omega) hj
    · rw [hsame i (by omega) hlasti, hsame j (by omega) (by omega)]
      exact h.sorted i j (by omega) hij hj
  · intro i j hi1 hi hjs hj
    obtain ⟨x, hx1, hx, hqx⟩ := hrearranged.mem hi1 (by omega : i ≤ size + 1)
    rw [hqx, hother j hjs]
    by_cases hlastj : j = size + 1
    · rw [hlastj, hlast]
      exact h.heap.le_top hx1 hx
    · rw [hsame j (by omega) hlastj]
      exact h.above x j hx1 hx (by omega) hj

/-- What is left of the heap is put in order. -/
theorem Drained.finish {q : CArray} (h : Drained size n p) (hn : size ≤ n) (hq : Rearranged size p q)
    (hother : ∀ i, size < i → q i = p i)
    (hsorted : ∀ i j, 1 ≤ i → i ≤ j → j ≤ size → q i ≤ q j) :
    (∀ i j, 1 ≤ i → i ≤ j → j ≤ n → q i ≤ q j) ∧ Rearranged n p q := by
  refine ⟨fun i j hi hij hj => ?_, hq.mono hn⟩
  by_cases hjs : j ≤ size
  · exact hsorted i j hi hij hjs
  · rw [hother j (by omega)]
    by_cases his : i ≤ size
    · obtain ⟨x, hx1, hx, hqx⟩ := hq.mem hi his
      rw [hqx]
      exact h.above x j hx1 hx (by omega) hj
    · rw [hother i (by omega)]
      exact h.sorted i j (by omega) hij hj

theorem le_of_adjacent {q : CArray} (h : ∀ i, 1 ≤ i → i < size → q i ≤ q (i + 1)) :
    ∀ i j, 1 ≤ i → i ≤ j → j ≤ size → q i ≤ q j := by
  intro i j hi hij hj
  induction j, hij using Nat.le_induction with
  | base => exact le_rfl
  | succ j hij ih => exact (ih (by omega)).trans (h j (by omega) (by omega))

/-- The last two entries of the heap. -/
theorem Drained.pair (h : Drained 2 n p) (hn : 2 ≤ n) {q : CArray}
    (hq : q = setAt (setAt p 2 (p 1)) 1 (p 2)) :
    (∀ i j, 1 ≤ i → i ≤ j → j ≤ n → q i ≤ q j) ∧ Rearranged n p q := by
  have hq1 : q 1 = p 2 := by rw [hq, setAt_self]
  have hq2 : q 2 = p 1 := by rw [hq, setAt_of_ne _ _ (by omega), setAt_self]
  have hother : ∀ i, i ≠ 1 → i ≠ 2 → q i = p i := by
    intro i h1 h2
    rw [hq, setAt_of_ne _ _ h1, setAt_of_ne _ _ h2]
  apply h.finish hn
  · exact Rearranged.swap ⟨le_rfl, by omega⟩ ⟨by omega, le_rfl⟩ hq1 hq2 hother
  · exact fun i hi => hother i (by omega) (by omega)
  · apply le_of_adjacent
    intro i hi1 hi
    have hi' : i = 1 := by omega
    rw [hi', hq1, hq2]
    exact h.heap.le_top (by omega) le_rfl

/-- The last three entries of the heap. -/
theorem Drained.triple (h : Drained 3 n p) (hn : 3 ≤ n) {q : CArray}
    (hq : q = if p 2 < p 3 then setAt (setAt (setAt p 3 (p 1)) 1 (p 2)) 2 (p 3)
      else setAt (setAt p 3 (p 1)) 1 (p 3)) :
    (∀ i j, 1 ≤ i → i ≤ j → j ≤ n → q i ≤ q j) ∧ Rearranged n p q := by
  set r := setAt (setAt p 3 (p 1)) 1 (p 3) with hr
  have hr1 : r 1 = p 3 := by rw [hr, setAt_self]
  have hr3 : r 3 = p 1 := by rw [hr, setAt_of_ne _ _ (by omega), setAt_self]
  have hrother : ∀ i, i ≠ 1 → i ≠ 3 → r i = p i := by
    intro i h1 h3
    rw [hr, setAt_of_ne _ _ h1, setAt_of_ne _ _ h3]
  have hrperm : Rearranged 3 p r :=
    Rearranged.swap (⟨le_rfl, by omega⟩ : 1 ≤ 1 ∧ 1 ≤ 3) (⟨by omega, le_rfl⟩ : 1 ≤ 3 ∧ 3 ≤ 3) hr1 hr3
      hrother
  have htop2 : p 2 ≤ p 1 := h.heap.le_top (by omega) (by omega)
  have htop3 : p 3 ≤ p 1 := h.heap.le_top (by omega) (by omega)
  by_cases hlt : p 2 < p 3
  · rw [if_pos hlt] at hq
    have hq1 : q 1 = p 2 := by rw [hq, setAt_of_ne _ _ (by omega), setAt_self]
    have hq2 : q 2 = p 3 := by rw [hq, setAt_self]
    have hqother : ∀ i, i ≠ 1 → i ≠ 2 → q i = r i := by
      intro i h1 h2
      rw [hq, hr, setAt_of_ne _ _ h2, setAt_of_ne _ _ h1, setAt_of_ne _ _ h1]
    apply h.finish hn
    · apply hrperm.trans
      apply Rearranged.swap (⟨le_rfl, by omega⟩ : 1 ≤ 1 ∧ 1 ≤ 3) (⟨by omega, by omega⟩ : 1 ≤ 2 ∧ 2 ≤ 3)
      · rw [hq1, hrother 2 (by omega) (by omega)]
      · rw [hq2, hr1]
      · exact hqother
    · intro i hi
      rw [hqother i (by omega) (by omega), hrother i (by omega) (by omega)]
    · apply le_of_adjacent
      intro i hi1 hi
      have hi' : i = 1 ∨ i = 2 := by omega
      rcases hi' with rfl | rfl
      · rw [hq1, hq2]
        exact hlt.le
      · rw [hq2, hqother 3 (by omega) (by omega), hr3]
        exact htop3
  · rw [if_neg hlt] at hq
    rw [hq]
    apply h.finish hn hrperm
    · exact fun i hi => hrother i (by omega) (by omega)
    · apply le_of_adjacent
      intro i hi1 hi
      have hi' : i = 1 ∨ i = 2 := by omega
      have hr2 : r 2 = p 2 := hrother 2 (by omega) (by omega)
      rcases hi' with rfl | rfl
      · rw [hr1, hr2]
        exact Nat.le_of_not_lt hlt
      · rw [hr2, hr3]
        exact htop2

theorem heapDrain_spec (h : Drained size n p) (hn : size ≤ n) :
    (∀ i j, 1 ≤ i → i ≤ j → j ≤ n → heapDrain size p i ≤ heapDrain size p j) ∧
      Rearranged n p (heapDrain size p) := by
  induction size generalizing p with
  | zero => exact h.finish hn (.refl 0 p) (fun _ _ => rfl) fun i j hi hij hj => by omega
  | succ size ih =>
      rw [heapDrain]
      dsimp only
      split
      · next hsize =>
          obtain ⟨hdrained, hperm⟩ := h.turn hsize hn rfl rfl
          obtain ⟨hsorted, hrest⟩ := ih hdrained (by omega)
          exact ⟨hsorted, hperm.trans hrest⟩
      next hsize =>
      have hcases : size = 0 ∨ size = 1 ∨ size = 2 := by omega
      rcases hcases with rfl | rfl | rfl
      · have hnot : ¬ (2 < 0 + 1 ∧ setAt p (0 + 1) (p 1) 2 < p (0 + 1)) := by omega
        rw [if_neg hnot, setAt_get_self, setAt_get_self]
        exact h.finish hn (.refl _ p) (fun _ _ => rfl) fun i j hi hij hj => by
          have hij' : i = j := by omega
          rw [hij']
      · have hnot : ¬ (2 < 1 + 1 ∧ setAt p (1 + 1) (p 1) 2 < p (1 + 1)) := by omega
        rw [if_neg hnot]
        exact h.pair hn rfl
      · have htwo : setAt p (2 + 1) (p 1) 2 = p 2 := setAt_of_ne _ _ (by omega)
        rw [htwo]
        apply h.triple hn
        simp only [Nat.reduceAdd, Nat.reduceLT, true_and]

theorem heapSort_spec (p : CArray) (size : ℕ) :
    (∀ i j, i ≤ j → j < size → heapSort p size i ≤ heapSort p size j) ∧
      ((List.range size).map (heapSort p size).get).Perm ((List.range size).map p.get) := by
  rw [heapSort]
  split
  · next hsize =>
      refine ⟨fun i j hij hj => ?_, .refl _⟩
      have hij' : i = j := by omega
      rw [hij']
  next hsize =>
  have hstart : Ordered (size / 2 + 1) size ⟨fun i => p (i - 1)⟩ := by
    intro c _ hc hlo
    omega
  obtain ⟨hheap, hbuilt⟩ := heapBuild_spec size ⟨fun i => p (i - 1)⟩ hstart (Nat.div_le_self size 2)
  have hdrained : Drained size size (heapBuild size (size / 2) ⟨fun i => p (i - 1)⟩) :=
    ⟨hheap, fun i j hi hij hj => by omega, fun i j _ hi hj hjn => by omega⟩
  obtain ⟨hsorted, hdrain⟩ := heapDrain_spec hdrained le_rfl
  refine ⟨fun i j hij hj => hsorted (i + 1) (j + 1) (by omega) (by omega) (by omega), ?_⟩
  exact (hbuilt.trans hdrain).perm

end Sorting

end HeapSort
end ErofsUtils
