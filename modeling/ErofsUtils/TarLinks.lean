import Mathlib.Algebra.BigOperators.Group.Finset.Basic
import Mathlib.Algebra.BigOperators.Ring.Finset
import Mathlib.Algebra.Order.BigOperators.Group.Finset
import ErofsUtils.RebuildGrow
import ErofsUtils.TarTree

/-!
# Counting the dentries of an inode

The number of dentries that refer to an inode, and how it changes with the dentries.
-/

namespace ErofsUtils

theorem sum_range_change {n k : ℕ} {a b : ℕ → ℤ} (hk : k < n) (h : ∀ j, j ≠ k → b j = a j) :
    ∑ j ∈ Finset.range n, b j = ∑ j ∈ Finset.range n, a j + (b k - a k) := by
  have hsub : ∑ j ∈ Finset.range n, (b j - a j) = b k - a k := by
    apply Finset.sum_eq_single k
    · intro j _ hj
      rw [h j hj, sub_self]
    · intro hno
      exact absurd (Finset.mem_range.2 hk) hno
  rw [Finset.sum_sub_distrib] at hsub
  omega

/-- Counting a value in a list of keys without repetition when the value of one key changes. -/
theorem countP_update {l : List ℕ} (hl : l.Nodup) {f g : ℕ → ℕ} {e : ℕ} (he : e ∈ l)
    (hf : ∀ x, x ≠ e → g x = f x) (i : ℕ) :
    (l.countP (fun x => g x = i) : ℤ) =
      l.countP (fun x => f x = i) - (if f e = i then 1 else 0) + if g e = i then 1 else 0 := by
  induction l with
  | nil => simp at he
  | cons y l ih =>
    obtain ⟨hy, hl⟩ := List.nodup_cons.1 hl
    rw [List.countP_cons, List.countP_cons]
    by_cases hye : y = e
    · subst hye
      have hrest : l.countP (fun x => decide (g x = i)) =
          l.countP (fun x => decide (f x = i)) := by
        apply List.countP_congr
        intro x hx
        rw [hf x (fun hxy => hy (hxy ▸ hx))]
      rw [hrest]
      push_cast
      simp only [decide_eq_true_eq]
      split <;> split <;> omega
    · have he' : e ∈ l := by
        rcases List.mem_cons.1 he with he | he
        · exact absurd he.symm hye
        · exact he
      have hih := ih hl he'
      rw [hf y hye]
      push_cast
      rw [hih]
      omega

theorem countP_keep {l : List ℕ} {f g : ℕ → ℕ} (h : ∀ x ∈ l, g x = f x) (i : ℕ) :
    l.countP (fun x => g x = i) = l.countP (fun x => f x = i) := by
  apply List.countP_congr
  intro x hx
  rw [h x hx]

namespace TreeHeap

/-- How many of the dentries `l` refer to an inode. -/
def refsIn (t : TreeHeap) (l : List ℕ) (i : ℕ) : ℤ :=
  (l.countP fun e => (t.dentry e).inode = i : ℕ)

/-- How many dentries refer to an inode. -/
def links (t : TreeHeap) (i : ℕ) : ℤ :=
  ∑ j ∈ Finset.range t.nextInode, t.refsIn (t.subdirs j) i

theorem refsIn_nonneg (t : TreeHeap) (l : List ℕ) (i : ℕ) : 0 ≤ t.refsIn l i :=
  Int.natCast_nonneg _

theorem refsIn_le_links (t : TreeHeap) {j : ℕ} (hj : j < t.nextInode) (i : ℕ) :
    t.refsIn (t.subdirs j) i ≤ t.links i := by
  apply Finset.single_le_sum (f := fun j => t.refsIn (t.subdirs j) i)
    (fun j _ => t.refsIn_nonneg _ _) (Finset.mem_range.2 hj)

theorem refsIn_pos {t : TreeHeap} {l : List ℕ} {e : ℕ} (he : e ∈ l) :
    1 ≤ t.refsIn l (t.dentry e).inode := by
  have hpos : 0 < l.countP fun f => decide ((t.dentry f).inode = (t.dentry e).inode) :=
    List.countP_pos_iff.2 ⟨e, he, by simp⟩
  unfold refsIn
  omega

theorem links_pos {t : TreeHeap} {j e : ℕ} (hj : j < t.nextInode) (he : e ∈ t.subdirs j) :
    1 ≤ t.links (t.dentry e).inode :=
  le_trans (refsIn_pos he) (t.refsIn_le_links hj _)

theorem links_two {t : TreeHeap} {i j k e f : ℕ} (hj : j < t.nextInode) (hk : k < t.nextInode)
    (he : e ∈ t.subdirs j) (hf : f ∈ t.subdirs k) (hef : e ≠ f)
    (hei : (t.dentry e).inode = i) (hfi : (t.dentry f).inode = i) : 2 ≤ t.links i := by
  by_cases hjk : j = k
  · subst hjk
    apply le_trans _ (t.refsIn_le_links hj i)
    have hsub : [e, f].Subperm (t.subdirs j) := by
      apply List.subperm_of_subset (by simp [hef])
      intro x hx
      have hx : x = e ∨ x = f := by simpa using hx
      rcases hx with rfl | rfl
      · exact he
      · exact hf
    have hle := hsub.countP_le fun x => decide ((t.dentry x).inode = i)
    have htwo : [e, f].countP (fun x => decide ((t.dentry x).inode = i)) = 2 := by
      simp [hei, hfi]
    unfold refsIn
    omega
  · have hsum : t.refsIn (t.subdirs j) i + t.refsIn (t.subdirs k) i ≤ t.links i := by
      have hpair : ∑ x ∈ ({j, k} : Finset ℕ), t.refsIn (t.subdirs x) i =
          t.refsIn (t.subdirs j) i + t.refsIn (t.subdirs k) i := Finset.sum_pair hjk
      rw [← hpair]
      apply Finset.sum_le_sum_of_subset_of_nonneg
      · intro x hx
        have hx : x = j ∨ x = k := by simpa using hx
        rcases hx with rfl | rfl
        · exact Finset.mem_range.2 hj
        · exact Finset.mem_range.2 hk
      · intro x _ _
        exact t.refsIn_nonneg _ _
    have h1 := refsIn_pos (t := t) he
    have h2 := refsIn_pos (t := t) hf
    rw [hei] at h1
    rw [hfi] at h2
    omega

theorem links_zero {t : TreeHeap} {i : ℕ}
    (h : ∀ j e, e ∈ t.subdirs j → (t.dentry e).inode ≠ i) : t.links i = 0 := by
  apply Finset.sum_eq_zero
  intro j _
  unfold refsIn
  rw [List.countP_eq_zero.2 (fun e he => by simpa using h j e he)]
  rfl

theorem links_one {t : TreeHeap} {k e i : ℕ} (hk : k < t.nextInode) (he : e ∈ t.subdirs k)
    (hnd : (t.subdirs k).Nodup) (hei : (t.dentry e).inode = i)
    (h : ∀ j f, f ∈ t.subdirs j → (t.dentry f).inode = i → f = e ∧ j = k) : t.links i = 1 := by
  have hsum : t.links i = t.refsIn (t.subdirs k) i := by
    apply Finset.sum_eq_single k
    · intro j _ hjk
      unfold refsIn
      rw [List.countP_eq_zero.2]
      · rfl
      · intro f hf
        have : (t.dentry f).inode ≠ i := fun hfi => hjk (h j f hf hfi).2
        simpa using this
    · intro hno
      exact absurd (Finset.mem_range.2 hk) hno
  rw [hsum]
  have hcount : (t.subdirs k).countP (fun f => decide ((t.dentry f).inode = i)) =
      (t.subdirs k).count e := by
    unfold List.count
    apply List.countP_congr
    intro f hf
    constructor
    · intro hfi
      have hfi : (t.dentry f).inode = i := by simpa using hfi
      simpa using (h k f hf hfi).1
    · intro hfe
      have hfe : f = e := by simpa using hfe
      simp [hfe, hei]
  unfold refsIn
  rw [hcount, List.count_eq_one_of_mem hnd he]
  rfl

theorem links_congr {t t' : TreeHeap} {i : ℕ} (hn : t'.nextInode = t.nextInode)
    (hs : ∀ j, t'.subdirs j = t.subdirs j)
    (hd : ∀ j e, e ∈ t.subdirs j → (t'.dentry e).inode = (t.dentry e).inode) :
    t'.links i = t.links i := by
  unfold links
  rw [hn]
  apply Finset.sum_congr rfl
  intro j _
  unfold refsIn
  rw [hs j, countP_keep (hd j)]

end TreeHeap

end ErofsUtils
