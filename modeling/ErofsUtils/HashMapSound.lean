import ErofsUtils.HashMap
import Mathlib.Data.Finset.Card
import Mathlib.Data.Nat.Bitwise

/-!
# What a hash map keeps

A map stands for a finite set of entries: each is in the chain of its bucket and in no other, and a
search finds an equal entry if and only if the set has one. Additions, removals and the resizes that
they cause keep this.
-/

namespace ErofsUtils.HashMap

variable {α κ : Type*}

/-- The entries a table of `2 ^ 30` buckets takes before it grows, which it cannot. -/
def maxEntries : ℕ := 858993459

/-- `shrink_at` of a table with so many buckets. -/
def shrinkLimit (tablesize : ℕ) : ℕ := if tablesize ≤ 64 then 0 else tablesize * 80 / 100 / 5

def TableSize (tablesize : ℕ) : Prop := ∃ k ≤ 12, tablesize = 64 * 4 ^ k

namespace TableSize

theorem pos {t : ℕ} (h : TableSize t) : 64 ≤ t ∧ t ≤ 2 ^ 30 := by
  obtain ⟨k, hk, rfl⟩ := h
  have hlow : 4 ^ 0 ≤ 4 ^ k := Nat.pow_le_pow_right (by omega) (Nat.zero_le k)
  have hhigh : 4 ^ k ≤ 4 ^ 12 := Nat.pow_le_pow_right (by omega) hk
  omega

theorem grow {t : ℕ} (h : TableSize t) (ht : t < 2 ^ 30) : TableSize (t * 4) := by
  obtain ⟨k, hk, rfl⟩ := h
  refine ⟨k + 1, ?_, by rw [pow_succ, mul_assoc]⟩
  rcases Nat.lt_or_ge k 12 with hlt | hge
  · omega
  · rw [show k = 12 by omega] at ht
    omega

theorem shrink {t : ℕ} (h : TableSize t) (ht : 64 < t) : TableSize (t / 4) ∧ t / 4 * 4 = t := by
  obtain ⟨k, hk, rfl⟩ := h
  cases k with
  | zero => omega
  | succ k =>
      have hdiv : 64 * 4 ^ (k + 1) / 4 = 64 * 4 ^ k := by
        rw [pow_succ]
        omega
      rw [hdiv, pow_succ]
      exact ⟨⟨k, by omega, rfl⟩, by omega⟩

theorem twoPow {t : ℕ} (h : TableSize t) : ∃ n, t = 2 ^ n := by
  obtain ⟨k, -, rfl⟩ := h
  refine ⟨6 + 2 * k, ?_⟩
  rw [pow_add, pow_mul]
  norm_num

end TableSize

theorem bucketOf_eq {map : HashMap α} (h : TableSize map.tablesize) (hash : ℕ) :
    map.bucketOf hash = hash % map.tablesize := by
  have hpos := h.pos
  obtain ⟨n, hn⟩ := h.twoPow
  have hdec : dec32 map.tablesize = map.tablesize - 1 := by
    unfold dec32
    omega
  rw [bucketOf, hdec, hn, Nat.and_two_pow_sub_one_eq_mod]

theorem bucketOf_lt {map : HashMap α} (h : TableSize map.tablesize) (hash : ℕ) :
    map.bucketOf hash < map.tablesize := by
  rw [bucketOf_eq h]
  exact Nat.mod_lt _ (by have := h.pos; omega)

section Represents

structure Represents (hash : α → ℕ) (map : HashMap α) (S : Finset α) : Prop where
  table : TableSize map.tablesize
  growAt : map.growAt = map.tablesize * 80 / 100
  shrinkAt : map.shrinkAt = 0 ∨ map.shrinkAt = shrinkLimit map.tablesize
  size : map.size = S.card
  few : S.card ≤ maxEntries
  entries : ∃ lists, map.cells.Holds (map.bucket hash) lists ∧
    ∀ e, e ∈ lists (map.bucket hash e) ↔ e ∈ S

variable {hash : α → ℕ} {map : HashMap α} {S : Finset α}

structure Buckets (hash : α → ℕ) (map : HashMap α) (S : Finset α) (lists : ℕ → List α) : Prop where
  holds : map.cells.Holds (map.bucket hash) lists
  mem : ∀ e, e ∈ lists (map.bucket hash e) ↔ e ∈ S

namespace Buckets

variable {lists : ℕ → List α}

theorem mem_of_mem (h : Buckets hash map S lists) {i : ℕ} {e : α} (he : e ∈ lists i) : e ∈ S :=
  (h.mem e).mp (h.holds.mem_home he)

theorem length_le (h : Buckets hash map S lists) (i : ℕ) : (lists i).length ≤ S.card := by
  classical
  rw [← List.toFinset_card_of_nodup (h.holds.chain i).nodup]
  refine Finset.card_le_card ?_
  intro e he
  exact h.mem_of_mem (List.mem_toFinset.mp he)

theorem find (h : Buckets hash map S lists) (hsize : map.size = S.card) (keyHash : ℕ)
    (equals : α → Bool) : map.cells.load (map.findEntryPtr keyHash equals) =
      (lists (map.bucketOf keyHash)).find? equals := by
  refine Cells.load_seek (h.holds.chain _) ?_
  rw [hsize]
  exact Nat.lt_succ_of_le (h.length_le _)

end Buckets

theorem Represents.buckets (h : map.Represents hash S) : ∃ lists, Buckets hash map S lists := by
  obtain ⟨lists, hholds, hmem⟩ := h.entries
  exact ⟨lists, hholds, hmem⟩

theorem Represents.size_lt (h : map.Represents hash S) : map.size < 2 ^ 32 := by
  have hfew := h.few
  rw [h.size]
  unfold maxEntries at hfew
  omega

theorem Represents.find_some (h : map.Represents hash S) {keyHash : ℕ} {equals : α → Bool} {e : α}
    (hfind : map.cells.load (map.findEntryPtr keyHash equals) = some e) :
    e ∈ S ∧ equals e = true := by
  obtain ⟨lists, hlists⟩ := h.buckets
  rw [hlists.find h.size] at hfind
  exact ⟨hlists.mem_of_mem (List.mem_of_find?_eq_some hfind), List.find?_some hfind⟩

theorem Represents.find_none (h : map.Represents hash S) {keyHash : ℕ} {equals : α → Bool}
    (hequals : ∀ e, equals e = true → hash e = keyHash)
    (hfind : map.cells.load (map.findEntryPtr keyHash equals) = none) :
    ∀ e ∈ S, equals e = false := by
  obtain ⟨lists, hlists⟩ := h.buckets
  rw [hlists.find h.size, List.find?_eq_none] at hfind
  intro e he
  by_contra hne
  have heq : equals e = true := by simpa using hne
  refine hfind e ?_ heq
  rw [← hequals e heq]
  exact (hlists.mem e).mpr he

variable [DecidableEq α]

theorem rehash_represents {lists : ℕ → List α} (hlists : Buckets hash map S lists)
    (htable : TableSize map.tablesize) (hsize : map.size = S.card) (hfew : S.card ≤ maxEntries)
    {newsize : ℕ} (hnew : TableSize newsize) : (map.rehash hash newsize).Represents hash S := by
  have hbound := hnew.pos
  have hempty : (map.allocTable newsize).cells.Holds ((map.allocTable newsize).bucket hash)
      fun _ => [] := ⟨fun _ => .nil, fun _ _ ha => absurd ha List.not_mem_nil⟩
  obtain ⟨lists', hholds, hmem⟩ := @Cells.Holds.moveHeads _ _ _ _ _ _ _ hempty map.size
    map.tablesize 0 map.cells.head lists
    (fun j _ => hlists.holds.chain j)
    (fun j k a hj hk => (hlists.holds.atHome j a hj).symm.trans (hlists.holds.atHome k a hk))
    (fun _ _ _ _ => List.not_mem_nil)
    (fun j => by rw [hsize]; exact hlists.length_le j)
  have hgrow : u32 (newsize * 80 / 100) = newsize * 80 / 100 := u32_of_lt (by omega)
  refine ⟨hnew, hgrow, Or.inr ?_, hsize, hfew, lists', hholds, ?_⟩
  · simp only [rehash, allocTable, shrinkLimit, hashmapInitialSize, hashmapLoadFactor,
      hashmapResizeBits, hgrow]
    rfl
  · intro e
    refine (hmem e).trans ?_
    rw [or_iff_left List.not_mem_nil]
    constructor
    · rintro ⟨j, -, -, he⟩
      exact hlists.mem_of_mem he
    · intro he
      refine ⟨map.bucket hash e, Nat.zero_le _, ?_, (hlists.mem e).mpr he⟩
      rw [Nat.zero_add]
      exact bucketOf_lt htable _

/-- A new entry goes in front of the chain of its bucket. -/
theorem Represents.add (h : map.Represents hash S) {e : α} (he : e ∉ S)
    (hroom : S.card < maxEntries) : (map.hashmapAdd hash e).Represents hash (insert e S) := by
  obtain ⟨lists, hlists⟩ := h.buckets
  have hsize := h.size
  have hnot : e ∉ lists (map.bucket hash e) := fun hmem => he (hlists.mem_of_mem hmem)
  have hcard : (insert e S).card = S.card + 1 := Finset.card_insert_of_notMem he
  have hsucc : u32 (map.size + 1) = (insert e S).card := by
    rw [hcard, hsize]
    refine u32_of_lt ?_
    unfold maxEntries at hroom
    omega
  have hpushed : Buckets hash
      { map with cells := map.cells.push (map.bucket hash e) e, size := u32 (map.size + 1) }
      (insert e S) (Function.update lists (map.bucket hash e) (e :: lists (map.bucket hash e))) := by
    refine ⟨hlists.holds.push hnot, ?_⟩
    intro b
    change b ∈ Function.update lists _ _ (map.bucket hash b) ↔ _
    rw [Finset.mem_insert, ← hlists.mem b]
    by_cases hb : map.bucket hash b = map.bucket hash e
    · rw [hb, Function.update_self, List.mem_cons]
    · rw [Function.update_of_ne hb]
      have hne : b ≠ e := fun heq => hb (congrArg _ heq)
      simp [hne]
  rw [hashmapAdd]
  split_ifs with hgrow
  · refine rehash_represents hpushed h.table hsucc (by omega) ?_
    have htable := h.table.pos
    have hlt : map.tablesize < 2 ^ 30 := by
      have hgrow' := h.growAt
      unfold maxEntries at hroom
      simp only at hgrow
      omega
    have h32 : u32 (map.tablesize * 2 ^ hashmapResizeBits) = map.tablesize * 4 :=
      u32_of_lt (by rw [hashmapResizeBits]; omega)
    rw [h32]
    exact h.table.grow hlt
  · exact ⟨h.table, h.growAt, h.shrinkAt, hsucc, by omega, _, hpushed.holds, hpushed.mem⟩

/-- An entry of the map is found by its address and unlinked. -/
theorem Represents.remove (h : map.Represents hash S) {e : α} (he : e ∈ S) :
    (map.hashmapRemove hash e).1 = some e ∧
      (map.hashmapRemove hash e).2.Represents hash (S.erase e) := by
  obtain ⟨lists, hlists⟩ := h.buckets
  have hsize := h.size
  have hmem := (hlists.mem e).mpr he
  obtain ⟨u, v, huv⟩ := List.append_of_mem hmem
  have hchain := hlists.holds.chain (map.bucket hash e)
  have hnodup := hchain.nodup
  rw [huv] at hchain hnodup
  have heu : e ∉ u := fun hu => (List.nodup_append.mp hnodup).2.2 e hu e List.mem_cons_self rfl
  have hev : e ∉ v := (List.nodup_cons.mp (List.nodup_append.mp hnodup).2.1).1
  have hseek : map.findEntryPtr (hash e) (· = e) =
      (u.getLast?).elim (.head (map.bucket hash e)) .next := by
    refine Cells.seek_eq (hlists.holds.chain _) ?_ huv ?_ ?_
    · rw [hsize]
      exact Nat.lt_succ_of_le (hlists.length_le _)
    · intro b hb
      exact decide_eq_false fun heq => heu (heq ▸ hb)
    · exact decide_eq_true rfl
  have hload : map.cells.load (map.findEntryPtr (hash e) (· = e)) = some e := by
    rw [hlists.find hsize]
    change (lists (map.bucket hash e)).find? _ = _
    rw [huv, List.find?_append, List.find?_eq_none.mpr, List.find?_cons_of_pos]
    · rfl
    · exact decide_eq_true rfl
    · intro b hb heq
      exact heu (of_decide_eq_true heq ▸ hb)
  have hcard : (S.erase e).card = S.card - 1 := Finset.card_erase_of_mem he
  have hpos : 0 < S.card := Finset.card_pos.mpr ⟨e, he⟩
  have hlt := h.size_lt
  have hfew := h.few
  have hpred : dec32 map.size = (S.erase e).card := by
    rw [hcard, ← hsize]
    unfold dec32
    omega
  -- the entry that is out of the chains gets a null pointer
  have hunlinked := hlists.holds.unlink huv
  have hcleared : (((map.cells.store ((u.getLast?).elim (.head (map.bucket hash e)) .next)
      (map.cells.next e)).store (.next e) none).Holds (map.bucket hash)
      (Function.update lists (map.bucket hash e) (u ++ v))) := by
    have hout : ∀ i, e ∉ Function.update lists (map.bucket hash e) (u ++ v) i := by
      intro i hin
      by_cases hi : i = map.bucket hash e
      · rw [hi, Function.update_self] at hin
        exact (List.mem_append.mp hin).elim heu hev
      · rw [Function.update_of_ne hi] at hin
        exact hi (hlists.holds.atHome i e hin).symm
    refine ⟨?_, hunlinked.atHome⟩
    intro i
    exact (hunlinked.chain i).update _ (hout i)
  have hbuckets : Buckets hash { map with
      cells := (map.cells.store ((u.getLast?).elim (.head (map.bucket hash e)) .next)
        (map.cells.next e)).store (.next e) none
      size := dec32 map.size } (S.erase e)
      (Function.update lists (map.bucket hash e) (u ++ v)) := by
    refine ⟨hcleared, ?_⟩
    intro b
    change b ∈ Function.update lists _ _ (map.bucket hash b) ↔ _
    rw [Finset.mem_erase, ← hlists.mem b]
    by_cases hb : map.bucket hash b = map.bucket hash e
    · rw [hb, Function.update_self, huv, List.mem_append, List.mem_append, List.mem_cons]
      constructor
      · intro hin
        refine ⟨?_, hin.imp_right Or.inr⟩
        rintro rfl
        exact hin.elim heu hev
      · rintro ⟨hne, hin⟩
        exact hin.imp_right fun hin => hin.resolve_left hne
    · rw [Function.update_of_ne hb]
      have hne : b ≠ e := fun heq => hb (congrArg _ heq)
      simp [hne]
  rw [hashmapRemove]
  simp only [hload]
  rw [hseek]
  refine ⟨trivial, ?_⟩
  split_ifs with hshrink
  · refine rehash_represents hbuckets h.table hpred (by omega) ?_
    have hlarge : 64 < map.tablesize := by
      cases h.shrinkAt with
      | inl hzero => omega
      | inr hlimit =>
          rw [hlimit, shrinkLimit] at hshrink
          split_ifs at hshrink with hle
          · omega
          · omega
    exact (h.table.shrink hlarge).1
  · exact ⟨h.table, h.growAt, h.shrinkAt, hpred, by omega, _, hbuckets.holds, hbuckets.mem⟩

theorem Represents.remove_absent (h : map.Represents hash S) {e : α} (he : e ∉ S) :
    map.hashmapRemove hash e = (none, map) := by
  obtain ⟨lists, hlists⟩ := h.buckets
  have hload : map.cells.load (map.findEntryPtr (hash e) (· = e)) = none := by
    rw [hlists.find h.size, List.find?_eq_none]
    intro b hb heq
    exact he (of_decide_eq_true heq ▸ hlists.mem_of_mem hb)
  rw [hashmapRemove]
  simp only [hload]

omit [DecidableEq α] in
theorem initSize_tableSize {n k initialSize t : ℕ} (hk : k ≤ 12) (hn : k + n = 13)
    (h : initSize n initialSize (64 * 4 ^ k) = some t) : TableSize t := by
  induction n generalizing k with
  | zero => omega
  | succ n ih =>
      rw [initSize] at h
      split_ifs at h with hlt
      · rcases Nat.lt_or_ge k 12 with hk' | hge
        · have hpow : 4 ^ (k + 1) ≤ 4 ^ 12 := Nat.pow_le_pow_right (by omega) hk'
          have hnext : u32 (64 * 4 ^ k * 2 ^ hashmapResizeBits) = 64 * 4 ^ (k + 1) := by
            rw [pow_succ] at hpow ⊢
            rw [hashmapResizeBits, u32_of_lt (by omega)]
            ring
          rw [hnext] at h
          exact ih hk' (by omega) h
        · -- the size of the largest table is shifted out of 32 bits
          obtain rfl : k = 12 := by omega
          obtain rfl : n = 0 := by omega
          have hzero : u32 (64 * 4 ^ 12 * 2 ^ hashmapResizeBits) = 0 := by decide
          rw [hzero, initSize, if_pos (by omega)] at h
          cases h
      · exact ⟨k, hk, (Option.some.inj h).symm⟩

omit [DecidableEq α] in
theorem hashmapInit_represents {next : α → Option α} {initialSize : ℕ}
    (h : hashmapInit next initialSize = some map) (hash : α → ℕ) :
    map.Represents hash ∅ ∧ map.shrinkAt = shrinkLimit map.tablesize := by
  rw [hashmapInit, Option.map_eq_some_iff] at h
  obtain ⟨t, ht, rfl⟩ := h
  have htable : TableSize t := initSize_tableSize (k := 0) (Nat.zero_le _) rfl ht
  have hbound := htable.pos
  have hgrow : u32 (t * 80 / 100) = t * 80 / 100 := u32_of_lt (by omega)
  have hshrink : (allocTable (⟨⟨fun _ => none, next⟩, 0, 0, 0, 0⟩ : HashMap α) t).shrinkAt =
      shrinkLimit t := by
    simp only [allocTable, shrinkLimit, hashmapInitialSize, hashmapLoadFactor,
      hashmapResizeBits, hgrow]
    rfl
  refine ⟨⟨htable, hgrow, Or.inr hshrink, rfl, Nat.zero_le _, fun _ => [], ?_, ?_⟩, hshrink⟩
  · exact ⟨fun _ => .nil, fun _ _ ha => absurd ha List.not_mem_nil⟩
  · simp

end Represents

end ErofsUtils.HashMap
