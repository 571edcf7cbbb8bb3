import ErofsUtils.HashMapSound
import Mathlib.Data.List.Flatten
import Mathlib.Data.List.Range

/-!
# Runs of a hash map

What the operations of a map come to over every run: searches answer for the set of the entries that
are left, and the iterator gives each of them once. The thresholds keep the load of the table within
bounds, and so far apart that the entries moved by all resizes together are at most five for each
operation.
-/

namespace ErofsUtils.HashMap

variable {α κ : Type*} {hash : α → ℕ} {map : HashMap α} {S : Finset α}

section Iterate

/-- The entries that `hashmap_iter_next` gives one after the other, at most `n`. -/
def iterEntries (map : HashMap α) : ℕ → HashmapIter α → List α
  | 0, _ => []
  | n + 1, iter =>
    match map.hashmapIterNext iter with
    | (none, _) => []
    | (some e, iter) => e :: iterEntries map n iter

variable {lists : ℕ → List α}

def bucketEntries (lists : ℕ → List α) (pos d : ℕ) : List α :=
  (List.range' pos d).flatMap lists

theorem bucketEntries_succ (pos d : ℕ) :
    bucketEntries lists pos (d + 1) = lists pos ++ bucketEntries lists (pos + 1) d := by
  rw [bucketEntries, List.range'_succ, List.flatMap_cons]
  rfl

/-- What the iterator has still to give: the rest of a chain and the buckets behind it. -/
structure IterRest (map : HashMap α) (lists : ℕ → List α) (iter : HashmapIter α) (l : List α) :
    Prop where
  tablepos : iter.tablepos ≤ map.tablesize
  entries : ∃ rest, PointerChain map.cells.next iter.next rest ∧
    l = rest ++ bucketEntries lists iter.tablepos (map.tablesize - iter.tablepos)

theorem iterNextLoop_rest (hchain : ∀ i, PointerChain map.cells.next (map.cells.head i) (lists i))
    {d pos : ℕ} {p : Option α} {rest l : List α} (hd : pos + d = map.tablesize)
    (hp : PointerChain map.cells.next p rest) (hl : l = rest ++ bucketEntries lists pos d) :
    (l = [] ∧ (map.iterNextLoop d pos p).1 = none) ∨ ∃ e l' iter, l = e :: l' ∧
      map.iterNextLoop d pos p = (some e, iter) ∧ IterRest map lists iter l' := by
  induction d generalizing pos p rest with
  | zero =>
      cases hp with
      | nil =>
          rw [iterNextLoop]
          exact Or.inl ⟨hl, rfl⟩
      | @cons e rest hrest =>
          rw [iterNextLoop]
          refine Or.inr ⟨e, _, _, hl, rfl, ⟨by simp only; omega, rest, hrest, ?_⟩⟩
          rw [show map.tablesize - pos = 0 by omega]
          rfl
  | succ d ih =>
      cases hp with
      | nil =>
          rw [iterNextLoop]
          refine ih (by omega) (hchain pos) ?_
          rw [hl, List.nil_append, bucketEntries_succ]
      | @cons e rest hrest =>
          rw [iterNextLoop]
          refine Or.inr ⟨e, _, _, hl, rfl, ⟨by simp only; omega, rest, hrest, ?_⟩⟩
          rw [show map.tablesize - pos = d + 1 by omega]
          rfl

theorem iterEntries_rest (hchain : ∀ i, PointerChain map.cells.next (map.cells.head i) (lists i))
    {n : ℕ} {iter : HashmapIter α} {l : List α} (h : IterRest map lists iter l) :
    map.iterEntries n iter = l.take n := by
  induction n generalizing iter l with
  | zero => rfl
  | succ n ih =>
      obtain ⟨hpos, rest, hrest, hl⟩ := h
      have hloop := iterNextLoop_rest hchain (d := map.tablesize - iter.tablepos) (by omega) hrest hl
      rw [iterEntries, hashmapIterNext]
      rcases hloop with ⟨rfl, hnone⟩ | ⟨e, l', iter', rfl, hsome, hrest'⟩
      · generalize map.iterNextLoop (map.tablesize - iter.tablepos) iter.tablepos iter.next = r
          at hnone
        obtain ⟨e, iter'⟩ := r
        cases hnone
        rfl
      · rw [hsome]
        simp only [ih hrest', List.take_succ_cons]

theorem iterRest_init :
    IterRest map lists hashmapIterInit (bucketEntries lists 0 map.tablesize) :=
  ⟨Nat.zero_le _, [], .nil, rfl⟩

theorem Buckets.mem_bucketEntries (hlists : Buckets hash map S lists)
    (htable : TableSize map.tablesize) (e : α) :
    e ∈ bucketEntries lists 0 map.tablesize ↔ e ∈ S := by
  rw [bucketEntries, List.mem_flatMap]
  constructor
  · rintro ⟨i, -, he⟩
    exact hlists.mem_of_mem he
  · intro he
    refine ⟨map.bucket hash e, ?_, (hlists.mem e).mpr he⟩
    rw [← List.range_eq_range', List.mem_range]
    exact bucketOf_lt htable _

theorem Buckets.nodup_bucketEntries (hlists : Buckets hash map S lists) (d : ℕ) :
    (bucketEntries lists 0 d).Nodup := by
  rw [bucketEntries, List.nodup_flatMap]
  refine ⟨fun i _ => (hlists.holds.chain i).nodup, ?_⟩
  have hrange : (List.range' 0 d).Nodup := List.nodup_range'
  refine List.Pairwise.imp ?_ hrange
  intro i j hij e hi hj
  exact hij ((hlists.holds.atHome i e hi).symm.trans (hlists.holds.atHome j e hj))

theorem Represents.iterEntries (h : map.Represents hash S) {n : ℕ} (hn : S.card ≤ n) :
    (map.iterEntries n hashmapIterInit).Nodup ∧
      ∀ e, e ∈ map.iterEntries n hashmapIterInit ↔ e ∈ S := by
  classical
  obtain ⟨lists, hlists⟩ := h.buckets
  have hnodup := hlists.nodup_bucketEntries map.tablesize
  have hmem := hlists.mem_bucketEntries h.table
  have hset : (bucketEntries lists 0 map.tablesize).toFinset = S := by
    ext e
    rw [List.mem_toFinset, hmem]
  have hlen : (bucketEntries lists 0 map.tablesize).length ≤ n := by
    rw [← List.toFinset_card_of_nodup hnodup, hset]
    exact hn
  rw [iterEntries_rest hlists.holds.chain iterRest_init, List.take_of_length_le hlen]
  exact ⟨hnodup, hmem⟩

theorem iterNextLoop_skip {k d pos : ℕ} (h : ∀ i, pos ≤ i → i < pos + k → map.cells.head i = none) :
    map.iterNextLoop (k + d) pos none = map.iterNextLoop d (pos + k) none := by
  induction k generalizing pos with
  | zero => rw [Nat.zero_add, Nat.add_zero]
  | succ k ih =>
      rw [Nat.succ_add, iterNextLoop, h pos le_rfl (by omega),
        ih fun i hi hlt => h i (by omega) (by omega)]
      congr 1
      omega

/-- The first entry is at the head of its bucket, and the buckets in front of it are empty. -/
theorem hashmapIterFirst_cases (map : HashMap α) :
    ((∀ i < map.tablesize, map.cells.head i = none) ∧ map.hashmapIterFirst.1 = none) ∨
      ∃ b < map.tablesize, ∃ e, map.cells.head b = some e ∧ (∀ i < b, map.cells.head i = none) ∧
        map.hashmapIterFirst = (some e, ⟨map.cells.next e, b + 1⟩) := by
  by_cases hempty : ∃ b < map.tablesize, map.cells.head b ≠ none
  · right
    have hfirst := Nat.find_spec hempty
    have hbefore : ∀ i < Nat.find hempty, map.cells.head i = none := by
      intro i hi
      by_contra hne
      exact Nat.find_min hempty hi ⟨hi.trans hfirst.1, hne⟩
    obtain ⟨hlt, hne⟩ := hfirst
    generalize Nat.find hempty = b at hlt hne hbefore
    obtain ⟨e, he⟩ := Option.ne_none_iff_exists'.mp hne
    refine ⟨b, hlt, e, he, hbefore, ?_⟩
    obtain ⟨d, hd⟩ : ∃ d, map.tablesize = b + (d + 1) := ⟨map.tablesize - b - 1, by omega⟩
    have hskip := @iterNextLoop_skip _ map b (d + 1) 0
      fun i _ hi => hbefore i (by omega)
    rw [← hd, Nat.zero_add, iterNextLoop, he, iterNextLoop] at hskip
    exact hskip
  · left
    push Not at hempty
    refine ⟨hempty, ?_⟩
    have hskip := @iterNextLoop_skip _ map map.tablesize 0 0
      fun i _ hi => hempty i (by omega)
    rw [Nat.add_zero] at hskip
    change (map.iterNextLoop map.tablesize 0 none).1 = none
    rw [hskip]
    rfl

theorem Represents.iterFirst (h : map.Represents hash S) :
    (S = ∅ ∧ map.hashmapIterFirst.1 = none) ∨ ∃ e ∈ S, map.bucket hash e < map.tablesize ∧
      map.cells.head (map.bucket hash e) = some e ∧
      (∀ i < map.bucket hash e, map.cells.head i = none) ∧
      map.hashmapIterFirst = (some e, ⟨map.cells.next e, map.bucket hash e + 1⟩) := by
  obtain ⟨lists, hlists⟩ := h.buckets
  rcases map.hashmapIterFirst_cases with ⟨hempty, hnone⟩ | ⟨b, hb, e, he, hbefore, hfirst⟩
  · refine Or.inl ⟨?_, hnone⟩
    refine Finset.eq_empty_of_forall_notMem ?_
    intro e he
    have hchain := hlists.holds.chain (map.bucket hash e)
    have hlt : map.bucket hash e < map.tablesize := bucketOf_lt h.table _
    rw [hempty _ hlt] at hchain
    have hmem := (hlists.mem e).mpr he
    rw [hchain.unique .nil] at hmem
    exact List.not_mem_nil hmem
  · have hchain := hlists.holds.chain b
    rw [he] at hchain
    obtain ⟨rest, hrest⟩ : ∃ rest, lists b = e :: rest := by
      generalize lists b = l at hchain
      cases hchain with
      | cons hchain => exact ⟨_, rfl⟩
    have hmem : e ∈ lists b := by
      rw [hrest]
      exact List.mem_cons_self
    have hhome := hlists.holds.atHome b e hmem
    subst hhome
    exact Or.inr ⟨e, hlists.mem_of_mem hmem, hb, he, hbefore, hfirst⟩

end Iterate

section Run

variable [DecidableEq α]

inductive MapOp (α : Type*)
  | add (entry : α)
  | remove (entry : α)

def MapOp.run (hash : α → ℕ) (map : HashMap α) : MapOp α → HashMap α
  | .add entry => map.hashmapAdd hash entry
  | .remove entry => (map.hashmapRemove hash entry).2

def MapOp.apply (S : Finset α) : MapOp α → Finset α
  | .add entry => insert entry S
  | .remove entry => S.erase entry

/-- Only an entry that is not in the map is added, and there are never more than `maxEntries`. -/
def MapOp.Allowed (S : Finset α) : MapOp α → Prop
  | .add entry => entry ∉ S ∧ S.card < maxEntries
  | .remove _ => True

def AllAllowed : Finset α → List (MapOp α) → Prop
  | _, [] => True
  | S, op :: ops => op.Allowed S ∧ AllAllowed (op.apply S) ops

instance decidableAllowed (S : Finset α) : DecidablePred (MapOp.Allowed S)
  | .add entry => inferInstanceAs (Decidable (entry ∉ S ∧ S.card < maxEntries))
  | .remove _ => .isTrue trivial

instance decidableAllAllowed : (S : Finset α) → (ops : List (MapOp α)) → Decidable (AllAllowed S ops)
  | _, [] => .isTrue trivial
  | S, op :: ops =>
    have := decidableAllAllowed (op.apply S) ops
    inferInstanceAs (Decidable (op.Allowed S ∧ AllAllowed (op.apply S) ops))

theorem MapOp.represents {op : MapOp α} (h : map.Represents hash S) (hop : op.Allowed S) :
    (op.run hash map).Represents hash (op.apply S) := by
  cases op with
  | add entry => exact h.add hop.1 hop.2
  | remove entry =>
      by_cases hmem : entry ∈ S
      · exact (h.remove hmem).2
      · rw [MapOp.run, MapOp.apply, h.remove_absent hmem, Finset.erase_eq_of_notMem hmem]
        exact h

theorem run_represents {ops : List (MapOp α)} (h : map.Represents hash S)
    (hops : AllAllowed S ops) :
    (ops.foldl (MapOp.run hash) map).Represents hash (ops.foldl MapOp.apply S) := by
  induction ops generalizing map S with
  | nil => exact h
  | cons op ops ih => exact ih (MapOp.represents h hops.1) hops.2

/-- What the functions of a map say about a set of entries: the size, an entry that is equal to a
key if and only if the set has one, and each entry once from the iterator. -/
structure AnswersFor (hash : α → ℕ) (map : HashMap α) (S : Finset α) : Prop where
  size : map.size = S.card
  get_some : ∀ {κ : Type} (cmpfn : α → α → Option κ → Bool) key keydata e,
    map.hashmapGet hash cmpfn key keydata = some e →
      e ∈ S ∧ entryEquals hash cmpfn e key keydata = true
  get_none : ∀ {κ : Type} (cmpfn : α → α → Option κ → Bool) key keydata,
    map.hashmapGet hash cmpfn key keydata = none →
      ∀ e ∈ S, entryEquals hash cmpfn e key keydata = false
  iter_nodup : (map.iterEntries map.size hashmapIterInit).Nodup
  iter_mem : ∀ e, e ∈ map.iterEntries map.size hashmapIterInit ↔ e ∈ S
  free : map.hashmapFree.1 = 0 ↔ S = ∅

theorem entryEquals_hash {κ : Type} {cmpfn : α → α → Option κ → Bool} {e key : α}
    {keydata : Option κ} (h : entryEquals hash cmpfn e key keydata = true) : hash e = hash key := by
  simp only [entryEquals, Bool.or_eq_true, Bool.and_eq_true, decide_eq_true_eq] at h
  rcases h with rfl | ⟨h, -⟩
  · rfl
  · exact h

theorem Represents.answersFor (h : map.Represents hash S) : AnswersFor hash map S where
  size := h.size
  get_some _ _ _ _ hget := h.find_some hget
  get_none _ _ _ hget := h.find_none (fun _ => entryEquals_hash) hget
  iter_nodup := (h.iterEntries h.size.ge).1
  iter_mem := (h.iterEntries h.size.ge).2
  free := by
    rw [hashmapFree]
    rcases h.iterFirst with ⟨hempty, hnone⟩ | ⟨e, he, -, -, -, hsome⟩
    · rw [hnone]
      exact ⟨fun _ => hempty, fun _ => rfl⟩
    · rw [hsome]
      constructor
      · intro hret
        cases hret
      · intro hempty
        rw [hempty] at he
        cases Finset.notMem_empty e he

/-- Over every run of additions and removals from `hashmap_init` on, the map answers for the set of
the entries that were added and not removed again. -/
theorem hashmap_answersFor (hash : α → ℕ) (next : α → Option α) (initialSize : ℕ) (init : HashMap α)
    (hinit : hashmapInit next initialSize = some init) (ops : List (MapOp α))
    (hops : AllAllowed ∅ ops) :
    AnswersFor hash (ops.foldl (MapOp.run hash) init) (ops.foldl MapOp.apply ∅) :=
  (run_represents (hashmapInit_represents hinit hash).1 hops).answersFor

/-- The table grows with the 52nd entry, and shrinks again when 39 are left. -/
def growAndShrink : List (MapOp ℕ) := (List.range 53).map .add ++ (List.range 14).map .remove

theorem allAllowed_growAndShrink : AllAllowed ∅ growAndShrink := by
  decide +kernel

theorem hashmap_answersFor_growAndShrink :
    ∃ init, hashmapInit (fun _ : ℕ => none) 0 = some init ∧
      AnswersFor id (growAndShrink.foldl (MapOp.run id) init)
        (growAndShrink.foldl MapOp.apply ∅) := by
  obtain ⟨init, hinit⟩ : ∃ init, hashmapInit (fun _ : ℕ => none) 0 = some init := ⟨_, rfl⟩
  exact ⟨init, hinit, hashmap_answersFor id _ 0 init hinit _ allAllowed_growAndShrink⟩

end Run

section Load

variable [DecidableEq α]

structure Balanced (map : HashMap α) : Prop where
  shrinkAt : map.shrinkAt = shrinkLimit map.tablesize
  above : map.shrinkAt ≤ map.size
  below : map.size ≤ map.growAt

/-- The entries that an operation moves to a new table. -/
def MapOp.moved (hash : α → ℕ) (map : HashMap α) (op : MapOp α) : ℕ :=
  if (op.run hash map).tablesize = map.tablesize then 0 else (op.run hash map).size

def movedIn (hash : α → ℕ) : HashMap α → List (MapOp α) → ℕ
  | _, [] => 0
  | map, op :: ops => op.moved hash map + movedIn hash (op.run hash map) ops

/-- What the operations since the last resize have put aside for the next one, in hundredths of an
entry: the further the size is from where a resize leaves it, the more. -/
def potential (map : HashMap α) : ℕ :=
  5 * (100 * map.size - 64 * map.tablesize) +
    if map.tablesize ≤ 64 then 0 else 4 * (20 * map.tablesize - 100 * map.size)

inductive Resize (map map' : HashMap α) : Prop
  | same (htable : map'.tablesize = map.tablesize) (hshrink : map'.shrinkAt = map.shrinkAt)
      (habove : map.shrinkAt ≤ map'.size) (hbelow : map'.size ≤ map.growAt)
  | grow (htable : map'.tablesize = 4 * map.tablesize)
      (hshrink : map'.shrinkAt = shrinkLimit map'.tablesize) (hfull : map.growAt < map'.size)
  | shrink (htable : 4 * map'.tablesize = map.tablesize)
      (hshrink : map'.shrinkAt = shrinkLimit map'.tablesize) (hfew : map'.size < map.shrinkAt)

theorem shrinkAt_rehash {newsize : ℕ} (hnew : TableSize newsize) :
    (map.rehash hash newsize).shrinkAt = shrinkLimit newsize := by
  have hbound := hnew.pos
  have hgrow : u32 (newsize * 80 / 100) = newsize * 80 / 100 := u32_of_lt (by omega)
  simp only [rehash, allocTable, shrinkLimit, hashmapInitialSize, hashmapLoadFactor,
    hashmapResizeBits, hgrow]
  rfl

theorem Represents.add_resize (h : map.Represents hash S) (hb : map.Balanced) {e : α}
    (hroom : S.card < maxEntries) : (map.hashmapAdd hash e).size = map.size + 1 ∧
      Resize map (map.hashmapAdd hash e) := by
  have hsucc : u32 (map.size + 1) = map.size + 1 := by
    rw [h.size]
    refine u32_of_lt ?_
    unfold maxEntries at hroom
    omega
  have hgrowAt := h.growAt
  have habove := hb.above
  rw [hashmapAdd]
  split_ifs with hgrow
  · have hlt : map.tablesize < 2 ^ 30 := by
      have hsize := h.size
      unfold maxEntries at hroom
      simp only at hgrow
      omega
    have h32 : u32 (map.tablesize * 2 ^ hashmapResizeBits) = map.tablesize * 4 :=
      u32_of_lt (by rw [hashmapResizeBits]; omega)
    rw [h32]
    refine ⟨hsucc, .grow (mul_comm _ _) (shrinkAt_rehash (h.table.grow hlt)) hgrow⟩
  · refine ⟨hsucc, .same rfl rfl ?_ (Nat.le_of_not_lt hgrow)⟩
    change map.shrinkAt ≤ u32 (map.size + 1)
    omega

theorem Represents.remove_resize (h : map.Represents hash S) (hb : map.Balanced) {e : α}
    (he : e ∈ S) : (map.hashmapRemove hash e).2.size + 1 = map.size ∧
      Resize map (map.hashmapRemove hash e).2 := by
  have hsome := (h.remove he).1
  have hsize := (h.remove he).2.size
  have hcard : (S.erase e).card + 1 = S.card := Finset.card_erase_add_one he
  have hbelow := hb.below
  refine ⟨by rw [hsize, h.size, hcard], ?_⟩
  rw [hashmapRemove] at hsome hsize ⊢
  cases hload : map.cells.load (map.findEntryPtr (hash e) (· = e)) with
  | none =>
      simp only [hload] at hsome
      cases hsome
  | some old =>
      simp only [hload] at hsize ⊢
      have hdec : dec32 map.size + 1 = map.size := by
        have hlt := h.size_lt
        have heq := h.size
        unfold dec32
        omega
      split_ifs with hshrink
      · have hlarge : 64 < map.tablesize := by
          rw [hb.shrinkAt, shrinkLimit] at hshrink
          split_ifs at hshrink with hle
          · omega
          · omega
        obtain ⟨htable, hfour⟩ := h.table.shrink hlarge
        refine .shrink ?_ (shrinkAt_rehash htable) hshrink
        change 4 * (map.tablesize / 2 ^ hashmapResizeBits) = _
        rw [mul_comm]
        exact hfour
      · refine .same rfl rfl (Nat.le_of_not_lt hshrink) ?_
        change dec32 map.size ≤ map.growAt
        omega

/-- The thresholds are kept by an operation, and what it moves is paid by what is put aside. -/
theorem MapOp.balanced {op : MapOp α} (h : map.Represents hash S) (hb : map.Balanced)
    (hop : op.Allowed S) : (op.run hash map).Balanced ∧
      100 * op.moved hash map + potential (op.run hash map) ≤ potential map + 500 := by
  have hrep := MapOp.represents h hop
  have htable := h.table.pos
  have hgrowAt := h.growAt
  have hgrowAt' := hrep.growAt
  obtain ⟨hshrinkAt, habove, hbelow⟩ := hb
  have hstep : op.run hash map = map ∨ Resize map (op.run hash map) ∧
      ((op.run hash map).size = map.size + 1 ∨ (op.run hash map).size + 1 = map.size) := by
    cases op with
    | add entry =>
        obtain ⟨hsize, hresize⟩ := h.add_resize ⟨hshrinkAt, habove, hbelow⟩ (e := entry) hop.2
        exact Or.inr ⟨hresize, Or.inl hsize⟩
    | remove entry =>
        by_cases hmem : entry ∈ S
        · obtain ⟨hsize, hresize⟩ := h.remove_resize ⟨hshrinkAt, habove, hbelow⟩ hmem
          exact Or.inr ⟨hresize, Or.inr hsize⟩
        · refine Or.inl ?_
          rw [MapOp.run, h.remove_absent hmem]
  rw [MapOp.moved]
  rcases hstep with heq | ⟨hresize, hsize⟩
  · rw [heq, if_pos rfl]
    exact ⟨⟨hshrinkAt, habove, hbelow⟩, by omega⟩
  · generalize op.run hash map = map' at hrep hgrowAt' hresize hsize ⊢
    have htable' := hrep.table.pos
    cases hresize with
    | same ht hs ha hl =>
        refine ⟨⟨by rw [hs, hshrinkAt, ht], by omega, by rw [hgrowAt', ht, ← hgrowAt]; exact hl⟩, ?_⟩
        rw [if_pos ht, potential, potential, ht]
        split_ifs with hsmall
        · omega
        · omega
    | grow ht hs hfull =>
        rw [if_neg (by omega), potential, potential]
        have hlimit : shrinkLimit map'.tablesize = map'.tablesize * 80 / 100 / 5 :=
          if_neg (by omega)
        rw [hlimit] at hs
        refine ⟨⟨by rw [hs, hlimit], by omega, by omega⟩, ?_⟩
        rw [if_neg (show ¬ map'.tablesize ≤ 64 by omega)]
        omega
    | shrink ht hs hfew =>
        have hlimit : shrinkLimit map.tablesize = map.tablesize * 80 / 100 / 5 :=
          if_neg (by omega)
        rw [hlimit] at hshrinkAt
        rw [if_neg (by omega), potential, potential]
        refine ⟨⟨hs, ?_, by omega⟩, ?_⟩
        · rw [hs, shrinkLimit]
          split_ifs with hsmall
          · omega
          · omega
        · rw [if_neg (show ¬ map.tablesize ≤ 64 by omega)]
          split_ifs with hsmall
          · omega
          · omega

theorem run_balanced {ops : List (MapOp α)} (h : map.Represents hash S) (hb : map.Balanced)
    (hops : AllAllowed S ops) : (ops.foldl (MapOp.run hash) map).Balanced ∧
      100 * movedIn hash map ops ≤ potential map + 500 * ops.length := by
  induction ops generalizing map S with
  | nil => exact ⟨hb, Nat.zero_le _⟩
  | cons op ops ih =>
      obtain ⟨hb', hpaid⟩ := MapOp.balanced h hb hops.1
      obtain ⟨hrun, hmoved⟩ := ih (MapOp.represents h hops.1) hb' hops.2
      refine ⟨hrun, ?_⟩
      rw [movedIn, List.length_cons]
      omega

/-- Resizing never becomes erratic: after every run of additions and removals the load of the table
is between its thresholds, and all resizes together have moved at most five entries for each
operation. -/
theorem hashmap_moves_le (hash : α → ℕ) (next : α → Option α) (init : HashMap α)
    (hinit : hashmapInit next 0 = some init) (ops : List (MapOp α)) (hops : AllAllowed ∅ ops) :
    (ops.foldl (MapOp.run hash) init).Balanced ∧ movedIn hash init ops ≤ 5 * ops.length := by
  obtain ⟨hrep, hshrink⟩ := hashmapInit_represents hinit hash
  have hinit' : init.tablesize = 64 ∧ init.size = 0 := by
    rw [hashmapInit] at hinit
    cases hinit
    exact ⟨rfl, rfl⟩
  have hb : init.Balanced := by
    refine ⟨hshrink, ?_, ?_⟩
    · rw [hshrink, hinit'.1, shrinkLimit, if_pos le_rfl]
      exact Nat.zero_le _
    · rw [hinit'.2]
      exact Nat.zero_le _
  obtain ⟨hrun, hmoved⟩ := run_balanced hrep hb hops
  have hpot : potential init = 0 := by
    rw [potential, hinit'.1, hinit'.2]
    rfl
  exact ⟨hrun, by omega⟩

theorem hashmap_moves_le_growAndShrink :
    ∃ init, hashmapInit (fun _ : ℕ => none) 0 = some init ∧
      (growAndShrink.foldl (MapOp.run id) init).Balanced ∧ movedIn id init growAndShrink ≤ 5 * 67 := by
  obtain ⟨init, hinit⟩ : ∃ init, hashmapInit (fun _ : ℕ => none) 0 = some init := ⟨_, rfl⟩
  exact ⟨init, hinit, hashmap_moves_le id _ init hinit _ allAllowed_growAndShrink⟩

end Load

end ErofsUtils.HashMap
