import ErofsUtils.XattrRelease

/-!
# The references of the items

What `ea_hashtable`, the lists of the inodes, the counting phase and the shared list hold is compared
with the counts of the items and with what has been freed. `put_xattritem` leaves the link of an item
that it frees, and `erofs_cleanxattrs` frees items whoever holds them.
-/

namespace ErofsUtils
open ByteMemory

/-- The references to an item: those of the counting phase and those of the inodes. -/
def XattrHeap.holders (s : XattrHeap) (id : ℕ) : ℕ :=
  s.counting.count id + (s.nodes.map Prod.snd).count id

def XattrHeap.empty (area : Mem) : XattrHeap where
  items := fun _ => none
  next := 0
  table := []
  nodes := []
  counting := []
  shared := []
  sharedCount := 0
  area := area

/-- What holds of the addresses whatever is done: nothing points behind `next`, and an item stays in
the table while it lives. -/
structure XattrHeap.Wf (s : XattrHeap) : Prop where
  fresh : ∀ id, s.next ≤ id → s.items id = none
  nodes_lt : ∀ node ∈ s.nodes, node.2 < s.next
  counting_lt : ∀ id ∈ s.counting, id < s.next
  table_lt : ∀ link ∈ s.table, link.2 < s.next
  shared_lt : ∀ id ∈ s.shared, id < s.next
  linked : ∀ id item, s.items id = some item → id ∈ s.table.map Prod.snd
  count_lt : ∀ id item, s.items id = some item → item.count < 2 ^ 32

structure XattrHeap.Balanced (s : XattrHeap) : Prop where
  count_eq : ∀ id item, s.items id = some item → item.count = s.holders id
  live_iff : ∀ id, (s.items id).isSome ↔ 0 < s.holders id

/-- Moreover, neither the table nor the shared list reaches a freed item. -/
structure XattrHeap.Sound (s : XattrHeap) : Prop extends s.Balanced where
  linked_live : ∀ link ∈ s.table, (s.items link.2).isSome
  shared_live : ∀ id ∈ s.shared, (s.items id).isSome

/-- When a step keeps the counts: no release is the last one of its item, what is cleaned has no
holder left, no count goes beyond 32 bits, and the shared list fits its array. -/
def XattrOp.Keeps (op : XattrOp) (s : XattrHeap) : Prop :=
  match op with
  | .count key value | .set _ key value => ∀ id item,
      findXattritem s.items (eaBucket key value) key value s.table = some (some (id, item)) →
        item.count + 1 < 2 ^ 32
  | .share _ => s.sharedCount = 0 ∨ s.shared.Nodup ∧ s.shared.length = s.sharedCount
  | .clean sharedxattrs => ∀ link ∈ s.table, cleanTakes sharedxattrs s.items link = true →
      link.2 ∉ s.nodes.map Prod.snd ∧ link.2 ∉ s.shared
  | .remove ino key => ∀ id,
      0 < ((s.nodes.filter (removes ino key s.items)).map Prod.snd).count id →
        ((s.nodes.filter (removes ino key s.items)).map Prod.snd).count id < s.holders id
  | .exportIbody ino => ∀ id, 0 < (s.ixattrs ino).count id →
      (s.ixattrs ino).count id < s.holders id

section Basics

variable {s : XattrHeap} {id : ℕ} {item : XattrItem}

theorem XattrHeap.empty_wf (area : Mem) : (XattrHeap.empty area).Wf where
  fresh _ _ := rfl
  nodes_lt _ h := absurd h List.not_mem_nil
  counting_lt _ h := absurd h List.not_mem_nil
  table_lt _ h := absurd h List.not_mem_nil
  shared_lt _ h := absurd h List.not_mem_nil
  linked _ _ h := by cases h
  count_lt _ _ h := by cases h

theorem XattrHeap.empty_sound (area : Mem) : (XattrHeap.empty area).Sound where
  count_eq _ _ h := by cases h
  live_iff _ := by simp [XattrHeap.empty, XattrHeap.holders]
  linked_live _ h := absurd h List.not_mem_nil
  shared_live _ h := absurd h List.not_mem_nil

theorem XattrHeap.Wf.lt_of_live (hw : s.Wf) (h : (s.items id).isSome) : id < s.next := by
  by_contra hge
  rw [hw.fresh id (not_lt.mp hge)] at h
  cases h

/-- Nothing holds an address that is not used yet. -/
theorem XattrHeap.Wf.holders_next (hw : s.Wf) : s.holders s.next = 0 := by
  have hcounting : s.next ∉ s.counting := fun h => lt_irrefl _ (hw.counting_lt _ h)
  have hnodes : s.next ∉ s.nodes.map Prod.snd := by
    intro h
    obtain ⟨node, hnode, heq⟩ := List.mem_map.mp h
    exact lt_irrefl s.next (heq ▸ hw.nodes_lt node hnode)
  rw [holders, List.count_eq_zero_of_not_mem hcounting, List.count_eq_zero_of_not_mem hnodes]

theorem XattrHeap.Balanced.count_pos (hs : s.Balanced) (h : s.items id = some item) : 0 < item.count := by
  rw [hs.count_eq id item h]
  exact (hs.live_iff id).mp (by rw [h]; rfl)

theorem XattrHeap.Balanced.node_live (hs : s.Balanced) (h : id ∈ s.nodes.map Prod.snd) :
    ∃ item, s.items id = some item := by
  refine Option.isSome_iff_exists.mp ((hs.live_iff id).mpr ?_)
  have hpos := List.count_pos_iff.mpr h
  rw [holders]
  omega

theorem XattrHeap.Balanced.covered (hs : s.Balanced) {ids : List ℕ}
    (h : ∀ id, ids.count id ≤ (s.nodes.map Prod.snd).count id) :
    Covered s.items (fun _ => 0) ids := by
  intro id hid
  have hpos := List.count_pos_iff.mpr hid
  obtain ⟨item, hi⟩ := hs.node_live (List.count_pos_iff.mp (hpos.trans_le (h id)))
  refine ⟨item, hi, ?_⟩
  have hle := h id
  rw [hs.count_eq id item hi, holders]
  dsimp only
  omega

theorem dropRefs_isSome {items : ItemMem} {f : ℕ → ℕ} (h : items id = some item) :
    (dropRefs items f id).isSome ↔ f id < item.count := by
  rw [dropRefs, h, Option.bind_some]
  split
  next hlt => simp [hlt]
  next hlt => simp [hlt]

theorem dropRefs_some {items : ItemMem} {f : ℕ → ℕ} (h : dropRefs items f id = some item) :
    ∃ orig, items id = some orig ∧ f id < orig.count ∧
      item = { orig with count := orig.count - f id } := by
  obtain ⟨orig, horig, hsome⟩ := Option.bind_eq_some_iff.mp h
  split at hsome
  next hlt => exact ⟨orig, horig, hlt, (Option.some.inj hsome).symm⟩
  next => cases hsome

end Basics

section Releases

variable {s : XattrHeap}

theorem release_balanced (hb : s.Balanced) {nodes : List (ℕ × ℕ)} {f : ℕ → ℕ}
    (hf : ∀ id, (nodes.map Prod.snd).count id + f id = (s.nodes.map Prod.snd).count id) :
    { s with nodes, items := dropRefs s.items f }.Balanced := by
  have hholders : ∀ id, XattrHeap.holders { s with nodes, items := dropRefs s.items f } id + f id =
      s.holders id := by
    intro id
    have hid := hf id
    simp only [XattrHeap.holders]
    omega
  refine ⟨fun id item hi => ?_, fun id => ?_⟩
  · obtain ⟨orig, horig, -, rfl⟩ := dropRefs_some hi
    have hid := hholders id
    have hcount := hb.count_eq id orig horig
    dsimp only
    omega
  · have hid := hholders id
    have hlive := hb.live_iff id
    cases hi : s.items id with
    | none =>
        rw [hi] at hlive
        have hnone : ¬ 0 < s.holders id := fun h => Bool.false_ne_true (hlive.mpr h)
        simp only [dropRefs, hi, Option.bind_none]
        refine iff_of_false Bool.false_ne_true ?_
        omega
    | some item =>
        dsimp only
        rw [dropRefs_isSome hi, hb.count_eq id item hi]
        omega

/-- They also leave the table and the shared list right if none of them was the last holder. -/
theorem release_sound_iff (hw : s.Wf) (hs : s.Sound) {nodes : List (ℕ × ℕ)} {f : ℕ → ℕ}
    (hf : ∀ id, (nodes.map Prod.snd).count id + f id = (s.nodes.map Prod.snd).count id) :
    { s with nodes, items := dropRefs s.items f }.Sound ↔
      ∀ id, 0 < f id → f id < s.holders id := by
  constructor
  · -- an item that loses its last holder is freed, and its link stays
    intro hs' id hpos
    have hle : f id ≤ s.holders id := by
      have hid := hf id
      rw [XattrHeap.holders]
      omega
    obtain ⟨item, hi⟩ := Option.isSome_iff_exists.mp ((hs.live_iff id).mpr (by omega))
    obtain ⟨link, hlink, rfl⟩ := List.mem_map.mp (hw.linked id item hi)
    have hlt := (dropRefs_isSome hi).mp (hs'.linked_live link hlink)
    rwa [hs.count_eq _ item hi] at hlt
  · intro hkeep
    have hlive : ∀ id, (s.items id).isSome → (dropRefs s.items f id).isSome := by
      intro id hid
      obtain ⟨item, hi⟩ := Option.isSome_iff_exists.mp hid
      rw [dropRefs_isSome hi, hs.count_eq id item hi]
      have hpos := (hs.live_iff id).mp hid
      have hkeep := hkeep id
      omega
    exact { release_balanced hs.toBalanced hf with
      linked_live := fun link hlink => hlive _ (hs.linked_live link hlink)
      shared_live := fun id hid => hlive id (hs.shared_live id hid) }

theorem release_wf (hw : s.Wf) {nodes : List (ℕ × ℕ)} {f : ℕ → ℕ} (hsub : nodes ⊆ s.nodes) :
    { s with nodes, items := dropRefs s.items f }.Wf where
  fresh id hid := by
    dsimp only
    rw [dropRefs, hw.fresh id hid, Option.bind_none]
  nodes_lt node hnode := hw.nodes_lt node (hsub hnode)
  counting_lt := hw.counting_lt
  table_lt := hw.table_lt
  shared_lt := hw.shared_lt
  linked id item hi := by
    obtain ⟨orig, horig, -⟩ := dropRefs_some hi
    exact hw.linked id orig horig
  count_lt id item hi := by
    obtain ⟨orig, horig, -, rfl⟩ := dropRefs_some hi
    have hlt := hw.count_lt id orig horig
    dsimp only
    omega

theorem count_filter_not (p : ℕ × ℕ → Bool) (nodes : List (ℕ × ℕ)) (id : ℕ) :
    ((nodes.filter (fun node => ! p node)).map Prod.snd).count id +
      ((nodes.filter p).map Prod.snd).count id = (nodes.map Prod.snd).count id := by
  induction nodes with
  | nil => rfl
  | cons node nodes ih =>
      rw [List.map_cons, List.count_cons, ← ih]
      cases hp : p node
      · rw [List.filter_cons_of_pos (by rw [hp]; rfl), List.filter_cons_of_neg (by rw [hp]; decide),
          List.map_cons, List.count_cons]
        omega
      · rw [List.filter_cons_of_neg (by rw [hp]; decide), List.filter_cons_of_pos hp,
          List.map_cons, List.count_cons]
        omega

theorem erofsRemovexattr_eq (hs : s.Balanced) (ino : ℕ) (key : List UInt8) :
    erofsRemovexattr ino key s = some { s with
      nodes := s.nodes.filter fun node => ! removes ino key s.items node
      items := dropRefs s.items fun id =>
        ((s.nodes.filter (removes ino key s.items)).map Prod.snd).count id } := by
  have hloop := @removeLoop_eq _ ino key s.nodes _ (hs.covered fun id => le_rfl)
  rw [dropRefs_zero fun id item hi => hs.count_pos hi] at hloop
  rw [erofsRemovexattr, hloop, Option.map_some]
  simp only [Nat.zero_add]

theorem count_ixattrs (ino id : ℕ) :
    ((s.nodes.filter (·.1 ≠ ino)).map Prod.snd).count id + (s.ixattrs ino).count id =
      (s.nodes.map Prod.snd).count id := by
  rw [XattrHeap.ixattrs, ← count_filter_not (fun node => decide (node.1 = ino)) s.nodes id]
  simp only [ne_eq, decide_not]

end Releases

section Lookups

variable {s : XattrHeap} {cfg : XattrCfg} {key value : List UInt8}

theorem findXattritem_spec {items : ItemMem} {bucket : ℕ} {links : List (ℕ × ℕ)}
    (hlive : ∀ link ∈ links, (items link.2).isSome) :
    findXattritem items bucket key value links = some none ∨
      ∃ id item, findXattritem items bucket key value links = some (some (id, item)) ∧
        items id = some item ∧ item.key = key ∧ item.value = value := by
  induction links with
  | nil => exact Or.inl rfl
  | cons link links ih =>
      obtain ⟨b, id⟩ := link
      have ih := ih fun link hlink => hlive link (List.mem_cons_of_mem _ hlink)
      rw [findXattritem]
      split
      · exact ih
      · obtain ⟨item, hi⟩ := Option.isSome_iff_exists.mp (hlive (b, id) List.mem_cons_self)
        rw [hi]
        dsimp only
        split
        next hmatch => exact Or.inr ⟨id, item, rfl, hi, hmatch⟩
        next => exact ih

theorem findXattritem_some {items : ItemMem} {bucket id : ℕ} {links : List (ℕ × ℕ)}
    {item : XattrItem} (h : findXattritem items bucket key value links = some (some (id, item))) :
    items id = some item ∧ item.key = key ∧ item.value = value := by
  induction links with
  | nil => cases h
  | cons link links ih =>
      obtain ⟨b, id'⟩ := link
      rw [findXattritem] at h
      split at h
      · exact ih h
      · split at h
        · cases h
        next item' hi =>
          split at h
          next hmatch =>
            cases h
            exact ⟨hi, hmatch⟩
          next => exact ih h

/-- What `get_xattritem` does: it counts the item that it finds, it makes one at `next`, or it
refuses a name without a predefined prefix. -/
theorem getXattritem_cases {r : Except ℤ ℕ × XattrHeap}
    (h : getXattritem cfg key value s = some r) :
    (∃ id item, findXattritem s.items (eaBucket key value) key value s.table =
        some (some (id, item)) ∧
      r = (.ok id, { s with
        items := Function.update s.items id (some { item with count := u32 (item.count + 1) }) })) ∨
    findXattritem s.items (eaBucket key value) key value s.table = some none ∧
      (r = (.error eNoAttr, s) ∨
        ∃ item, newXattritem cfg.prefixes key value = some item ∧
          r = (.ok s.next, { s with
            items := Function.update s.items s.next (some item)
            next := s.next + 1
            table := (eaBucket key value, s.next) :: s.table })) := by
  unfold getXattritem at h
  split at h
  · cases h
  next id item hfind => exact Or.inl ⟨id, item, hfind, (Option.some.inj h).symm⟩
  next hfind =>
    refine Or.inr ⟨hfind, ?_⟩
    split at h
    · exact Or.inl (Option.some.inj h).symm
    next item hnew => exact Or.inr ⟨item, hnew, (Option.some.inj h).symm⟩

theorem newXattritem_count {nodes : List EaTypeNode} {item : XattrItem}
    (h : newXattritem nodes key value = some item) : item.count = 1 ∧ item.sharedXattrId = -1 := by
  unfold newXattritem at h
  split at h
  · cases h
  next =>
    split at h
    · cases h
      exact ⟨rfl, rfl⟩
    · cases h
      exact ⟨rfl, rfl⟩

structure TakesRef (t s' : XattrHeap) (id : ℕ) : Prop where
  items : s'.items = t.items
  next : s'.next = t.next
  table : s'.table = t.table
  nodes : ∀ node ∈ s'.nodes, node ∈ t.nodes ∨ node.2 = id
  counting : ∀ x ∈ s'.counting, x ∈ t.counting ∨ x = id
  shared : ∀ x ∈ s'.shared, x ∈ t.shared ∨ x = id
  holders : ∀ x, s'.holders x = t.holders x + if x = id then 1 else 0

variable {s' t : XattrHeap} {id : ℕ} {item : XattrItem}

theorem takesRef_found (hw : s.Wf) (hb : s.Balanced) (hi : s.items id = some item)
    (ht : TakesRef { s with
      items := Function.update s.items id (some { item with count := u32 (item.count + 1) }) }
        s' id) :
    s'.Wf ∧ (s'.Balanced ↔ item.count + 1 < 2 ^ 32) ∧
      ∀ x, (s'.items x).isSome ↔ (s.items x).isSome := by
  have hidlt : id < s.next := hw.lt_of_live (by rw [hi]; rfl)
  have hitems : s'.items =
    Function.update s.items id (some { item with count := u32 (item.count + 1) }) := ht.items
  have hlive : ∀ x, (s'.items x).isSome ↔ (s.items x).isSome := by
    intro x
    rw [hitems]
    by_cases hx : x = id
    · rw [hx, Function.update_self, hi]
      exact Iff.rfl
    · rw [Function.update_of_ne hx]
  have hself : s'.items id = some { item with count := u32 (item.count + 1) } := by
    rw [hitems, Function.update_self]
  have hother : ∀ x, x ≠ id → s'.items x = s.items x := fun x hx => by
    rw [hitems, Function.update_of_ne hx]
  have hholders : ∀ x, s'.holders x = s.holders x + if x = id then 1 else 0 := ht.holders
  refine ⟨⟨fun x hx => ?_, fun node hnode => ?_, fun x hx => ?_, fun link hlink => ?_,
      fun x hx => ?_, fun x y hy => ?_, fun x y hy => ?_⟩, ⟨?_, ?_⟩, hlive⟩
  · rw [ht.next] at hx
    rw [hother x (hidlt.trans_le hx).ne']
    exact hw.fresh x hx
  · rw [ht.next]
    rcases ht.nodes node hnode with h | h
    · exact hw.nodes_lt node h
    · exact h ▸ hidlt
  · rw [ht.next]
    rcases ht.counting x hx with h | h
    · exact hw.counting_lt x h
    · exact h ▸ hidlt
  · rw [ht.next]
    exact hw.table_lt link (ht.table ▸ hlink)
  · rw [ht.next]
    rcases ht.shared x hx with h | h
    · exact hw.shared_lt x h
    · exact h ▸ hidlt
  · rw [ht.table]
    obtain ⟨orig, horig⟩ := Option.isSome_iff_exists.mp ((hlive x).mp (by rw [hy]; rfl))
    exact hw.linked x orig horig
  · by_cases hx : x = id
    · subst hx
      rw [hself] at hy
      cases hy
      exact Nat.mod_lt _ (by decide)
    · exact hw.count_lt x y (hother x hx ▸ hy)
  · -- at 2 ^ 32 references the count starts again at zero
    intro hb'
    have hcount := hb.count_eq id item hi
    have heq := hb'.count_eq id _ hself
    rw [hholders, if_pos rfl] at heq
    have hmod : u32 (item.count + 1) < 2 ^ 32 := Nat.mod_lt _ (by decide)
    dsimp only at heq
    omega
  · intro hfits
    refine ⟨fun x y hy => ?_, fun x => ?_⟩
    · by_cases hx : x = id
      · subst hx
        rw [hself] at hy
        cases hy
        rw [hholders, if_pos rfl]
        dsimp only
        rw [u32, Nat.mod_eq_of_lt hfits, hb.count_eq x item hi]
      · rw [hholders, if_neg hx]
        exact hb.count_eq x y (hother x hx ▸ hy)
    · rw [hlive, hb.live_iff, hholders]
      by_cases hx : x = id
      · have hpos := hb.count_pos hi
        rw [hb.count_eq id item hi] at hpos
        rw [hx, if_pos rfl]
        omega
      · rw [if_neg hx, Nat.add_zero]

theorem takesRef_new (hw : s.Wf) (hb : s.Balanced) (hcount : item.count = 1) {bucket : ℕ}
    (ht : TakesRef { s with
      items := Function.update s.items s.next (some item)
      next := s.next + 1
      table := (bucket, s.next) :: s.table } s' s.next) :
    s'.Wf ∧ s'.Balanced ∧ (s'.items s.next).isSome ∧
      ∀ x, x ≠ s.next → s'.items x = s.items x := by
  have hitems : s'.items = Function.update s.items s.next (some item) := ht.items
  have hself : s'.items s.next = some item := by rw [hitems, Function.update_self]
  have hother : ∀ x, x ≠ s.next → s'.items x = s.items x := fun x hx => by
    rw [hitems, Function.update_of_ne hx]
  have hholders : ∀ x, s'.holders x = s.holders x + if x = s.next then 1 else 0 := ht.holders
  have hnext : s'.next = s.next + 1 := ht.next
  have htable : s'.table = (bucket, s.next) :: s.table := ht.table
  refine ⟨?_, ?_, by rw [hself]; rfl, hother⟩
  · refine ⟨fun x hx => ?_, fun node hnode => ?_, fun x hx => ?_, fun link hlink => ?_,
      fun x hx => ?_, fun x y hy => ?_, fun x y hy => ?_⟩
    · rw [hother x (by omega)]
      exact hw.fresh x (by omega)
    · rcases ht.nodes node hnode with h | h
      · have hlt := hw.nodes_lt node h
        omega
      · omega
    · rcases ht.counting x hx with h | h
      · have hlt := hw.counting_lt x h
        omega
      · omega
    · rw [htable] at hlink
      rcases List.mem_cons.mp hlink with h | h
      · rw [h, hnext]
        exact Nat.lt_succ_self _
      · have hlt := hw.table_lt link h
        omega
    · rcases ht.shared x hx with h | h
      · have hlt := hw.shared_lt x h
        omega
      · omega
    · rw [htable, List.map_cons]
      by_cases hx : x = s.next
      · rw [hx]
        exact List.mem_cons_self
      · exact List.mem_cons_of_mem _ (hw.linked x y (hother x hx ▸ hy))
    · by_cases hx : x = s.next
      · rw [hx, hself] at hy
        cases hy
        rw [hcount]
        decide
      · exact hw.count_lt x y (hother x hx ▸ hy)
  · refine ⟨fun x y hy => ?_, fun x => ?_⟩
    · rw [hholders]
      by_cases hx : x = s.next
      · rw [hx, hself] at hy
        cases hy
        rw [hx, hcount, hw.holders_next, if_pos rfl]
      · rw [if_neg hx]
        exact hb.count_eq x y (hother x hx ▸ hy)
    · rw [hholders]
      by_cases hx : x = s.next
      · rw [hx, hself, if_pos rfl]
        simp
      · rw [hother x hx, if_neg hx, Nat.add_zero]
        exact hb.live_iff x

structure XattrHeap.SameLists (s t : XattrHeap) : Prop where
  nodes : t.nodes = s.nodes
  counting : t.counting = s.counting
  shared : t.shared = s.shared
  sharedCount : t.sharedCount = s.sharedCount
  area : t.area = s.area

theorem getXattritem_same {r : Except ℤ ℕ} (h : getXattritem cfg key value s = some (r, t)) :
    s.SameLists t := by
  rcases getXattritem_cases h with ⟨id, item, -, heq⟩ | ⟨-, heq | ⟨item, -, heq⟩⟩
  · cases heq
    exact ⟨rfl, rfl, rfl, rfl, rfl⟩
  · cases heq
    exact ⟨rfl, rfl, rfl, rfl, rfl⟩
  · cases heq
    exact ⟨rfl, rfl, rfl, rfl, rfl⟩

/-- A lookup that fails changes nothing: no item was found, and none can be made. -/
theorem getXattritem_error {err : ℤ} (h : getXattritem cfg key value s = some (.error err, t)) :
    t = s ∧ findXattritem s.items (eaBucket key value) key value s.table = some none ∧
      newXattritem cfg.prefixes key value = none := by
  unfold getXattritem at h
  split at h
  · cases h
  · cases h
  next hfind =>
    split at h
    next hnew =>
      cases h
      exact ⟨rfl, hfind, hnew⟩
    next => cases h

/-- `erofs_setxattr` fails and changes nothing, or adds a node in front. -/
theorem erofsSetxattr_cases {ino : ℕ} (h : erofsSetxattr cfg ino key value s = some s') :
    (s' = s ∧ findXattritem s.items (eaBucket key value) key value s.table = some none ∧
        newXattritem cfg.prefixes key value = none) ∨
      ∃ id t, getXattritem cfg key value s = some (.ok id, t) ∧
        s' = { t with nodes := (ino, id) :: t.nodes } ∧ TakesRef t s' id := by
  unfold erofsSetxattr at h
  split at h
  · cases h
  next err t hget =>
    cases h
    obtain ⟨rfl, hnone⟩ := getXattritem_error hget
    exact Or.inl ⟨rfl, hnone⟩
  next id t hget =>
    cases h
    refine Or.inr ⟨id, t, hget, rfl, rfl, rfl, rfl, fun node hnode => ?_, fun x hx => Or.inl hx,
      fun x hx => Or.inl hx, fun x => ?_⟩
    · rcases List.mem_cons.mp hnode with h | h
      · exact Or.inr (by rw [h])
      · exact Or.inl h
    · simp only [XattrHeap.holders, List.map_cons, List.count_cons, beq_iff_eq, eq_comm (a := id)]
      omega

theorem countXattr_cases (h : countXattr cfg key value s = some s') :
    (s' = s ∧ findXattritem s.items (eaBucket key value) key value s.table = some none ∧
        newXattritem cfg.prefixes key value = none) ∨
      ∃ id t shared sharedCount, getXattritem cfg key value s = some (.ok id, t) ∧
        (∀ x ∈ shared, x ∈ t.shared ∨ x = id) ∧ (∀ x ∈ t.shared, x ∈ shared) ∧
        s' = { t with counting := id :: t.counting, shared, sharedCount } ∧ TakesRef t s' id := by
  unfold countXattr at h
  split at h
  · cases h
  next err t hget =>
    cases h
    obtain ⟨rfl, hnone⟩ := getXattritem_error hget
    exact Or.inl ⟨rfl, hnone⟩
  next id t hget =>
    have ht : ∀ shared sharedCount, (∀ x ∈ shared, x ∈ t.shared ∨ x = id) →
        TakesRef t { t with counting := id :: t.counting, shared, sharedCount } id := by
      refine fun shared sharedCount hshared => ⟨rfl, rfl, rfl, fun node hnode => Or.inl hnode,
        fun x hx => (List.mem_cons.mp hx).symm, hshared, fun x => ?_⟩
      simp only [XattrHeap.holders, List.count_cons, beq_iff_eq, eq_comm (a := id)]
      omega
    dsimp only at h
    split at h
    · cases h
      have hsub : ∀ x ∈ id :: t.shared, x ∈ t.shared ∨ x = id := fun x hx =>
        (List.mem_cons.mp hx).symm
      exact Or.inr ⟨id, t, _, _, hget, hsub, fun x hx => List.mem_cons_of_mem id hx, rfl,
        ht _ _ hsub⟩
    · cases h
      exact Or.inr ⟨id, t, t.shared, t.sharedCount, hget, fun x hx => Or.inl hx, fun x hx => hx,
        rfl, ht _ _ fun x hx => Or.inl hx⟩

theorem takesRef_balanced_iff (hw : s.Wf) (hb : s.Balanced)
    (h : getXattritem cfg key value s = some (.ok id, t)) (ht : TakesRef t s' id) :
    s'.Wf ∧ (s'.Balanced ↔ ∀ id item,
      findXattritem s.items (eaBucket key value) key value s.table = some (some (id, item)) →
        item.count + 1 < 2 ^ 32) := by
  rcases getXattritem_cases h with ⟨id', item, hfind, heq⟩ | ⟨hfind, heq | ⟨item, hnew, heq⟩⟩
  · cases heq
    obtain ⟨hw', hiff, -⟩ := takesRef_found hw hb (findXattritem_some hfind).1 ht
    refine ⟨hw', hiff.trans ⟨fun hlt id' item' hfind' => ?_, fun hall => hall id item hfind⟩⟩
    rw [hfind] at hfind'
    cases hfind'
    exact hlt
  · cases heq
  · cases heq
    obtain ⟨hw', hb', -⟩ := takesRef_new hw hb (newXattritem_count hnew).1 ht
    refine ⟨hw', iff_of_true hb' fun id' item' hfind' => ?_⟩
    rw [hfind] at hfind'
    cases hfind'

theorem takesRef_live (hw : s.Wf) (hb : s.Balanced)
    (h : getXattritem cfg key value s = some (.ok id, t)) (ht : TakesRef t s' id) :
    (s'.items id).isSome ∧ (∀ x, (s.items x).isSome → (s'.items x).isSome) ∧
      ∀ link ∈ s'.table, link ∈ s.table ∨ link.2 = id := by
  rcases getXattritem_cases h with ⟨id', item, hfind, heq⟩ | ⟨-, heq | ⟨item, hnew, heq⟩⟩
  · cases heq
    have hi := (findXattritem_some hfind).1
    obtain ⟨-, -, hlive⟩ := takesRef_found hw hb hi ht
    exact ⟨(hlive id).mpr (by rw [hi]; rfl), fun x hx => (hlive x).mpr hx,
      fun link hlink => Or.inl (ht.table ▸ hlink)⟩
  · cases heq
  · cases heq
    obtain ⟨-, -, hself, hother⟩ := takesRef_new hw hb (newXattritem_count hnew).1 ht
    refine ⟨hself, fun x hx => ?_, fun link hlink => ?_⟩
    · rw [hother x (hw.lt_of_live hx).ne]
      exact hx
    · have htable : s'.table = (eaBucket key value, s.next) :: s.table := ht.table
      rw [htable] at hlink
      rcases List.mem_cons.mp hlink with h | h
      · exact Or.inr (by rw [h])
      · exact Or.inl h

theorem takesRef_sound_iff (hw : s.Wf) (hs : s.Sound)
    (h : getXattritem cfg key value s = some (.ok id, t)) (ht : TakesRef t s' id)
    (hshared : ∀ x ∈ s'.shared, x ∈ s.shared ∨ x = id) :
    s'.Wf ∧ (s'.Sound ↔ ∀ id item,
      findXattritem s.items (eaBucket key value) key value s.table = some (some (id, item)) →
        item.count + 1 < 2 ^ 32) := by
  obtain ⟨hw', hiff⟩ := takesRef_balanced_iff hw hs.toBalanced h ht
  obtain ⟨hself, hlive, htable⟩ := takesRef_live hw hs.toBalanced h ht
  refine ⟨hw', fun hs' => hiff.mp hs'.toBalanced, fun hall => ?_⟩
  exact { hiff.mpr hall with
    linked_live := fun link hlink => by
      rcases htable link hlink with h | h
      · exact hlive _ (hs.linked_live link h)
      · exact h ▸ hself
    shared_live := fun x hx => by
      rcases hshared x hx with h | h
      · exact hlive x (hs.shared_live x h)
      · exact h ▸ hself }

end Lookups

end ErofsUtils
