import ErofsUtils.XattrItems

/-!
# Releases of items

The removal of a name and the export of an inode walk through its nodes and release their items one
by one. While every node of the walk still counts in its item, the loops touch no freed item, and
what they leave is given by the number of releases of each item.
-/

namespace ErofsUtils

/-- The items after `f id` releases of each of them. -/
def dropRefs (items : ItemMem) (f : ℕ → ℕ) : ItemMem := fun id =>
  (items id).bind fun item =>
    if f id < item.count then some { item with count := item.count - f id } else none

/-- Every place in the list counts in its item, next to the releases so far. -/
def Covered (items : ItemMem) (f : ℕ → ℕ) (ids : List ℕ) : Prop :=
  ∀ id ∈ ids, ∃ item, items id = some item ∧ f id + ids.count id ≤ item.count

/-- The nodes that `erofs_removexattr` takes out. -/
def removes (ino : ℕ) (key : List UInt8) (items : ItemMem) (node : ℕ × ℕ) : Bool :=
  decide (node.1 = ino) && (items node.2).any (·.key = key)

/-- The items that go to the shared part and to the inline part, which is built from its end. -/
def splitXattrs (items : ItemMem) : ℕ → List ℕ → List ℕ × List ℕ
  | _, [] => ([], [])
  | hSharedCount, id :: ids =>
    if (items id).any (·.sharedXattrId < 0) ∨ ucharMax ≤ hSharedCount then
      ((splitXattrs items hSharedCount ids).1, (splitXattrs items hSharedCount ids).2 ++ [id])
    else
      (id :: (splitXattrs items (hSharedCount + 1) ids).1,
        (splitXattrs items (hSharedCount + 1) ids).2)

def sharedIdOf (items : ItemMem) (id : ℕ) : ℤ := ((items id).map (·.sharedXattrId)).getD (-1)

def SameItem (items : ItemMem) (id : ℕ) (item : XattrItem) : Prop :=
  ∃ orig, items id = some orig ∧ item = { orig with count := item.count }

section Drop

variable {items : ItemMem} {f g : ℕ → ℕ} {ids : List ℕ} {id : ℕ} {item : XattrItem}

theorem dropRefs_of_lt (hi : items id = some item) (hf : f id < item.count) :
    dropRefs items f id = some { item with count := item.count - f id } := by
  simp only [dropRefs, hi, Option.bind_some, if_pos hf]

theorem dropRefs_zero (h : ∀ id item, items id = some item → 0 < item.count) :
    dropRefs items (fun _ => 0) = items := by
  funext id
  cases hi : items id with
  | none => rw [dropRefs, hi, Option.bind_none]
  | some item => exact dropRefs_of_lt hi (h id item hi)

theorem dropRefs_congr_at (h : f id = g id) : dropRefs items f id = dropRefs items g id := by
  rw [dropRefs, dropRefs, h]

theorem Covered.head (h : Covered items f (id :: ids)) :
    ∃ item, items id = some item ∧ f id < item.count := by
  obtain ⟨item, hi, hle⟩ := h id List.mem_cons_self
  rw [List.count_cons_self] at hle
  exact ⟨item, hi, by omega⟩

theorem Covered.tail (h : Covered items f (id :: ids)) : Covered items f ids := by
  intro x hx
  obtain ⟨item, hi, hle⟩ := h x (List.mem_cons_of_mem id hx)
  rw [List.count_cons] at hle
  exact ⟨item, hi, by omega⟩

theorem Covered.release (h : Covered items f (id :: ids)) :
    Covered items (Function.update f id (f id + 1)) ids := by
  intro x hx
  obtain ⟨item, hi, hle⟩ := h x (List.mem_cons_of_mem id hx)
  refine ⟨item, hi, ?_⟩
  by_cases hxid : x = id
  · subst hxid
    rw [List.count_cons_self] at hle
    rw [Function.update_self]
    omega
  · rw [List.count_cons_of_ne (Ne.symm hxid)] at hle
    rw [Function.update_of_ne hxid]
    exact hle

theorem release_count (f : ℕ → ℕ) (id : ℕ) (ids : List ℕ) :
    (fun x => Function.update f id (f id + 1) x + ids.count x) =
      fun x => f x + (id :: ids).count x := by
  funext x
  by_cases hx : x = id
  · subst hx
    rw [Function.update_self, List.count_cons_self]
    omega
  · rw [Function.update_of_ne hx, List.count_cons_of_ne (Ne.symm hx)]

theorem putXattritem_dropRefs (hi : items id = some item) (hf : f id < item.count) :
    putXattritem id (dropRefs items f) =
      some (dropRefs items (Function.update f id (f id + 1))) := by
  rw [putXattritem, dropRefs_of_lt hi hf]
  dsimp only
  congr 1
  funext x
  by_cases hx : x = id
  · subst hx
    rw [Function.update_self, dropRefs, hi, Option.bind_some, Function.update_self]
    split <;> split
    · rfl
    · omega
    · omega
    · rfl
  · rw [Function.update_of_ne hx]
    exact dropRefs_congr_at (Function.update_of_ne hx _ _).symm

end Drop

section Loops

variable {items : ItemMem} {ino : ℕ} {key : List UInt8}

/-- `erofs_removexattr` releases the item of each node that it takes out. -/
theorem removeLoop_eq (nodes : List (ℕ × ℕ)) : ∀ {f : ℕ → ℕ},
    Covered items f (nodes.map Prod.snd) →
    removeLoop ino key nodes (dropRefs items f) =
      some (nodes.filter (fun node => ! removes ino key items node),
        dropRefs items fun id =>
          f id + ((nodes.filter (removes ino key items)).map Prod.snd).count id) := by
  induction nodes with
  | nil =>
      intro f hcov
      simp [removeLoop]
  | cons node nodes ih =>
      obtain ⟨i, id⟩ := node
      intro f hcov
      rw [List.map_cons] at hcov
      obtain ⟨item, hi, hlt⟩ := hcov.head
      rw [removeLoop]
      by_cases hino : i = ino
      · rw [if_neg (not_not_intro hino), dropRefs_of_lt hi hlt]
        dsimp only
        by_cases hkey : item.key = key
        · have hrem : removes ino key items (i, id) = true := by simp [removes, hino, hi, hkey]
          rw [if_pos hkey, putXattritem_dropRefs hi hlt, Option.bind_some, ih hcov.release,
            List.filter_cons_of_neg (by rw [hrem]; decide), List.filter_cons_of_pos hrem]
          rw [release_count, List.map_cons]
        · have hrem : removes ino key items (i, id) = false := by simp [removes, hi, hkey]
          rw [if_neg hkey, ih hcov.tail, List.filter_cons_of_pos (by rw [hrem]; rfl),
            List.filter_cons_of_neg (by rw [hrem]; decide), Option.map_some]
      · have hrem : removes ino key items (i, id) = false := by simp [removes, hino]
        rw [if_pos hino, ih hcov.tail, List.filter_cons_of_pos (by rw [hrem]; rfl),
          List.filter_cons_of_neg (by rw [hrem]; decide), Option.map_some]

theorem splitXattrs_count (x : ℕ) (ids : List ℕ) : ∀ n : ℕ,
    (splitXattrs items n ids).1.count x + (splitXattrs items n ids).2.count x = ids.count x := by
  induction ids with
  | nil => intro n; rfl
  | cons id ids ih =>
      intro n
      rw [splitXattrs]
      split
      · dsimp only
        rw [List.count_append, List.count_cons, List.count_nil, List.count_cons, ← ih n]
        omega
      · dsimp only
        rw [List.count_cons, List.count_cons, ← ih (n + 1)]
        omega

theorem mem_splitXattrs {x n : ℕ} {ids : List ℕ} :
    x ∈ (splitXattrs items n ids).1 ∨ x ∈ (splitXattrs items n ids).2 ↔ x ∈ ids := by
  have hcount := @splitXattrs_count items x ids n
  rw [← List.count_pos_iff, ← List.count_pos_iff, ← List.count_pos_iff]
  omega

/-- The first loop of the export releases the items whose ids it writes. -/
theorem exportShared_eq (ids : List ℕ) : ∀ {f : ℕ → ℕ} {n : ℕ}, Covered items f ids →
    exportShared n ids (dropRefs items f) =
      some ((splitXattrs items n ids).1.map (sharedIdOf items), (splitXattrs items n ids).2,
        dropRefs items fun id => f id + (splitXattrs items n ids).1.count id) := by
  induction ids with
  | nil =>
      intro f n hcov
      simp [exportShared, splitXattrs]
  | cons id ids ih =>
      intro f n hcov
      obtain ⟨item, hi, hlt⟩ := hcov.head
      have hany : (items id).any (·.sharedXattrId < 0) = decide (item.sharedXattrId < 0) := by
        rw [hi, Option.any_some]
      rw [exportShared, dropRefs_of_lt hi hlt, splitXattrs, hany]
      simp only [decide_eq_true_eq]
      split
      · rw [ih hcov.tail]
        rfl
      · have hid : sharedIdOf items id = item.sharedXattrId := by
          rw [sharedIdOf, hi, Option.map_some, Option.getD_some]
        rw [putXattritem_dropRefs hi hlt, Option.bind_some, ih hcov.release, Option.map_some,
          List.map_cons, hid]
        rw [release_count]

theorem exportInline_eq (ids : List ℕ) : ∀ {f : ℕ → ℕ}, Covered items f ids →
    ∃ written, exportInline ids (dropRefs items f) =
        some (written, dropRefs items fun id => f id + ids.count id) ∧
      List.Forall₂ (SameItem items) ids written := by
  induction ids with
  | nil =>
      intro f hcov
      exact ⟨[], by simp [exportInline], List.Forall₂.nil⟩
  | cons id ids ih =>
      intro f hcov
      obtain ⟨item, hi, hlt⟩ := hcov.head
      obtain ⟨written, heq, hall⟩ := ih hcov.release
      refine ⟨{ item with count := item.count - f id } :: written, ?_,
        List.Forall₂.cons ⟨item, hi, rfl⟩ hall⟩
      rw [exportInline, dropRefs_of_lt hi hlt]
      dsimp only
      rw [putXattritem_dropRefs hi hlt, Option.bind_some, heq, Option.map_some]
      rw [release_count]

/-- What `erofs_export_xattr_ibody` writes and releases. -/
theorem exportXattrs_eq {s : XattrHeap} (hpos : ∀ id item, s.items id = some item → 0 < item.count)
    (hcov : Covered s.items (fun _ => 0) (s.ixattrs ino)) :
    ∃ written, exportXattrs ino s =
        some ((splitXattrs s.items 0 (s.ixattrs ino)).1.map (sharedIdOf s.items), written,
          { s with
            nodes := s.nodes.filter (·.1 ≠ ino)
            items := dropRefs s.items fun id => (s.ixattrs ino).count id }) ∧
      List.Forall₂ (SameItem s.items) (splitXattrs s.items 0 (s.ixattrs ino)).2 written := by
  have hcount := fun x => @splitXattrs_count s.items x (s.ixattrs ino) 0
  have hfirst := exportShared_eq (n := 0) (s.ixattrs ino) hcov
  rw [dropRefs_zero hpos] at hfirst
  have hcov' : Covered s.items (fun id => 0 + (splitXattrs s.items 0 (s.ixattrs ino)).1.count id)
      (splitXattrs s.items 0 (s.ixattrs ino)).2 := by
    intro x hx
    obtain ⟨item, hi, hle⟩ := hcov x (mem_splitXattrs.mp (Or.inr hx))
    refine ⟨item, hi, ?_⟩
    dsimp only at hle ⊢
    have hx := hcount x
    omega
  obtain ⟨written, hsecond, hall⟩ := exportInline_eq _ hcov'
  refine ⟨written, ?_, hall⟩
  rw [exportXattrs, hfirst, Option.bind_some, hsecond, Option.map_some]
  simp only [Nat.zero_add, hcount]

end Loops

end ErofsUtils
