import ErofsUtils.XattrExport
import ErofsUtils.XattrTableRun

/-!
# The lists of xattrs of the inodes

What an inode has set is a list of names and values, newest first, whatever items it shares with
other inodes. The steps over the items are steps over these lists, and while every shared item
keeps its place in the shared area.
-/

namespace ErofsUtils
open ByteMemory

abbrev XattrLists := ℕ → List (List UInt8 × List UInt8)

def keyValue (items : ItemMem) (id : ℕ) : Option (List UInt8 × List UInt8) :=
  (items id).map fun item => (item.key, item.value)

def XattrHeap.xattrsOf (s : XattrHeap) : XattrLists := fun ino =>
  (s.ixattrs ino).filterMap (keyValue s.items)

def listStep (op : XattrOp) (lists : XattrLists) : XattrLists :=
  match op with
  | .set ino key value =>
    if (erofsXattrPrefixMatches key).isSome then
      Function.update lists ino ((key, value) :: lists ino)
    else lists
  | .remove ino key => Function.update lists ino ((lists ino).filter (·.1 ≠ key))
  | .exportIbody ino => Function.update lists ino []
  | .count _ _ | .share _ | .clean _ => lists

/-- A lookup that meets no freed item and whose count stays in 32 bits. -/
def LooksUp (s : XattrHeap) (key value : List UInt8) : Prop :=
  ∃ found, findXattritem s.items (eaBucket key value) key value s.table = some found ∧
    ∀ id item, found = some (id, item) → item.count + 1 < 2 ^ 32

/-- When a step is a step over the lists: its lookup meets no freed item, what is cleaned has no
holder left, and the shared area fits. -/
def XattrOp.Tracks (op : XattrOp) (s : XattrHeap) : Prop :=
  match op with
  | .count key value | .set _ key value => LooksUp s key value
  | .share slot => s.sharedCount = 0 ∨ (s.shared.Nodup ∧ s.shared.length = s.sharedCount) ∧
      4 * slot + (s.shared.map (entrySpace s.items)).sum < 2 ^ 32
  | .clean sharedxattrs => (∀ link ∈ s.table, (s.items link.2).isSome) ∧
      ∀ x ∈ s.gone sharedxattrs, x ∉ s.nodes.map Prod.snd ∧ x ∉ s.shared
  | .remove _ _ | .exportIbody _ => True

def PlacedAt (shared : List ℕ) (area : Mem) (id : ℕ) (item : XattrItem) : Prop :=
  0 ≤ item.sharedXattrId → id ∈ shared ∧ ∃ n : ℕ, item.sharedXattrId = n ∧ n < 2 ^ 32 ∧
    Holds area (4 * n) (erofsWriteXattrEntry item)

/-- What holds of the items in every run whose steps track the lists. -/
structure XattrHeap.Tracked (cfg : XattrCfg) (s : XattrHeap) : Prop where
  wf : s.Wf
  balanced : s.Balanced
  shared_counted : ∀ id ∈ s.shared, id ∈ s.counting
  made : ∀ id item, s.items id = some item →
    newXattritem cfg.prefixes item.key item.value =
      some { item with count := 1, sharedXattrId := -1 }
  placed : ∀ id item, s.items id = some item → PlacedAt s.shared s.area id item

section Items

variable {cfg : XattrCfg} {s s' : XattrHeap} {items items' : ItemMem}

def SameItems (items items' : ItemMem) : Prop :=
  ∀ id item, items' id = some item → SameItem items id item

theorem SameItem.keyValue {id : ℕ} {item : XattrItem} (h : SameItem items id item) :
    keyValue items id = some (item.key, item.value) := by
  obtain ⟨orig, horig, heq⟩ := h
  rw [ErofsUtils.keyValue, horig, heq]
  rfl

theorem sameItems_dropRefs (items : ItemMem) (f : ℕ → ℕ) : SameItems items (dropRefs items f) := by
  intro id item h
  obtain ⟨orig, horig, -, rfl⟩ := dropRefs_some h
  exact ⟨orig, horig, rfl⟩

theorem tracked_of_sameItems (ht : s.Tracked cfg) (hw : s'.Wf) (hb : s'.Balanced)
    (hitems : SameItems s.items s'.items) (hshared : s'.shared = s.shared)
    (hcounted : ∀ id ∈ s.shared, id ∈ s'.counting) (harea : s'.area = s.area) :
    s'.Tracked cfg := by
  refine ⟨hw, hb, fun id hid => hcounted id (hshared ▸ hid), fun id item hi => ?_,
    fun id item hi => ?_⟩
  · obtain ⟨orig, horig, heq⟩ := hitems id item hi
    rw [heq]
    exact ht.made id orig horig
  · obtain ⟨orig, horig, heq⟩ := hitems id item hi
    rw [heq, hshared, harea]
    exact ht.placed id orig horig

theorem XattrHeap.Balanced.ixattrs_live (hb : s.Balanced) {ino id : ℕ} (h : id ∈ s.ixattrs ino) :
    ∃ item, s.items id = some item := by
  obtain ⟨node, hnode, rfl⟩ := List.mem_map.mp h
  exact hb.node_live (List.mem_map.mpr ⟨node, (List.mem_filter.mp hnode).1, rfl⟩)

theorem xattrsOf_eq (hb' : s'.Balanced) (hitems : SameItems s.items s'.items) (ino : ℕ) :
    s'.xattrsOf ino = (s'.ixattrs ino).filterMap (keyValue s.items) := by
  refine List.filterMap_congr fun id hid => ?_
  obtain ⟨item, hi⟩ := hb'.ixattrs_live hid
  rw [(hitems id item hi).keyValue, keyValue, hi]
  rfl

end Items

section Releases

variable {cfg : XattrCfg} {s : XattrHeap}

theorem ixattrs_filter (nodes : List (ℕ × ℕ)) (ino : ℕ) (p : ℕ × ℕ → Bool) :
    ((nodes.filter p).filter (·.1 = ino)).map Prod.snd =
      ((nodes.filter (·.1 = ino)).map Prod.snd).filter fun id => p (ino, id) := by
  induction nodes with
  | nil => rfl
  | cons node nodes ih =>
      obtain ⟨i, id⟩ := node
      by_cases hi : i = ino
      · subst hi
        cases hp : p (i, id) <;> simp [-List.filter_filter, hp, ih]
      · cases hp : p (i, id) <;> simp [-List.filter_filter, hp, hi, ih]

theorem tracked_release (ht : s.Tracked cfg) {nodes : List (ℕ × ℕ)} {f : ℕ → ℕ}
    (hsub : nodes ⊆ s.nodes)
    (hf : ∀ id, (nodes.map Prod.snd).count id + f id = (s.nodes.map Prod.snd).count id) :
    XattrHeap.Tracked cfg { s with nodes, items := dropRefs s.items f } :=
  tracked_of_sameItems ht (release_wf ht.wf hsub) (release_balanced ht.balanced hf)
    (sameItems_dropRefs s.items f) rfl ht.shared_counted rfl

theorem tracked_remove (ht : s.Tracked cfg) (ino : ℕ) (key : List UInt8) :
    ∃ s', erofsRemovexattr ino key s = some s' ∧ s'.Tracked cfg ∧
      s'.xattrsOf = listStep (.remove ino key) s.xattrsOf := by
  have hcount := fun id => count_filter_not (removes ino key s.items) s.nodes id
  have ht' := tracked_release ht (List.filter_subset_self _) hcount
  refine ⟨_, erofsRemovexattr_eq ht.balanced ino key, ht', ?_⟩
  have hsame := sameItems_dropRefs s.items fun id =>
    ((s.nodes.filter (removes ino key s.items)).map Prod.snd).count id
  funext i
  rw [listStep, Function.update_apply]
  split
  next hi =>
    subst hi
    rw [xattrsOf_eq ht'.balanced hsame, XattrHeap.ixattrs, ixattrs_filter, XattrHeap.xattrsOf,
      List.filterMap_filter, List.filter_filterMap]
    refine List.filterMap_congr fun id hid => ?_
    obtain ⟨item, hitem⟩ := ht.balanced.ixattrs_live hid
    have hrem : removes i key s.items (i, id) = decide (item.key = key) := by
      simp [removes, hitem]
    rw [hrem, keyValue, hitem, Option.map_some, Option.filter_some]
    by_cases hkey : item.key = key
    · simp [hkey]
    · simp [hkey]
  next hi =>
    rw [xattrsOf_eq ht'.balanced hsame, XattrHeap.ixattrs, ixattrs_filter]
    refine congrArg (List.filterMap _) (List.filter_eq_self.mpr fun id _ => ?_)
    simp [removes, hi]

theorem tracked_export (ht : s.Tracked cfg) (ino : ℕ) :
    ∃ s', ((exportXattrs ino s).map fun r => r.2.2) = some s' ∧ s'.Tracked cfg ∧
      s'.xattrsOf = listStep (.exportIbody ino) s.xattrsOf := by
  have ht' := tracked_release ht (List.filter_subset_self _)
    (count_ixattrs ino)
  have hsame := sameItems_dropRefs s.items fun id => (s.ixattrs ino).count id
  refine ⟨_, exportXattrs_step ht.balanced ino, ht', ?_⟩
  funext i
  rw [listStep, Function.update_apply]
  split
  next hi =>
    subst hi
    rw [xattrsOf_eq ht'.balanced hsame, XattrHeap.ixattrs, ixattrs_filter]
    simp
  next hi =>
    rw [xattrsOf_eq ht'.balanced hsame, XattrHeap.ixattrs, ixattrs_filter]
    exact congrArg (List.filterMap _) (List.filter_eq_self.mpr fun id _ => by simpa using hi)

end Releases

section Lookups

variable {cfg : XattrCfg} {s s' t : XattrHeap} {key value : List UInt8} {id : ℕ}

theorem newXattritem_isSome (nodes : List EaTypeNode) (key value : List UInt8) :
    (newXattritem nodes key value).isSome = (erofsXattrPrefixMatches key).isSome := by
  unfold newXattritem
  split
  next h => simp [h]
  next h =>
    split
    · simp [h]
    · simp [h]

theorem PlacedAt.mono {shared shared' : List ℕ} {area : Mem} {item : XattrItem}
    (h : PlacedAt shared area id item) (hsub : ∀ x ∈ shared, x ∈ shared') :
    PlacedAt shared' area id item := fun hid => ⟨hsub id (h hid).1, (h hid).2⟩

/-- A lookup gives an item of its name and value, and leaves the others as they are. -/
theorem tracked_takesRef (ht : s.Tracked cfg) (hlook : LooksUp s key value)
    (hget : getXattritem cfg key value s = some (.ok id, t)) (href : TakesRef t s' id)
    (hcounted : ∀ x ∈ s'.shared, x ∈ s'.counting) (hsub : ∀ x ∈ s.shared, x ∈ s'.shared)
    (harea : s'.area = s.area) :
    s'.Tracked cfg ∧ keyValue s'.items id = some (key, value) ∧
      ∀ x, (s.items x).isSome → keyValue s'.items x = keyValue s.items x := by
  obtain ⟨found, hfound, hfits⟩ := hlook
  obtain ⟨hw', hiff⟩ := takesRef_balanced_iff ht.wf ht.balanced hget href
  have hb' : s'.Balanced := hiff.mpr fun x item hfind => hfits x item (by
    rw [hfound] at hfind
    exact Option.some.inj hfind)
  rcases getXattritem_cases hget with ⟨id', item, hfind, heq⟩ | ⟨-, heq | ⟨item, hnew, heq⟩⟩
  · cases heq
    obtain ⟨hi, hkey, hvalue⟩ := findXattritem_some hfind
    have hitems : s'.items = Function.update s.items id
        (some { item with count := u32 (item.count + 1) }) := href.items
    have hsame : SameItems s.items s'.items := by
      intro x y hy
      rw [hitems] at hy
      by_cases hx : x = id
      · subst hx
        rw [Function.update_self] at hy
        cases hy
        exact ⟨item, hi, rfl⟩
      · rw [Function.update_of_ne hx] at hy
        exact ⟨y, hy, rfl⟩
    have hkv : ∀ x, keyValue s'.items x = keyValue s.items x := by
      intro x
      rw [keyValue, keyValue, hitems]
      by_cases hx : x = id
      · rw [hx, Function.update_self, hi]
        rfl
      · rw [Function.update_of_ne hx]
    refine ⟨⟨hw', hb', hcounted, fun x y hy => ?_, fun x y hy => ?_⟩, ?_, fun x _ => hkv x⟩
    · obtain ⟨orig, horig, hy⟩ := hsame x y hy
      rw [hy]
      exact ht.made x orig horig
    · obtain ⟨orig, horig, hy⟩ := hsame x y hy
      rw [hy, harea]
      exact (ht.placed x orig horig).mono hsub
    · rw [hkv, keyValue, hi, Option.map_some, hkey, hvalue]
  · cases heq
  · cases heq
    obtain ⟨hkey, hvalue, -⟩ := newXattritem_spec hnew
    obtain ⟨hone, hid⟩ := newXattritem_count hnew
    have hitems : s'.items = Function.update s.items s.next (some item) := href.items
    refine ⟨⟨hw', hb', hcounted, fun x y hy => ?_, fun x y hy => ?_⟩, ?_, fun x hx => ?_⟩
    · rw [hitems] at hy
      by_cases hx : x = s.next
      · rw [hx, Function.update_self] at hy
        cases hy
        subst hkey hvalue
        rw [hnew]
        cases item
        cases hone
        cases hid
        rfl
      · rw [Function.update_of_ne hx] at hy
        exact ht.made x y hy
    · rw [hitems] at hy
      by_cases hx : x = s.next
      · rw [hx, Function.update_self] at hy
        cases hy
        intro hneg
        omega
      · rw [Function.update_of_ne hx] at hy
        rw [harea]
        exact (ht.placed x y hy).mono hsub
    · rw [keyValue, hitems, Function.update_self, Option.map_some, hkey, hvalue]
    · rw [keyValue, hitems, Function.update_of_ne (ht.wf.lt_of_live hx).ne, keyValue]

theorem LooksUp.defined (h : LooksUp s key value) :
    ∃ r, getXattritem cfg key value s = some r := by
  obtain ⟨found, hfound, -⟩ := h
  rw [getXattritem, hfound]
  cases found with
  | none =>
      dsimp only
      split
      · exact ⟨_, rfl⟩
      · exact ⟨_, rfl⟩
  | some found => exact ⟨_, rfl⟩

theorem XattrHeap.Tracked.isSome_of_keyValue (ht : s.Tracked cfg)
    (h : keyValue s.items id = some (key, value)) : (erofsXattrPrefixMatches key).isSome := by
  obtain ⟨item, hi, hkv⟩ := Option.map_eq_some_iff.mp h
  obtain ⟨rfl, rfl⟩ := Prod.mk.inj hkv
  rw [← newXattritem_isSome cfg.prefixes item.key item.value, ht.made id item hi]
  rfl

/-- The lists where the nodes of an inode are the same, and hold what was live. -/
theorem xattrsOf_kept (hb : s.Balanced) {ino : ℕ} (hix : s'.ixattrs ino = s.ixattrs ino)
    (hkv : ∀ x, (s.items x).isSome → keyValue s'.items x = keyValue s.items x) :
    s'.xattrsOf ino = s.xattrsOf ino := by
  rw [XattrHeap.xattrsOf, XattrHeap.xattrsOf, hix]
  refine List.filterMap_congr fun x hx => ?_
  obtain ⟨item, hi⟩ := hb.ixattrs_live hx
  exact hkv x (by rw [hi]; rfl)

/-- Setting an xattr puts it in front of the list of its inode. -/
theorem tracked_set (ht : s.Tracked cfg) (ino : ℕ) (hlook : LooksUp s key value) :
    ∃ s', erofsSetxattr cfg ino key value s = some s' ∧ s'.Tracked cfg ∧
      s'.xattrsOf = listStep (.set ino key value) s.xattrsOf := by
  obtain ⟨⟨r, t⟩, hget⟩ := hlook.defined
  have hdef : ∃ s', erofsSetxattr cfg ino key value s = some s' := by
    rw [erofsSetxattr, hget]
    cases r with
    | error err => exact ⟨_, rfl⟩
    | ok id => exact ⟨_, rfl⟩
  obtain ⟨s', hs'⟩ := hdef
  refine ⟨s', hs', ?_⟩
  rcases erofsSetxattr_cases hs' with ⟨rfl, -, hnew⟩ | ⟨id, t', hget', rfl, href⟩
  · have hnone : (erofsXattrPrefixMatches key).isSome = false := by
      rw [← newXattritem_isSome cfg.prefixes key value, hnew]
      rfl
    exact ⟨ht, by rw [listStep, hnone]; rfl⟩
  · have hlists := getXattritem_same hget'
    obtain ⟨ht', hid, hkv⟩ := tracked_takesRef ht hlook hget' href
      (fun x hx => by
        dsimp only at hx ⊢
        rw [hlists.shared] at hx
        rw [hlists.counting]
        exact ht.shared_counted x hx)
      (fun x hx => by
        dsimp only
        rw [hlists.shared]
        exact hx) hlists.area
    refine ⟨ht', ?_⟩
    rw [listStep, if_pos (ht'.isSome_of_keyValue hid)]
    funext i
    have hnodes : t'.nodes = s.nodes := hlists.nodes
    rw [Function.update_apply]
    split
    next hi =>
      subst hi
      have hix : XattrHeap.ixattrs { t' with nodes := (i, id) :: t'.nodes } i =
          id :: s.ixattrs i := by
        rw [XattrHeap.ixattrs, hnodes, XattrHeap.ixattrs]
        simp
      rw [XattrHeap.xattrsOf, hix, List.filterMap_cons_some hid, XattrHeap.xattrsOf]
      refine congrArg _ (List.filterMap_congr fun x hx => ?_)
      obtain ⟨item, hitem⟩ := ht.balanced.ixattrs_live hx
      exact hkv x (by rw [hitem]; rfl)
    next hi =>
      refine xattrsOf_kept ht.balanced ?_ hkv
      rw [XattrHeap.ixattrs, hnodes, XattrHeap.ixattrs,
        List.filter_cons_of_neg (by simpa using Ne.symm hi)]

theorem tracked_count (ht : s.Tracked cfg) (hlook : LooksUp s key value) :
    ∃ s', countXattr cfg key value s = some s' ∧ s'.Tracked cfg ∧
      s'.xattrsOf = listStep (.count key value) s.xattrsOf := by
  obtain ⟨⟨r, t⟩, hget⟩ := hlook.defined
  have hdef : ∃ s', countXattr cfg key value s = some s' := by
    rw [countXattr, hget]
    cases r with
    | error err => exact ⟨_, rfl⟩
    | ok id =>
        dsimp only
        split
        · exact ⟨_, rfl⟩
        · exact ⟨_, rfl⟩
  obtain ⟨s', hs'⟩ := hdef
  refine ⟨s', hs', ?_⟩
  rcases countXattr_cases hs' with
    ⟨rfl, -, -⟩ | ⟨id, t', shared, sharedCount, hget', hsub, hsup, rfl, href⟩
  · exact ⟨ht, rfl⟩
  · have hlists := getXattritem_same hget'
    obtain ⟨ht', -, hkv⟩ := tracked_takesRef ht hlook hget' href
      (fun x hx => by
        rcases hsub x hx with h | h
        · rw [hlists.shared] at h
          dsimp only
          rw [hlists.counting]
          exact List.mem_cons_of_mem id (ht.shared_counted x h)
        · rw [h]
          exact List.mem_cons_self)
      (fun x hx => hsup x (by rw [hlists.shared]; exact hx)) hlists.area
    refine ⟨ht', funext fun i => xattrsOf_kept ht.balanced ?_ hkv⟩
    rw [XattrHeap.ixattrs, hlists.nodes, XattrHeap.ixattrs]

end Lookups

section Cleaning

variable {cfg : XattrCfg} {s : XattrHeap}

/-- Cleaning changes no list while it frees nothing that is held. -/
theorem tracked_clean (ht : s.Tracked cfg) {sharedxattrs : Bool}
    (hlive : ∀ link ∈ s.table, (s.items link.2).isSome)
    (hfree : ∀ x ∈ s.gone sharedxattrs, x ∉ s.nodes.map Prod.snd ∧ x ∉ s.shared) :
    ∃ s', erofsCleanxattrs sharedxattrs s = some s' ∧ s'.Tracked cfg ∧
      s'.xattrsOf = listStep (.clean sharedxattrs) s.xattrsOf := by
  obtain ⟨s', hs'⟩ := erofsCleanxattrs_defined hlive
  have hw' := erofsCleanxattrs_wf ht.wf hs'
  have hb' := erofsCleanxattrs_balanced ht.balanced (fun x hx => (hfree x hx).1) hs'
  refine ⟨s', hs', ?_⟩
  obtain rfl := erofsCleanxattrs_cases hs'
  have hsame : SameItems s.items fun id => if id ∈ s.gone sharedxattrs then none else s.items id := by
    intro x y hy
    dsimp only at hy
    split at hy
    · cases hy
    · exact ⟨y, hy, rfl⟩
  refine ⟨tracked_of_sameItems ht hw' hb' hsame rfl (fun x hx => ?_) rfl,
    funext fun i => xattrsOf_eq hb' hsame i⟩
  refine List.mem_filter.mpr ⟨ht.shared_counted x hx, ?_⟩
  exact decide_eq_true fun hgone => (hfree x hgone).2 hx

end Cleaning

section Sharing

variable {cfg : XattrCfg} {s : XattrHeap} {slot : ℕ}

theorem assignShared_other (ids : List ℕ) : ∀ {p : ℕ} {items items' : ItemMem} {area area' : Mem},
    assignShared slot p ids items area = some (items', area') →
    ∀ x, x ∉ ids → items' x = items x := by
  induction ids with
  | nil =>
      intro p items items' area area' h x _
      cases h
      rfl
  | cons id ids ih =>
      intro p items items' area area' h x hx
      rw [assignShared] at h
      split at h
      · cases h
      next item hi =>
        rw [ih h x (List.not_mem_of_not_mem_cons hx),
          Function.update_of_ne (List.ne_of_not_mem_cons hx)]

theorem assignShared_placed (ids : List ℕ) : ∀ {p : ℕ} {items items' : ItemMem} {area area' : Mem},
    assignShared slot p ids items area = some (items', area') → ids.Nodup → p % 4 = 0 →
    4 * slot + p + (ids.map (entrySpace items)).sum < 2 ^ 32 →
    (∀ k < 4 * slot + p, area' k = area k) ∧
      ∀ id ∈ ids, ∃ item, items' id = some item ∧ ∃ n : ℕ, item.sharedXattrId = n ∧ n < 2 ^ 32 ∧
        Holds area' (4 * n) (erofsWriteXattrEntry item) := by
  induction ids with
  | nil =>
      intro p items items' area area' h hnodup hmod hlt
      cases h
      exact ⟨fun _ _ => rfl, fun _ hid => absurd hid List.not_mem_nil⟩
  | cons id ids ih =>
      intro p items items' area area' h hnodup hmod hlt
      obtain ⟨hnot, hnodup⟩ := List.nodup_cons.mp hnodup
      rw [assignShared] at h
      split at h
      · cases h
      next item hi =>
        have hspace : entrySpace items id = roundUp (4 + item.body) 4 := by
          rw [entrySpace, hi, Option.map_some, Option.getD_some]
        rw [List.map_cons, List.sum_cons, hspace] at hlt
        have hround := roundUp_four_eq (4 + item.body)
        generalize hshared : { item with sharedXattrId := ((4 * slot + p) / 4 : ℕ) } = placed at h
        have hbody : placed.body = item.body := by
          rw [← hshared]
          rfl
        have hid : placed.sharedXattrId = ((4 * slot + p) / 4 : ℕ) := by rw [← hshared]
        have halign : erofsNextXattrAlign p placed = p + roundUp (4 + item.body) 4 := by
          rw [erofsNextXattrAlign, hbody, Nat.add_assoc, roundUp_add (by decide) (Nat.dvd_of_mod_eq_zero hmod),
            u32_of_lt (by omega)]
        have hspaces : ids.map (entrySpace (Function.update items id (some placed))) =
            ids.map (entrySpace items) := by
          refine List.map_congr_left fun x hx => ?_
          rw [entrySpace, Function.update_of_ne (ne_of_mem_of_not_mem hx hnot), entrySpace]
        dsimp only at h
        rw [halign] at h
        obtain ⟨hbelow, hplaced⟩ := ih h hnodup (by omega) (by rw [hspaces]; omega)
        have hwrites := length_erofsWriteXattrEntry placed
        refine ⟨fun k hk => ?_, fun x hx => ?_⟩
        · rw [hbelow k (by omega), store_of_lt _ hk]
        rcases List.mem_cons.mp hx with rfl | hx
        · refine ⟨placed, ?_, _, hid, by omega, ?_⟩
          · rw [assignShared_other ids h x hnot, Function.update_self]
          · have hpos : 4 * ((4 * slot + p) / 4) = 4 * slot + p := by omega
            rw [hpos]
            refine holds_congr (fun k _ hk => hbelow k ?_) (holds_store area (4 * slot + p) _)
            omega
        · exact hplaced x hx

/-- Sharing changes no list, and gives each shared item its place. -/
theorem tracked_share (ht : s.Tracked cfg) (hcond : (XattrOp.share slot).Tracks s) :
    ∃ s', shareXattrs slot s = some s' ∧ s'.Tracked cfg ∧
      s'.xattrsOf = listStep (.share slot) s.xattrsOf := by
  have hlive : ∀ x ∈ s.shared, (s.items x).isSome := fun x hx => by
    have hpos := List.count_pos_iff.mpr (ht.shared_counted x hx)
    refine (ht.balanced.live_iff x).mpr ?_
    rw [XattrHeap.holders]
    omega
  obtain ⟨s', hs'⟩ := (shareXattrs_defined_iff hlive).mpr
    (hcond.imp_right fun h => h.1)
  have hw' := shareXattrs_wf ht.wf hs'
  have hb' := shareXattrs_balanced ht.balanced hs'
  refine ⟨s', hs', ?_⟩
  rcases shareXattrs_cases hs' with ⟨-, rfl⟩ | ⟨hzero, hfits, items', area', heq, rfl⟩
  · exact ⟨ht, rfl⟩
  · have hperm := List.mergeSort_perm s.shared (compSharedXattrItem s.items)
    have hspace : 4 * slot + (s.shared.map (entrySpace s.items)).sum < 2 ^ 32 :=
      (hcond.resolve_left hzero).2
    obtain ⟨-, hplaced⟩ := assignShared_placed _ heq (hperm.nodup_iff.mpr hfits.1) rfl
      (by rw [(hperm.map _).sum_nat]; exact hspace)
    have hall := assignShared_items _ heq
    have hkv : keyValue items' = keyValue s.items := by
      funext x
      rw [keyValue, hall x, Option.map_map]
      rfl
    refine ⟨⟨hw', hb', fun x hx => ht.shared_counted x (hperm.mem_iff.mp hx), fun x y hy => ?_,
      fun x y hy hid => ?_⟩, ?_⟩
    · dsimp only at hy
      rw [hall x] at hy
      obtain ⟨orig, horig, rfl⟩ := Option.map_eq_some_iff.mp hy
      exact ht.made x orig horig
    · by_cases hx : x ∈ s.shared.mergeSort (compSharedXattrItem s.items)
      · obtain ⟨item, hitem, hplace⟩ := hplaced x hx
        dsimp only at hy
        rw [hy] at hitem
        cases hitem
        exact ⟨hx, hplace⟩
      · dsimp only at hy
        rw [assignShared_other _ heq x hx] at hy
        exact absurd (hperm.mem_iff.mpr (ht.placed x y hy hid).1) hx
    · funext i
      rw [XattrHeap.xattrsOf]
      dsimp only
      rw [hkv]
      rfl

end Sharing

end ErofsUtils
