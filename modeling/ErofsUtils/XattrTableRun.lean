import ErofsUtils.XattrTable

/-!
# Runs over the items

Whether the references of the items are kept in a run is decided step by step. The steps that lose
them release the last reference to an item, whose link stays in `ea_hashtable`, or clean an item that
is still held.
-/

namespace ErofsUtils
open ByteMemory

/-- The steps of a run, up to the first one that touches a freed item. -/
def xattrRun (cfg : XattrCfg) (ops : List XattrOp) (s : XattrHeap) : Option XattrHeap :=
  ops.foldlM (fun s op => xattrStep cfg op s) s

/-- The references are right in every state of a run. -/
def TableHolds (cfg : XattrCfg) (area : Mem) (ops : List XattrOp) : Prop :=
  ∀ done, done <+: ops → ∃ s, xattrRun cfg done (.empty area) = some s ∧ s.Sound

section Share

variable {s s' : XattrHeap} {slot : ℕ}

/-- The shared items get their ids, and nothing else of the items changes. -/
theorem assignShared_items (ids : List ℕ) : ∀ {p : ℕ} {items items' : ItemMem} {area area' : Mem},
    assignShared slot p ids items area = some (items', area') →
    ∀ x, items' x = (items x).map fun item => { item with sharedXattrId := sharedIdOf items' x } := by
  induction ids with
  | nil =>
      intro p items items' area area' h x
      cases h
      cases hx : items x with
      | none => rfl
      | some item => simp [sharedIdOf, hx]
  | cons id ids ih =>
      intro p items items' area area' h x
      rw [assignShared] at h
      split at h
      · cases h
      next item hi =>
        rw [ih h x]
        by_cases hxid : x = id
        · rw [hxid, Function.update_self, hi]
          rfl
        · rw [Function.update_of_ne hxid]

theorem assignShared_defined (ids : List ℕ) : ∀ {p : ℕ} {items : ItemMem} {area : Mem},
    (∀ id ∈ ids, (items id).isSome) →
    ∃ items' area', assignShared slot p ids items area = some (items', area') := by
  induction ids with
  | nil =>
      intro p items area _
      exact ⟨items, area, rfl⟩
  | cons id ids ih =>
      intro p items area hlive
      obtain ⟨item, hi⟩ := Option.isSome_iff_exists.mp (hlive id List.mem_cons_self)
      rw [assignShared, hi]
      refine ih fun x hx => ?_
      by_cases hxid : x = id
      · rw [hxid, Function.update_self]
        rfl
      · rw [Function.update_of_ne hxid]
        exact hlive x (List.mem_cons_of_mem id hx)

/-- What `erofs_build_shared_xattrs_from_path` does with the shared list. -/
theorem shareXattrs_cases (h : shareXattrs slot s = some s') :
    s.sharedCount = 0 ∧ s' = s ∨
      s.sharedCount ≠ 0 ∧ (s.shared.Nodup ∧ s.shared.length = s.sharedCount) ∧ ∃ items area,
        assignShared slot 0 (s.shared.mergeSort (compSharedXattrItem s.items)) s.items s.area =
          some (items, area) ∧
        s' = { s with
          items, area, shared := s.shared.mergeSort (compSharedXattrItem s.items) } := by
  rw [shareXattrs] at h
  split at h
  next hzero => exact Or.inl ⟨hzero, (Option.some.inj h).symm⟩
  next hzero =>
    split at h
    · cases h
    next hfits =>
      dsimp only at h
      split at h
      · cases h
      next items area heq =>
        exact Or.inr ⟨hzero, not_not.mp hfits, items, area, heq, (Option.some.inj h).symm⟩

theorem Balanced.congr (hb : s.Balanced) (hitems : ∀ x, (s'.items x).map (·.count) =
      (s.items x).map (·.count)) (hholders : ∀ x, s'.holders x = s.holders x) :
    s'.Balanced := by
  refine ⟨fun x item hx => ?_, fun x => ?_⟩
  · have hmap := hitems x
    rw [hx, Option.map_some] at hmap
    obtain ⟨orig, horig, hcount⟩ := Option.map_eq_some_iff.mp hmap.symm
    rw [hholders, ← hcount]
    exact hb.count_eq x orig horig
  · rw [← Option.isSome_map (f := (·.count)), hitems, Option.isSome_map, hholders]
    exact hb.live_iff x

theorem shareXattrs_wf (hw : s.Wf) (h : shareXattrs slot s = some s') : s'.Wf := by
  rcases shareXattrs_cases h with ⟨-, rfl⟩ | ⟨-, -, items', area', heq, rfl⟩
  · exact hw
  · have hall := assignShared_items _ heq
    have horig : ∀ x item, items' x = some item →
        ∃ orig, s.items x = some orig ∧ orig.count = item.count := fun x item hx => by
      rw [hall x] at hx
      obtain ⟨orig, ho, rfl⟩ := Option.map_eq_some_iff.mp hx
      exact ⟨orig, ho, rfl⟩
    refine ⟨fun x hx => ?_, hw.nodes_lt, hw.counting_lt, hw.table_lt,
      fun x hx => hw.shared_lt x (List.mem_mergeSort.mp hx), fun x item hx => ?_,
      fun x item hx => ?_⟩
    · dsimp only
      rw [hall x, hw.fresh x hx, Option.map_none]
    · obtain ⟨orig, ho, -⟩ := horig x item hx
      exact hw.linked x orig ho
    · obtain ⟨orig, ho, hc⟩ := horig x item hx
      rw [← hc]
      exact hw.count_lt x orig ho

theorem shareXattrs_balanced (hb : s.Balanced) (h : shareXattrs slot s = some s') :
    s'.Balanced := by
  rcases shareXattrs_cases h with ⟨-, rfl⟩ | ⟨-, -, items', area', heq, rfl⟩
  · exact hb
  · refine Balanced.congr hb (fun x => ?_) fun x => rfl
    dsimp only
    rw [assignShared_items _ heq x, Option.map_map]
    rfl

theorem shareXattrs_sound (hs : s.Sound) (h : shareXattrs slot s = some s') : s'.Sound := by
  have hb := shareXattrs_balanced hs.toBalanced h
  rcases shareXattrs_cases h with ⟨-, rfl⟩ | ⟨-, -, items', area', heq, rfl⟩
  · exact hs
  · have hlive : ∀ x, (s.items x).isSome → (items' x).isSome := fun x hx => by
      rw [assignShared_items _ heq x, Option.isSome_map]
      exact hx
    exact { hb with
      linked_live := fun link hlink => hlive _ (hs.linked_live link hlink)
      shared_live := fun x hx => hlive x (hs.shared_live x (List.mem_mergeSort.mp hx)) }

theorem shareXattrs_defined_iff (hlive : ∀ x ∈ s.shared, (s.items x).isSome) :
    (∃ s', shareXattrs slot s = some s') ↔
      s.sharedCount = 0 ∨ s.shared.Nodup ∧ s.shared.length = s.sharedCount := by
  constructor
  · rintro ⟨s', h⟩
    rcases shareXattrs_cases h with ⟨hzero, -⟩ | ⟨-, hfits, -⟩
    · exact Or.inl hzero
    · exact Or.inr hfits
  · intro hcond
    rw [shareXattrs]
    split
    · exact ⟨s, rfl⟩
    next hzero =>
      rw [if_neg (not_not.mpr (hcond.resolve_left hzero))]
      obtain ⟨items', area', heq⟩ := assignShared_defined (p := 0) (s.shared.mergeSort (compSharedXattrItem s.items))
        (fun x hx => hlive x (List.mem_mergeSort.mp hx))
      dsimp only
      rw [heq]
      exact ⟨_, rfl⟩

end Share

section Clean

variable {s s' : XattrHeap} {sharedxattrs : Bool}

theorem mem_gone {link : ℕ × ℕ} (hlink : link ∈ s.table) :
    link.2 ∈ s.gone sharedxattrs ↔ cleanTakes sharedxattrs s.items link = true := by
  constructor
  · intro h
    obtain ⟨link', hlink', heq⟩ := List.mem_map.mp h
    have htakes := (List.mem_filter.mp hlink').2
    rw [cleanTakes, ← heq]
    exact htakes
  · intro h
    exact List.mem_map.mpr ⟨link, List.mem_filter.mpr ⟨hlink, h⟩, rfl⟩

theorem erofsCleanxattrs_cases (h : erofsCleanxattrs sharedxattrs s = some s') :
    s' = { s with
      items := fun id => if id ∈ s.gone sharedxattrs then none else s.items id
      table := s.table.filter fun link => ! cleanTakes sharedxattrs s.items link
      counting := s.counting.filter (· ∉ s.gone sharedxattrs)
      sharedCount := if sharedxattrs then s.sharedCount else 0 } := by
  rw [erofsCleanxattrs] at h
  split at h
  · cases h
  · exact (Option.some.inj h).symm

theorem erofsCleanxattrs_defined (hlive : ∀ link ∈ s.table, (s.items link.2).isSome) :
    ∃ s', erofsCleanxattrs sharedxattrs s = some s' := by
  have hnone : ¬ (s.table.any fun link => (s.items link.2).isNone) = true := by
    rw [List.any_eq_true]
    rintro ⟨link, hlink, hnone⟩
    have hsome := hlive link hlink
    rw [Option.isNone_iff_eq_none.mp hnone] at hsome
    cases hsome
  exact ⟨_, by rw [erofsCleanxattrs, if_neg hnone]⟩

theorem erofsCleanxattrs_wf (hw : s.Wf) (h : erofsCleanxattrs sharedxattrs s = some s') :
    s'.Wf := by
  obtain rfl := erofsCleanxattrs_cases h
  refine ⟨fun x hx => ?_, hw.nodes_lt, fun x hx => hw.counting_lt x (List.mem_filter.mp hx).1,
    fun link hlink => hw.table_lt link (List.mem_filter.mp hlink).1, hw.shared_lt,
    fun x item hx => ?_, fun x item hx => ?_⟩
  · dsimp only
    rw [hw.fresh x hx, ite_self]
  · dsimp only at hx
    split at hx
    · cases hx
    next hgone =>
      obtain ⟨link, hlink, rfl⟩ := List.mem_map.mp (hw.linked x item hx)
      refine List.mem_map.mpr ⟨link, List.mem_filter.mpr ⟨hlink, ?_⟩, rfl⟩
      rw [Bool.not_eq_true', ← Bool.not_eq_true, ← mem_gone hlink]
      exact hgone
  · dsimp only at hx
    split at hx
    · cases hx
    · exact hw.count_lt x item hx

/-- `erofs_cleanxattrs` leaves the items balanced if no node holds what it frees. -/
theorem erofsCleanxattrs_balanced (hb : s.Balanced)
    (hfree : ∀ x ∈ s.gone sharedxattrs, x ∉ s.nodes.map Prod.snd)
    (h : erofsCleanxattrs sharedxattrs s = some s') : s'.Balanced := by
  obtain rfl := erofsCleanxattrs_cases h
  have hcount : ∀ x, x ∉ s.gone sharedxattrs →
      (s.counting.filter (· ∉ s.gone sharedxattrs)).count x + (s.nodes.map Prod.snd).count x =
        s.holders x :=
    fun x hx => congrArg (· + _) (List.count_filter (by simpa using hx))
  refine ⟨fun x item hx => ?_, fun x => ?_⟩
  · dsimp only at hx
    split at hx
    · cases hx
    next hgone =>
      rw [hb.count_eq x item hx]
      exact (hcount x hgone).symm
  · by_cases hgone : x ∈ s.gone sharedxattrs
    · have hnot : x ∉ s.counting.filter (· ∉ s.gone sharedxattrs) := by
        intro h
        simpa [hgone] using (List.mem_filter.mp h).2
      have hzero : (s.counting.filter (· ∉ s.gone sharedxattrs)).count x +
          (s.nodes.map Prod.snd).count x = 0 := by
        rw [List.count_eq_zero_of_not_mem hnot, List.count_eq_zero_of_not_mem (hfree x hgone)]
      refine iff_of_false ?_ (Nat.not_lt.mpr hzero.le)
      dsimp only
      rw [if_pos hgone]
      exact Bool.false_ne_true
    · have hiff := hb.live_iff x
      rw [← hcount x hgone] at hiff
      dsimp only
      rw [if_neg hgone]
      exact hiff

/-- It keeps the references if nothing that it frees is held by a node or shared. -/
theorem erofsCleanxattrs_sound_iff (hs : s.Sound)
    (h : erofsCleanxattrs sharedxattrs s = some s') :
    s'.Sound ↔ ∀ link ∈ s.table, cleanTakes sharedxattrs s.items link = true →
      link.2 ∉ s.nodes.map Prod.snd ∧ link.2 ∉ s.shared := by
  have hcases := erofsCleanxattrs_cases h
  constructor
  · intro hs' link hlink htakes
    have hgone : link.2 ∈ s.gone sharedxattrs := (mem_gone hlink).mpr htakes
    have hnone : s'.items link.2 = none := by
      rw [hcases]
      exact if_pos hgone
    constructor
    · -- a node would hold a freed item
      intro hnode
      obtain ⟨item, hi⟩ := hs'.node_live (by rw [hcases]; exact hnode)
      rw [hnone] at hi
      cases hi
    · intro hshared
      have hsome := hs'.shared_live link.2 (by rw [hcases]; exact hshared)
      rw [hnone] at hsome
      cases hsome
  · intro hkeep
    have hfree : ∀ x, x ∈ s.gone sharedxattrs → x ∉ s.nodes.map Prod.snd ∧ x ∉ s.shared := by
      intro x hx
      obtain ⟨link, hlink, rfl⟩ := List.mem_map.mp hx
      exact hkeep link (List.mem_filter.mp hlink).1 (List.mem_filter.mp hlink).2
    have hb := erofsCleanxattrs_balanced hs.toBalanced (fun x hx => (hfree x hx).1) h
    subst hcases
    refine { hb with linked_live := fun link hlink => ?_, shared_live := fun x hx => ?_ }
    · obtain ⟨hmem, hnot⟩ := List.mem_filter.mp hlink
      have hgone : link.2 ∉ s.gone sharedxattrs := by
        rw [mem_gone hmem, Bool.not_eq_true]
        exact (Bool.not_eq_true' _).mp hnot
      dsimp only
      rw [if_neg hgone]
      exact hs.linked_live link hmem
    · dsimp only
      rw [if_neg fun hgone => (hfree x hgone).2 hx]
      exact hs.shared_live x hx

end Clean

section Steps

variable {cfg : XattrCfg} {s s' : XattrHeap}

def StepExact (r : Option XattrHeap) (keeps : Prop) : Prop :=
  (∀ s', r = some s' → s'.Wf) ∧ ((∃ s', r = some s' ∧ s'.Sound) ↔ keeps)

theorem StepExact.of_defined {r : Option XattrHeap} {keeps : Prop} (hdef : ∃ s', r = some s')
    (hall : ∀ s', r = some s' → s'.Wf ∧ (s'.Sound ↔ keeps)) : StepExact r keeps := by
  refine ⟨fun s' h => (hall s' h).1, ⟨?_, fun hkeeps => ?_⟩⟩
  · rintro ⟨s', h, hsound⟩
    exact (hall s' h).2.mp hsound
  · obtain ⟨s', h⟩ := hdef
    exact ⟨s', h, (hall s' h).2.mpr hkeeps⟩

theorem getXattritem_defined (hlive : ∀ link ∈ s.table, (s.items link.2).isSome)
    (key value : List UInt8) : ∃ r, getXattritem cfg key value s = some r := by
  rw [getXattritem]
  rcases findXattritem_spec
      hlive with hfind | ⟨id, item, hfind, -⟩
  · rw [hfind]
    dsimp only
    split
    · exact ⟨_, rfl⟩
    · exact ⟨_, rfl⟩
  · rw [hfind]
    exact ⟨_, rfl⟩

theorem erofsSetxattr_exact (hw : s.Wf) (hs : s.Sound) (ino : ℕ) (key value : List UInt8) :
    StepExact (erofsSetxattr cfg ino key value s) ((XattrOp.set ino key value).Keeps s) := by
  refine StepExact.of_defined ?_ fun s' h => ?_
  · obtain ⟨⟨r, t⟩, hget⟩ := getXattritem_defined hs.linked_live key value
    rw [erofsSetxattr, hget]
    cases r with
    | error err => exact ⟨_, rfl⟩
    | ok id => exact ⟨_, rfl⟩
  · rcases erofsSetxattr_cases h with ⟨rfl, hfind, -⟩ | ⟨id, t, hget, rfl, ht⟩
    · refine ⟨hw, iff_of_true hs fun id item hid => ?_⟩
      rw [hfind] at hid
      cases hid
    · exact takesRef_sound_iff hw hs hget ht fun x hx =>
        Or.inl ((getXattritem_same hget).shared ▸ hx)

theorem countXattr_exact (hw : s.Wf) (hs : s.Sound) (key value : List UInt8) :
    StepExact (countXattr cfg key value s) ((XattrOp.count key value).Keeps s) := by
  refine StepExact.of_defined ?_ fun s' h => ?_
  · obtain ⟨⟨r, t⟩, hget⟩ := getXattritem_defined hs.linked_live key value
    rw [countXattr, hget]
    cases r with
    | error err => exact ⟨_, rfl⟩
    | ok id =>
        dsimp only
        split
        · exact ⟨_, rfl⟩
        · exact ⟨_, rfl⟩
  · rcases countXattr_cases h with
      ⟨rfl, hfind, -⟩ | ⟨id, t, shared, sharedCount, hget, hsub, -, rfl, ht⟩
    · refine ⟨hw, iff_of_true hs fun id item hid => ?_⟩
      rw [hfind] at hid
      cases hid
    · exact takesRef_sound_iff hw hs hget ht fun x hx =>
        (getXattritem_same hget).shared ▸ hsub x hx

/-- `erofs_export_xattr_ibody` as one release. -/
theorem exportXattrs_step (hb : s.Balanced) (ino : ℕ) :
    ((exportXattrs ino s).map fun r => r.2.2) = some { s with
      nodes := s.nodes.filter (·.1 ≠ ino)
      items := dropRefs s.items fun id => (s.ixattrs ino).count id } := by
  obtain ⟨written, heq, -⟩ := exportXattrs_eq (fun id item hi => hb.count_pos hi)
    (hb.covered fun id => Nat.le.intro ((Nat.add_comm _ _).trans (count_ixattrs (s := s) ino id)))
  rw [heq, Option.map_some]

/-- Every step from a state with the right references keeps them exactly when it meets its
condition. -/
theorem xattrStep_exact (hw : s.Wf) (hs : s.Sound) (op : XattrOp) :
    StepExact (xattrStep cfg op s) (op.Keeps s) := by
  cases op with
  | count key value => exact countXattr_exact hw hs key value
  | share slot =>
      refine ⟨fun s' h => shareXattrs_wf hw h,
        Iff.trans ⟨?_, ?_⟩ (@shareXattrs_defined_iff _ slot hs.shared_live)⟩
      · rintro ⟨s', h, -⟩
        exact ⟨s', h⟩
      · rintro ⟨s', h⟩
        exact ⟨s', h, shareXattrs_sound hs h⟩
  | clean sharedxattrs =>
      exact StepExact.of_defined (erofsCleanxattrs_defined hs.linked_live) fun s' h =>
        ⟨erofsCleanxattrs_wf hw h, erofsCleanxattrs_sound_iff hs h⟩
  | set ino key value => exact erofsSetxattr_exact hw hs ino key value
  | remove ino key =>
      refine StepExact.of_defined ⟨_, erofsRemovexattr_eq hs.toBalanced ino key⟩ fun s' h => ?_
      rw [xattrStep, erofsRemovexattr_eq hs.toBalanced ino key] at h
      cases h
      exact ⟨release_wf hw (List.filter_subset_self _), release_sound_iff hw hs fun id =>
        count_filter_not (removes ino key s.items) s.nodes id⟩
  | exportIbody ino =>
      refine StepExact.of_defined ⟨_, exportXattrs_step hs.toBalanced ino⟩ fun s' h => ?_
      rw [xattrStep, exportXattrs_step hs.toBalanced ino] at h
      cases h
      exact ⟨release_wf hw (List.filter_subset_self _), release_sound_iff hw hs fun id =>
        count_ixattrs ino id⟩

end Steps

section Runs

variable {cfg : XattrCfg} {area : Mem} {ops : List XattrOp}

theorem xattrRun_append (ops : List XattrOp) (op : XattrOp) (s : XattrHeap) :
    xattrRun cfg (ops ++ [op]) s = (xattrRun cfg ops s).bind (xattrStep cfg op) := by
  rw [xattrRun, List.foldlM_append]
  refine congrArg (Option.bind _) (funext fun t => ?_)
  exact Option.bind_fun_some _

/-- A run whose steps all meet their conditions ends in a state with the right references. -/
theorem xattrRun_sound (hkeeps : ∀ done op, done ++ [op] <+: ops →
      ∃ s, xattrRun cfg done (.empty area) = some s ∧ op.Keeps s) :
    ∀ done, done <+: ops →
      ∃ s, xattrRun cfg done (.empty area) = some s ∧ s.Wf ∧ s.Sound := by
  intro done
  induction done using List.reverseRecOn with
  | nil =>
      intro _
      exact ⟨_, rfl, XattrHeap.empty_wf area, XattrHeap.empty_sound area⟩
  | append_singleton done op ih =>
      intro hpre
      obtain ⟨s, hrun, hw, hs⟩ := ih ((List.prefix_append done [op]).trans hpre)
      obtain ⟨s₁, hrun₁, hkeep⟩ := hkeeps done op hpre
      rw [hrun] at hrun₁
      cases hrun₁
      have hexact := @xattrStep_exact cfg _ hw hs op
      obtain ⟨s', hstep, hs'⟩ := hexact.2.mpr hkeep
      exact ⟨s', by rw [xattrRun_append, hrun, Option.bind_some, hstep], hexact.1 s' hstep, hs'⟩

/-- The other way round, each step of a run that keeps the references meets its condition. -/
theorem keeps_of_tableHolds (hholds : TableHolds cfg area ops) : ∀ done, done <+: ops →
    ∃ s, xattrRun cfg done (.empty area) = some s ∧ s.Wf ∧ s.Sound ∧
      ∀ op, done ++ [op] <+: ops → op.Keeps s := by
  have hstep : ∀ done s, xattrRun cfg done (.empty area) = some s → s.Wf → s.Sound →
      ∀ op, done ++ [op] <+: ops → op.Keeps s := by
    intro done s hrun hw hs op hpre
    obtain ⟨s', hrun', hs'⟩ := hholds (done ++ [op]) hpre
    rw [xattrRun_append, hrun, Option.bind_some] at hrun'
    exact (xattrStep_exact hw hs op).2.mp ⟨s', hrun', hs'⟩
  intro done
  induction done using List.reverseRecOn with
  | nil =>
      intro _
      exact ⟨_, rfl, XattrHeap.empty_wf area, XattrHeap.empty_sound area,
        hstep [] _ rfl (XattrHeap.empty_wf area) (XattrHeap.empty_sound area)⟩
  | append_singleton done op ih =>
      intro hpre
      obtain ⟨s, hrun, hw, hs, hkeep⟩ := ih ((List.prefix_append done [op]).trans hpre)
      have hexact := @xattrStep_exact cfg _ hw hs op
      obtain ⟨s', heq, hs'⟩ := hexact.2.mpr (hkeep op hpre)
      have hrun' : xattrRun cfg (done ++ [op]) (.empty area) = some s' := by
        rw [xattrRun_append, hrun, Option.bind_some, heq]
      exact ⟨s', hrun', hexact.1 s' heq, hs', hstep _ s' hrun' (hexact.1 s' heq) hs'⟩

/-- Over a run from no xattr, every linked or shared item lives, counts its holders and lives just as
long as it has one, if and only if no step frees an item otherwise: a removal or an export is never
the last holder of an item, and cleaning takes none that a node or the shared list holds. -/
theorem xattrTable_invariant_iff (cfg : XattrCfg) (area : Mem) (ops : List XattrOp) :
    TableHolds cfg area ops ↔
      ∀ done op, done ++ [op] <+: ops →
        ∃ s, xattrRun cfg done (.empty area) = some s ∧ op.Keeps s := by
  constructor
  · intro hholds done op hpre
    obtain ⟨s, hrun, -, -, hkeep⟩ :=
      keeps_of_tableHolds hholds done ((List.prefix_append done [op]).trans hpre)
    exact ⟨s, hrun, hkeep op hpre⟩
  · intro hkeeps done hpre
    obtain ⟨s, hrun, -, hs⟩ := xattrRun_sound hkeeps done hpre
    exact ⟨s, hrun, hs⟩

def plainXattrCfg : XattrCfg where
  prefixes := []
  inlineXattrTolerance := 2
  numbered := ⟨Nat.zero_le _, fun _ _ h => by cases h⟩

/-- An inode gets an xattr and is exported: its item is freed and stays in the table, where the
lookup for the next inode touches it. -/
theorem exported_item_linked :
    ¬ TableHolds plainXattrCfg (fun _ => 0)
        [.set 0 (xattrUserPrefix ++ [97]) [49], .exportIbody 0] ∧
      xattrRun plainXattrCfg [.set 0 (xattrUserPrefix ++ [97]) [49], .exportIbody 0,
        .set 1 (xattrUserPrefix ++ [97]) [49]] (.empty fun _ => 0) = none := by
  refine ⟨fun hholds => ?_, by decide +kernel⟩
  obtain ⟨s, hrun, hs⟩ := hholds _ (List.prefix_rfl)
  have hfreed : ((xattrRun plainXattrCfg [.set 0 (xattrUserPrefix ++ [97]) [49], .exportIbody 0]
      (.empty fun _ => 0)).any fun s => s.table.any fun link => (s.items link.2).isNone) = true := by
    decide +kernel
  rw [hrun, Option.any_some, List.any_eq_true] at hfreed
  obtain ⟨link, hlink, hnone⟩ := hfreed
  have hlive := hs.linked_live link hlink
  rw [Option.isNone_iff_eq_none.mp hnone] at hlive
  cases hlive

end Runs

end ErofsUtils
