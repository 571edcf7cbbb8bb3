import ErofsUtils.TarRemove

/-!
# Dropping an entry

`tarerofs_remove_inode` with the reference that the dentry held: below a directory every dentry is
dropped in turn, and the directory is freed with its last reference.
-/

namespace ErofsUtils

namespace TreeHeap

/-- The body of the loop in `tarerofs_remove_inode`. -/
def dropEntry (fuel : ℕ) (t : TreeHeap) (d : ℕ) : TreeHeap :=
  let child := (t.dentry d).inode
  let t := if isDotDotdot (t.dentry d).name then t else tarerofsRemoveInode fuel t child
  (t.erofsIput child).setDentryInode d 0

theorem tarerofsRemoveInode_succ (fuel : ℕ) (t : TreeHeap) (i : ℕ) :
    tarerofsRemoveInode (fuel + 1) t i =
      if ((t.decNlink i).inode i).mode ≠ .dir then t.decNlink i
      else
        let t' := ((t.decNlink i).subdirs i).foldl (dropEntry fuel) (t.decNlink i)
        t'.decNlink (t'.inode i).iParent := rfl

theorem setInode_setInode (t : TreeHeap) (i : ℕ) (v w : TreeInode) :
    (t.setInode i v).setInode i w = t.setInode i w := by
  simp [setInode]

theorem setDentryInode_dentry (t : TreeHeap) (e x f : ℕ) :
    (t.setDentryInode e x).dentry f =
      if f = e then { t.dentry e with inode := x } else t.dentry f :=
  setDentry_dentry _ _ _ f

@[simp] theorem setDentryInode_inode (t : TreeHeap) (e x : ℕ) :
    (t.setDentryInode e x).inode = t.inode := rfl
@[simp] theorem setDentryInode_subdirs (t : TreeHeap) (e x i : ℕ) :
    (t.setDentryInode e x).subdirs i = t.subdirs i := rfl

/-- The dentries of `j` are gone, and no dentry refers to it. -/
def Freed (t : TreeHeap) (j : ℕ) : Prop :=
  t.subdirs j = [] ∧ j ≠ 0 ∧ ∀ l f, f ∈ t.subdirs l → (t.dentry f).inode ≠ j

/-- What dropping the entry `e` of `k` does: a directory is freed or left alone. -/
structure Dropped (t t' : TreeHeap) (root : ℕ) (depth : ℕ → ℕ) (k e : ℕ) : Prop where
  sound : t'.Sound root depth
  zero : (t'.dentry e).inode = 0
  here : t'.subdirs k = t.subdirs k
  frame : ∀ j, t'.Freed j ∨ t'.subdirs j = t.subdirs j ∧
    ∀ f ∈ t.subdirs j, f ≠ e → t'.dentry f = t.dentry f
  mode : ∀ j, (t'.inode j).mode = (t.inode j).mode
  parent : ∀ j, (t'.inode j).iParent = (t.inode j).iParent
  nextInode : t'.nextInode = t.nextInode
  nextDentry : t'.nextDentry = t.nextDentry
  names : ∀ f, (t'.dentry f).name = (t.dentry f).name ∧ (t'.dentry f).type = (t.dentry f).type

structure DroppedAll (t t' : TreeHeap) (root : ℕ) (depth : ℕ → ℕ) (i : ℕ) (l : List ℕ) : Prop where
  sound : t'.Sound root depth
  zero : ∀ f ∈ l, (t'.dentry f).inode = 0
  here : t'.subdirs i = t.subdirs i
  keep : ∀ f ∈ t.subdirs i, f ∉ l → t'.dentry f = t.dentry f
  frame : ∀ j, j ≠ i → t'.Freed j ∨ t'.subdirs j = t.subdirs j ∧
    ∀ f ∈ t.subdirs j, t'.dentry f = t.dentry f
  mode : ∀ j, (t'.inode j).mode = (t.inode j).mode
  parent : ∀ j, (t'.inode j).iParent = (t.inode j).iParent
  nextInode : t'.nextInode = t.nextInode
  nextDentry : t'.nextDentry = t.nextDentry
  names : ∀ f, (t'.dentry f).name = (t.dentry f).name ∧ (t'.dentry f).type = (t.dentry f).type

def FullBelow (t : TreeHeap) (depth : ℕ → ℕ) (k : ℕ) : Prop :=
  ∀ j, depth k < depth j → ∀ f ∈ t.subdirs j, (t.dentry f).inode ≠ 0

/-- Dropping entries does not refer to a freed directory again. -/
theorem DroppedAll.freed {t t' : TreeHeap} {root : ℕ} {depth : ℕ → ℕ} {i : ℕ} {l : List ℕ}
    (h : DroppedAll t t' root depth i l) {j : ℕ} (hj : t.Freed j) : t'.Freed j := by
  obtain ⟨hnil, h0, hno⟩ := hj
  refine ⟨?_, h0, ?_⟩
  · by_cases hji : j = i
    · rw [hji, h.here, ← hji]
      exact hnil
    · rcases h.frame j hji with hf | ⟨hs, -⟩
      · exact hf.1
      · exact hs.trans hnil
  · intro k f hf
    by_cases hki : k = i
    · rw [hki, h.here] at hf
      by_cases hfl : f ∈ l
      · rw [h.zero f hfl]
        exact h0.symm
      · rw [h.keep f hf hfl]
        exact hno i f hf
    · rcases h.frame k hki with hk | ⟨hs, hd⟩
      · rw [hk.1] at hf
        exact absurd hf List.not_mem_nil
      · rw [hs] at hf
        rw [hd f hf]
        exact hno k f hf

section Loop

variable {root : ℕ} {depth : ℕ → ℕ} {i n : ℕ}

theorem droppedAll_foldl
    (ih : ∀ (t : TreeHeap) (e : ℕ), t.Sound root depth → e ∈ t.subdirs i →
      (t.dentry e).inode ≠ 0 → t.nextInode ≤ depth i + n → t.FullBelow depth i →
        Dropped t (dropEntry n t e) root depth i e)
    (l : List ℕ) (t : TreeHeap) (h : t.Sound root depth) (hl : l.Nodup)
    (hmem : ∀ f ∈ l, f ∈ t.subdirs i ∧ (t.dentry f).inode ≠ 0)
    (hfuel : t.nextInode ≤ depth i + n) (hfull : t.FullBelow depth i) :
    DroppedAll t (l.foldl (dropEntry n) t) root depth i l := by
  induction l generalizing t with
  | nil =>
    exact ⟨h, fun f hf => absurd hf List.not_mem_nil, rfl, fun _ _ _ => rfl,
      fun _ _ => .inr ⟨rfl, fun _ _ => rfl⟩, fun _ => rfl, fun _ => rfl, rfl, rfl,
      fun _ => ⟨rfl, rfl⟩⟩
  | cons e l ihl =>
    obtain ⟨hel, hl⟩ := List.nodup_cons.1 hl
    obtain ⟨he, h0⟩ := hmem e List.mem_cons_self
    have hd := ih t e h he h0 hfuel hfull
    have hsame : ∀ f ∈ t.subdirs i, f ≠ e → (dropEntry n t e).dentry f = t.dentry f := by
      rcases hd.frame i with hfree | ⟨-, hsame⟩
      · have hnil := hd.here.symm.trans hfree.1
        exact absurd hnil (List.ne_nil_of_mem he)
      · exact hsame
    have hmem' : ∀ f ∈ l, f ∈ (dropEntry n t e).subdirs i ∧
        ((dropEntry n t e).dentry f).inode ≠ 0 := by
      intro f hf
      obtain ⟨hfi, hf0⟩ := hmem f (List.mem_cons_of_mem _ hf)
      have hfe : f ≠ e := fun hfe => hel (hfe ▸ hf)
      rw [hd.here, hsame f hfi hfe]
      exact ⟨hfi, hf0⟩
    have hfull' : (dropEntry n t e).FullBelow depth i := by
      intro j hj f hf
      rcases hd.frame j with hfree | ⟨hs, hkeep⟩
      · rw [hfree.1] at hf
        exact absurd hf List.not_mem_nil
      · rw [hs] at hf
        have hfe : f ≠ e := by
          rintro rfl
          rw [h.home j i f hf he] at hj
          exact lt_irrefl _ hj
        rw [hkeep f hf hfe]
        exact hfull j hj f hf
    have hrest := ihl (dropEntry n t e) hd.sound hl hmem' (by rw [hd.nextInode]; exact hfuel) hfull'
    rw [List.foldl_cons]
    constructor
    case sound => exact hrest.sound
    case zero =>
      intro f hf
      rcases List.mem_cons.1 hf with rfl | hf
      · rw [hrest.keep f (by rw [hd.here]; exact he) hel]
        exact hd.zero
      · exact hrest.zero f hf
    case here => exact hrest.here.trans hd.here
    case keep =>
      intro f hf hfl
      have hfe : f ≠ e := fun hfe => hfl (hfe ▸ List.mem_cons_self)
      have hfl' : f ∉ l := fun hfl' => hfl (List.mem_cons_of_mem _ hfl')
      rw [hrest.keep f (by rw [hd.here]; exact hf) hfl', hsame f hf hfe]
    case frame =>
      intro j hj
      rcases hrest.frame j hj with hfree | ⟨hs, hkeep⟩
      · exact .inl hfree
      · rcases hd.frame j with hfree | ⟨hs', hkeep'⟩
        · exact .inl (hrest.freed hfree)
        · refine .inr ⟨hs.trans hs', fun f hf => ?_⟩
          have hfe : f ≠ e := by
            rintro rfl
            exact hj (h.home j i f hf he)
          rw [hkeep f (by rw [hs']; exact hf), hkeep' f hf hfe]
    case mode => exact fun j => (hrest.mode j).trans (hd.mode j)
    case parent => exact fun j => (hrest.parent j).trans (hd.parent j)
    case nextInode => exact hrest.nextInode.trans hd.nextInode
    case nextDentry => exact hrest.nextDentry.trans hd.nextDentry
    case names =>
      exact fun f => ⟨(hrest.names f).1.trans (hd.names f).1, (hrest.names f).2.trans (hd.names f).2⟩

end Loop

section Drop

variable {t : TreeHeap} {root : ℕ} {depth : ℕ → ℕ} {k e : ℕ}

theorem setInode_iSubdirs {i : ℕ} {v : TreeInode} (hs : v.iSubdirs = t.subdirs i) (j : ℕ) :
    (t.setInode i v).subdirs j = t.subdirs j := by
  unfold subdirs
  rw [setInode_inode]
  split
  · next hj => rw [hs, hj, subdirs]
  · rfl

theorem dropped_unlink {v : TreeInode} (hsound : ((t.setInode (t.dentry e).inode v).setDentryInode
      e 0).Sound root depth)
    (hmode : v.mode = (t.inode (t.dentry e).inode).mode)
    (hparent : v.iParent = (t.inode (t.dentry e).inode).iParent)
    (hsub : v.iSubdirs = t.subdirs (t.dentry e).inode) :
    Dropped t ((t.setInode (t.dentry e).inode v).setDentryInode e 0) root depth k e where
  sound := hsound
  zero := by rw [setDentryInode_dentry, if_pos rfl]
  here := setInode_iSubdirs hsub k
  frame j := by
    refine .inr ⟨setInode_iSubdirs hsub j, fun f _ hfe => ?_⟩
    rw [setDentryInode_dentry, if_neg hfe]
    rfl
  mode j := by
    rw [setDentryInode_inode, setInode_inode]
    split
    · next hj => rw [hmode, hj]
    · rfl
  parent j := by
    rw [setDentryInode_inode, setInode_inode]
    split
    · next hj => rw [hparent, hj]
    · rfl
  nextInode := rfl
  nextDentry := rfl
  names f := by
    rw [setDentryInode_dentry]
    split
    · next hf => rw [hf]; exact ⟨rfl, rfl⟩
    · exact ⟨rfl, rfl⟩

theorem Sound.subdirs_nil (h : t.Sound root depth) {i : ℕ} (hm : (t.inode i).mode ≠ .dir) :
    t.subdirs i = [] := by
  by_contra hne
  exact hm (h.held i hne).1

theorem dropEntry_dot (h : t.Sound root depth) (he : e ∈ t.subdirs k)
    (h0 : (t.dentry e).inode ≠ 0) (hdot : isDotDotdot (t.dentry e).name) (n : ℕ) :
    Dropped t (dropEntry n t e) root depth k e := by
  have hcount := h.dot_count he h0 hdot
  have hok := h.entry k e he h0
  have hdir : (t.inode (t.dentry e).inode).mode = .dir := hok.type.symm.trans (hok.dots hdot)
  have hdrop : dropEntry n t e = (t.setInode (t.dentry e).inode
      { t.inode (t.dentry e).inode with
        count := (t.inode (t.dentry e).inode).count - 1 }).setDentryInode e 0 := by
    unfold dropEntry erofsIput
    simp only [if_pos hdot]
    rw [if_pos (by omega)]
  rw [hdrop]
  apply dropped_unlink
  · apply h.unlink he h0
    · rfl
    · rfl
    · change (((t.inode (t.dentry e).inode).count - 1 : ℕ) : ℤ) = _
      omega
    · exact fun hm => absurd hdir hm
    · exact .inl rfl
    · exact fun hn => absurd hdot hn
  · rfl
  · rfl
  · rfl

theorem dropEntry_file (h : t.Sound root depth) (he : e ∈ t.subdirs k)
    (h0 : (t.dentry e).inode ≠ 0) (hn : ¬isDotDotdot (t.dentry e).name)
    (hm : (t.inode (t.dentry e).inode).mode ≠ .dir) (n : ℕ) :
    Dropped t (dropEntry (n + 1) t e) root depth k e := by
  have hb := h.bound k e he
  have hok := h.entry k e he h0
  have hnil := h.subdirs_nil hm
  have hpos := links_pos hb.1 he
  have hcount := h.counted _ (Nat.pos_of_ne_zero h0) hb.2
  have hroot : (t.dentry e).inode ≠ root := h.ne_root he h0 hn
  rw [if_neg hroot] at hcount
  have hdrop : dropEntry (n + 1) t e = (t.setInode (t.dentry e).inode
      { t.inode (t.dentry e).inode with
        nlink := (t.inode (t.dentry e).inode).nlink - 1
        count := (t.inode (t.dentry e).inode).count - 1 }).setDentryInode e 0 := by
    have hmode : ((t.decNlink (t.dentry e).inode).inode (t.dentry e).inode).mode ≠ .dir := by
      unfold decNlink
      rw [setInode_inode, if_pos rfl]
      exact hm
    unfold dropEntry
    simp only [if_neg hn]
    rw [tarerofsRemoveInode_succ, if_pos hmode]
    unfold erofsIput decNlink
    simp only [setInode_inode, if_true, setInode_setInode]
    split
    · rfl
    · next hlt =>
      have hone : (t.inode (t.dentry e).inode).count - 1 = 0 := by omega
      rw [hone]
      have hs : (t.inode (t.dentry e).inode).iSubdirs = [] := hnil
      rw [hs]
  rw [hdrop]
  apply dropped_unlink
  · apply h.unlink he h0
    · rfl
    · rfl
    · change (((t.inode (t.dentry e).inode).count - 1 : ℕ) : ℤ) = _
      omega
    · exact fun _ => rfl
    · exact .inl rfl
    · exact fun _ _ => hnil
  · rfl
  · rfl
  · rfl

theorem Sound.decNlink (h : t.Sound root depth) {i : ℕ} (hm : (t.inode i).mode = .dir) :
    (t.decNlink i).Sound root depth :=
  h.setInode rfl rfl rfl rfl (fun hno => absurd hm hno)

@[simp] theorem decNlink_subdirs (i j : ℕ) : (t.decNlink i).subdirs j = t.subdirs j :=
  @setInode_iSubdirs t i { t.inode i with nlink := (t.inode i).nlink - 1 } rfl j
@[simp] theorem decNlink_dentry (i : ℕ) : (t.decNlink i).dentry = t.dentry := rfl

theorem decNlink_mode (i j : ℕ) : ((t.decNlink i).inode j).mode = (t.inode j).mode := by
  unfold TreeHeap.decNlink
  rw [setInode_inode]
  split
  · next hj => rw [hj]
  · rfl

theorem decNlink_iParent (i j : ℕ) : ((t.decNlink i).inode j).iParent = (t.inode j).iParent := by
  unfold TreeHeap.decNlink
  rw [setInode_inode]
  split
  · next hj => rw [hj]
  · rfl

/-! ### A directory that is freed with its entry -/

/-- What the last reference of the directory `i` and the end of the loop in
`tarerofs_remove_inode` leave of it and of its entry `e`. -/
def freeDir (t : TreeHeap) (i e : ℕ) : TreeHeap :=
  (t.setInode i { t.inode i with count := 0, iSubdirs := [] }).setDentryInode e 0

theorem freeDir_inode (i e j : ℕ) : (t.freeDir i e).inode j =
    if j = i then { t.inode i with count := 0, iSubdirs := [] } else t.inode j :=
  setInode_inode _ _ _ j

theorem freeDir_dentry (i e f : ℕ) :
    (t.freeDir i e).dentry f = if f = e then { t.dentry e with inode := 0 } else t.dentry f :=
  setDentryInode_dentry _ _ _ f

theorem freeDir_subdirs_self (i e : ℕ) : (t.freeDir i e).subdirs i = [] := by
  unfold subdirs
  rw [freeDir_inode, if_pos rfl]

theorem freeDir_subdirs {i j : ℕ} (hj : j ≠ i) (e : ℕ) :
    (t.freeDir i e).subdirs j = t.subdirs j := by
  unfold subdirs
  rw [freeDir_inode, if_neg hj]

theorem freeDir_mode (i e j : ℕ) : ((t.freeDir i e).inode j).mode = (t.inode j).mode := by
  rw [freeDir_inode]
  split
  · next hj => rw [hj]
  · rfl

theorem freeDir_iParent (i e j : ℕ) :
    ((t.freeDir i e).inode j).iParent = (t.inode j).iParent := by
  rw [freeDir_inode]
  split
  · next hj => rw [hj]
  · rfl

theorem freeDir_names (i e f : ℕ) : ((t.freeDir i e).dentry f).name = (t.dentry f).name ∧
    ((t.freeDir i e).dentry f).type = (t.dentry f).type := by
  rw [freeDir_dentry]
  split
  · next hf => rw [hf]; exact ⟨rfl, rfl⟩
  · exact ⟨rfl, rfl⟩

theorem Freed.freeDir {i j : ℕ} (h : t.Freed j) (hji : j ≠ i) (e : ℕ) :
    (t.freeDir i e).Freed j := by
  refine ⟨(freeDir_subdirs hji e).trans h.1, h.2.1, fun l f hf hfj => ?_⟩
  rw [freeDir_dentry] at hfj
  split at hfj
  · exact h.2.1 hfj.symm
  · have hli : l ≠ i := by
      rintro rfl
      rw [freeDir_subdirs_self] at hf
      exact absurd hf List.not_mem_nil
    rw [freeDir_subdirs hli] at hf
    exact h.2.2 l f hf hfj

section Emptied

variable {i : ℕ} (h : t.Sound root depth) (he : e ∈ t.subdirs k) (hi : (t.dentry e).inode = i)
  (h0 : i ≠ 0) (hn : ¬isDotDotdot (t.dentry e).name) (hm : (t.inode i).mode = .dir)
  (hz : ∀ f ∈ t.subdirs i, (t.dentry f).inode = 0)

include h he hi h0 hn hm hz

/-- The only reference to a directory whose dentries are gone is its entry. -/
theorem Sound.emptied_links : t.links i = 1 := by
  have hb := h.bound k e he
  have hroot : i ≠ root := by
    rw [← hi]
    exact h.ne_root he (by rw [hi]; exact h0) hn
  have hok := h.entry k e he (by rw [hi]; exact h0)
  have hty : (t.dentry e).type = .dir := by rw [hok.type, hi, hm]
  apply links_one hb.1 he (h.nodup k) hi
  intro j f hf hfi
  have hf0 : (t.dentry f).inode ≠ 0 := by rw [hfi]; exact h0
  have hokf := h.entry j f hf hf0
  by_cases hdot : isDotDotdot (t.dentry f).name
  · exfalso
    rcases hdot with hdot | hdot
    · have hji := (hokf.dot hdot).symm.trans hfi
      rw [hji] at hf
      exact hf0 (hz f hf)
    · have hup := (hokf.dotdot hdot).symm.trans hfi
      have hdirj := h.isDir hf
      by_cases hjr : j = root
      · rw [hjr, h.root_up] at hup
        exact hroot hup.symm
      · obtain ⟨g, hg, hgj, -⟩ := h.parent hdirj hjr
        rw [hup] at hg
        have := hz g hg
        have hpos := hdirj.2.1
        omega
  · have htyf : (t.dentry f).type = .dir := by rw [hokf.type, hfi, hm]
    have h1 := (hok.up hn hty).1
    have h2 := (hokf.up hdot htyf).1
    rw [hi] at h1
    rw [hfi] at h2
    have hjk : j = k := h2.symm.trans h1
    subst hjk
    exact ⟨(h.single j e f he hf (by rw [hi]; exact h0) (hi.trans hfi.symm) hty hn hdot).symm, rfl⟩

theorem Sound.emptied_count : (t.inode i).count = 1 := by
  have hroot : i ≠ root := by
    rw [← hi]
    exact h.ne_root he (by rw [hi]; exact h0) hn
  have hlt := (h.bound k e he).2
  rw [hi] at hlt
  have hcount := h.counted i (Nat.pos_of_ne_zero h0) hlt
  rw [h.emptied_links he hi h0 hn hm hz, if_neg hroot] at hcount
  omega

theorem Sound.iput_emptied : (t.erofsIput i).setDentryInode e 0 = t.freeDir i e := by
  unfold erofsIput
  rw [if_neg (by rw [h.emptied_count he hi h0 hn hm hz]; omega)]
  rfl

theorem Sound.freeDir : (t.freeDir i e).Sound root depth := by
  have hcount := h.emptied_count he hi h0 hn hm hz
  have hunlink := h.unlink (v := { t.inode i with count := 0, iSubdirs := [] }) he
    (by rw [hi]; exact h0) (by rw [hi]) (by rw [hi])
    (by rw [hi]; change ((0 : ℕ) : ℤ) = _; omega)
    (by rw [hi]; exact fun hno => absurd hm hno) (by rw [hi]; exact .inr ⟨rfl, hz⟩) (fun _ _ => rfl)
  rw [hi] at hunlink
  exact hunlink

/-- No dentry is left that refers to the directory. -/
theorem Sound.freeDir_freed : (t.freeDir i e).Freed i := by
  have hfinal := h.freeDir he hi h0 hn hm hz
  refine ⟨freeDir_subdirs_self i e, h0, fun l f hf hfi => ?_⟩
  have hroot : i ≠ root := by
    rw [← hi]
    exact h.ne_root he (by rw [hi]; exact h0) hn
  have hpos := links_pos (hfinal.bound l f hf).1 hf
  have hlt := (h.bound k e he).2
  rw [hi] at hlt
  have hcount := hfinal.counted i (Nat.pos_of_ne_zero h0) hlt
  rw [hfi] at hpos
  rw [freeDir_inode, if_pos rfl, if_neg hroot] at hcount
  change ((0 : ℕ) : ℤ) = _ at hcount
  omega

end Emptied

/-- The directory that holds the entry of `i` is not freed by the loop, since `i` is held by it. -/
theorem DroppedAll.parent_kept {i n : ℕ}
    (hloop : DroppedAll t ((t.subdirs i).foldl (dropEntry n) t) root depth i (t.subdirs i))
    (hik : k ≠ i) (hroot : i ≠ root) (hup : (t.inode i).iParent = k) :
    ((t.subdirs i).foldl (dropEntry n) t).subdirs k = t.subdirs k ∧
      ∀ f ∈ t.subdirs k, ((t.subdirs i).foldl (dropEntry n) t).dentry f = t.dentry f := by
  by_cases hnil : t.subdirs i = []
  · rw [hnil, List.foldl_nil]
    exact ⟨rfl, fun _ _ => rfl⟩
  rcases hloop.frame k hik with ⟨hk, -⟩ | hkept
  · have hne := hnil
    rw [← hloop.here] at hne
    obtain ⟨g, hg, -⟩ := hloop.sound.parent (hloop.sound.held i hne) hroot
    rw [hloop.parent, hup, hk] at hg
    exact absurd hg List.not_mem_nil
  · exact hkept

theorem dropEntry_succ {n : ℕ} (hn : ¬isDotDotdot (t.dentry e).name)
    (hm : (t.inode (t.dentry e).inode).mode = .dir) {u : TreeHeap}
    (hu : u = ((t.decNlink (t.dentry e).inode).subdirs (t.dentry e).inode).foldl (dropEntry n)
      (t.decNlink (t.dentry e).inode))
    (hk : (u.inode (t.dentry e).inode).iParent = k) :
    dropEntry (n + 1) t e =
      ((u.decNlink k).erofsIput (t.dentry e).inode).setDentryInode e 0 := by
  unfold dropEntry
  simp only [if_neg hn]
  rw [tarerofsRemoveInode_succ, if_neg (by rw [decNlink_mode, hm]; simp)]
  simp only
  rw [← hu, hk]

theorem dropEntry_dir (h : t.Sound root depth) (he : e ∈ t.subdirs k)
    (h0 : (t.dentry e).inode ≠ 0) (hn : ¬isDotDotdot (t.dentry e).name)
    (hm : (t.inode (t.dentry e).inode).mode = .dir) {n : ℕ}
    (hloop : DroppedAll (t.decNlink (t.dentry e).inode)
      (((t.decNlink (t.dentry e).inode).subdirs (t.dentry e).inode).foldl (dropEntry n)
        (t.decNlink (t.dentry e).inode)) root depth (t.dentry e).inode
      ((t.decNlink (t.dentry e).inode).subdirs (t.dentry e).inode)) :
    Dropped t (dropEntry (n + 1) t e) root depth k e := by
  have hok := h.entry k e he h0
  obtain ⟨hup, hdepth⟩ := hok.up hn (hok.type.trans hm)
  have hroot := h.ne_root he h0 hn
  have hik : k ≠ (t.dentry e).inode := by
    intro hki
    rw [← hki] at hdepth
    omega
  obtain ⟨hks, hkd⟩ := hloop.parent_kept hik hroot ((decNlink_iParent _ _).trans hup)
  have hdrop := dropEntry_succ (k := k) hn hm rfl (by rw [hloop.parent, decNlink_iParent, hup])
  generalize hi : (t.dentry e).inode = i at *
  generalize ((t.decNlink i).subdirs i).foldl (dropEntry n) (t.decNlink i) = u at *
  rw [decNlink_subdirs] at hks hkd
  have heu : e ∈ u.subdirs k := by
    rw [hks]
    exact he
  have hsound := hloop.sound.decNlink (hloop.sound.isDir heu).1
  -- the directory `i` after the loop, and after its parent has lost a link
  have hiu : ((u.decNlink k).dentry e).inode = i := by
    rw [decNlink_dentry, hkd e he]
    exact hi
  have hnu : ¬isDotDotdot ((u.decNlink k).dentry e).name := by
    rw [decNlink_dentry, hkd e he]
    exact hn
  have hmode : ∀ j, ((u.decNlink k).inode j).mode = (t.inode j).mode := by
    intro j
    rw [decNlink_mode, hloop.mode, decNlink_mode]
  have hmu := (hmode i).trans hm
  have hz : ∀ f ∈ (u.decNlink k).subdirs i, ((u.decNlink k).dentry f).inode = 0 := by
    intro f hf
    rw [decNlink_subdirs, hloop.here] at hf
    exact hloop.zero f hf
  have heu' : e ∈ (u.decNlink k).subdirs k := by
    rw [decNlink_subdirs]
    exact heu
  rw [hdrop, hsound.iput_emptied heu' hiu h0 hnu hmu hz]
  constructor
  case sound => exact hsound.freeDir heu' hiu h0 hnu hmu hz
  case zero => rw [freeDir_dentry, if_pos rfl]
  case here => rw [freeDir_subdirs hik, decNlink_subdirs, hks]
  case frame =>
    intro j
    by_cases hj : j = i
    · rw [hj]
      exact .inl (hsound.freeDir_freed heu' hiu h0 hnu hmu hz)
    rcases hloop.frame j hj with ⟨hnil, hj0, hfree⟩ | ⟨hs, hd⟩
    · refine .inl (Freed.freeDir ⟨?_, hj0, fun l f hf => ?_⟩ hj e)
      · rw [decNlink_subdirs, hnil]
      · rw [decNlink_subdirs] at hf
        exact hfree l f hf
    · rw [decNlink_subdirs] at hs hd
      refine .inr ⟨?_, fun f hf hfe => ?_⟩
      · rw [freeDir_subdirs hj, decNlink_subdirs, hs]
      · rw [freeDir_dentry, if_neg hfe]
        exact hd f hf
  case mode =>
    intro j
    rw [freeDir_mode, hmode]
  case parent =>
    intro j
    rw [freeDir_iParent, decNlink_iParent, hloop.parent, decNlink_iParent]
  case nextInode => exact hloop.nextInode
  case nextDentry => exact hloop.nextDentry
  case names =>
    intro f
    obtain ⟨h1, h2⟩ := @freeDir_names (u.decNlink k) i e f
    exact ⟨h1.trans (hloop.names f).1, h2.trans (hloop.names f).2⟩

/-- Dropping an entry keeps the invariant. The recursion goes down the directories, so that it
stays above the fuel. -/
theorem dropEntry_dropped (n : ℕ) : ∀ (t : TreeHeap) (k e : ℕ), t.Sound root depth →
    e ∈ t.subdirs k → (t.dentry e).inode ≠ 0 → t.nextInode ≤ depth k + n →
      t.FullBelow depth k → Dropped t (dropEntry n t e) root depth k e := by
  induction n with
  | zero =>
    intro t k e h he _ hfuel _
    have := h.depth_lt k (h.bound k e he).1
    omega
  | succ n ih =>
    intro t k e h he h0 hfuel hfull
    by_cases hdot : isDotDotdot (t.dentry e).name
    · exact dropEntry_dot h he h0 hdot _
    by_cases hm : (t.inode (t.dentry e).inode).mode = .dir
    · have hok := h.entry k e he h0
      have hdepth := (hok.up hdot (hok.type.trans hm)).2
      have hsub : (t.decNlink (t.dentry e).inode).subdirs (t.dentry e).inode =
          t.subdirs (t.dentry e).inode := decNlink_subdirs _ _
      apply dropEntry_dir h he h0 hdot hm
      rw [hsub]
      apply droppedAll_foldl (fun u f hu hf hf0 hufuel hufull => ih u _ f hu hf hf0 hufuel hufull)
        _ _ (h.decNlink hm) (h.nodup _)
      · intro f hf
        rw [hsub]
        exact ⟨hf, hfull _ (by omega) f hf⟩
      · change t.nextInode ≤ _
        omega
      · intro j hj f hf
        rw [decNlink_subdirs] at hf
        exact hfull j (by omega) f hf
    · exact dropEntry_file h he h0 hdot hm n

end Drop

end TreeHeap

end ErofsUtils
