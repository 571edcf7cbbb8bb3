import ErofsUtils.TarDrop

/-!
# New dentries and new inodes

The changes that add to the tree: a dentry that refers to nothing yet, a dentry that gets an inode
that exists, and a dentry that gets a new inode. Each is stated for any heap that has changed in
this way.
-/

namespace ErofsUtils

namespace TreeHeap

/-- The heap `t'` has the inodes of `t`; `more` gives the references that they have gained. -/
structure KeepsInodes (t t' : TreeHeap) (more : ℕ → ℕ) : Prop where
  mode : ∀ j, j < t.nextInode → (t'.inode j).mode = (t.inode j).mode
  parent : ∀ j, j < t.nextInode → (t'.inode j).iParent = (t.inode j).iParent
  count : ∀ j, j < t.nextInode → (t'.inode j).count = (t.inode j).count + more j
  nlink : ∀ j, j < t.nextInode → (t.inode j).mode ≠ .dir →
    (t'.inode j).nlink = (t.inode j).nlink + more j
  nextInode : t.nextInode ≤ t'.nextInode
  nextDentry : t.nextDentry ≤ t'.nextDentry

namespace Sound

variable {t t' : TreeHeap} {root : ℕ} {depth : ℕ → ℕ} {k e : ℕ}

theorem entryOk_keep {more : ℕ → ℕ} (h : t.Sound root depth) (hk : KeepsInodes t t' more)
    {j f : ℕ} (hf : f ∈ t.subdirs j) (hd : t'.dentry f = t.dentry f)
    (hok : t.EntryOk depth j f) : t'.EntryOk depth j f := by
  have hb := h.bound j f hf
  constructor
  case type => rw [hd, hk.mode _ hb.2]; exact hok.type
  case known => rw [hd]; exact hok.known
  case dot => rw [hd]; exact hok.dot
  case dotdot => rw [hd, hk.parent _ hb.1]; exact hok.dotdot
  case dots => rw [hd]; exact hok.dots
  case up => rw [hd, hk.parent _ hb.2]; exact hok.up

theorem addNull (h : t.Sound root depth) (hdir : t.IsDir root k)
    (hk : KeepsInodes t t' fun _ => 0) (hn : t'.nextInode = t.nextInode)
    (hfresh : ∀ j, e ∉ t.subdirs j) (he : 0 < e ∧ e < t'.nextDentry)
    (hsub : ∀ j, t'.subdirs j = if j = k then t.subdirs k ++ [e] else t.subdirs j)
    (hd : ∀ j f, f ∈ t.subdirs j → t'.dentry f = t.dentry f) (hz : (t'.dentry e).inode = 0) :
    t'.Sound root depth := by
  have hmem : ∀ j f, f ∈ t'.subdirs j ↔ f ∈ t.subdirs j ∨ j = k ∧ f = e := by
    intro j f
    rw [hsub]
    split
    · next hj => subst hj; simp
    · next hj => simp [hj]
  have hklt := h.dir_lt hdir
  have hold : ∀ j f, f ∈ t'.subdirs j → (t'.dentry f).inode ≠ 0 →
      f ∈ t.subdirs j ∧ t'.dentry f = t.dentry f := by
    intro j f hf h0
    rcases (hmem j f).1 hf with hf | ⟨-, rfl⟩
    · exact ⟨hf, hd j f hf⟩
    · exact absurd hz h0
  have hlinks : ∀ x, 0 < x → t'.links x = t.links x := by
    intro x hx
    unfold links
    rw [hn]
    apply Finset.sum_congr rfl
    intro j _
    have hrefs : t'.refsIn (t.subdirs j) x = t.refsIn (t.subdirs j) x := by
      unfold refsIn
      rw [countP_keep (fun f hf => by rw [hd j f hf])]
    rw [hsub]
    split
    · next hj =>
      subst hj
      rw [← hrefs]
      unfold refsIn
      rw [List.countP_append]
      have hne : (t'.dentry e).inode ≠ x := by omega
      simp [hne]
    · exact hrefs
  constructor
  case root_lt => rw [hn]; exact h.root_lt
  case root_dir => rw [hk.mode _ h.root_lt.2]; exact h.root_dir
  case root_up => rw [hk.parent _ h.root_lt.2]; exact h.root_up
  case bound =>
    intro j f hf
    rw [hn]
    rcases (hmem j f).1 hf with hf | ⟨rfl, rfl⟩
    · rw [hd j f hf]
      exact h.bound j f hf
    · rw [hz]
      exact ⟨hklt, by omega⟩
  case alloc =>
    intro j f hf
    rcases (hmem j f).1 hf with hf | ⟨rfl, rfl⟩
    · have ha := h.alloc j f hf
      have hle := hk.nextDentry
      omega
    · exact he
  case pos => omega
  case nodup =>
    intro j
    rw [hsub]
    split
    · apply List.Nodup.append (h.nodup k) (List.nodup_singleton _)
      intro f hf hf'
      rw [List.mem_singleton] at hf'
      exact hfresh k (hf' ▸ hf)
    · exact h.nodup j
  case home =>
    intro i j f hf hf'
    rcases (hmem i f).1 hf with ho | ⟨hi, rfl⟩ <;> rcases (hmem j f).1 hf' with ho' | ⟨hj, hfe⟩
    · exact h.home i j f ho ho'
    · exact absurd (hfe ▸ ho) (hfresh i)
    · exact absurd ho' (hfresh j)
    · exact hi.trans hj.symm
  case counted =>
    intro j hj hlt
    rw [hn] at hlt
    rw [hk.count j hlt, hlinks j hj]
    exact h.counted j hj hlt
  case linked =>
    intro j hj hlt hm
    rw [hn] at hlt
    rw [hk.mode j hlt] at hm
    rw [hk.nlink j hlt hm, hlinks j hj, h.linked j hj hlt hm]
    simp
  case entry =>
    intro j f hf h0
    obtain ⟨ho, hdf⟩ := hold j f hf h0
    exact h.entryOk_keep hk ho hdf (h.entry j f ho (by rwa [← hdf]))
  case single =>
    intro j f g hf hg h0 hfg hty hn1 hn2
    obtain ⟨ho, hdf⟩ := hold j f hf h0
    obtain ⟨ho', hdg⟩ := hold j g hg (by rwa [← hfg])
    rw [hdf] at h0 hfg hty hn1
    rw [hdg] at hfg hn2
    exact h.single j f g ho ho' h0 hfg hty hn1 hn2
  case held =>
    intro j hj
    have hdirj : t.IsDir root j := by
      by_cases hjk : j = k
      · rw [hjk]
        exact hdir
      · rw [hsub, if_neg hjk] at hj
        exact h.held j hj
    obtain ⟨hm, hpos, hor⟩ := hdirj
    have hlt := h.dir_lt ⟨hm, hpos, hor⟩
    refine ⟨(hk.mode j hlt).trans hm, hpos, hor.imp id ?_⟩
    rintro ⟨l, f, hf, hfi, hfn⟩
    rw [← hd l f hf] at hfi hfn
    exact ⟨l, f, (hmem l f).2 (.inl hf), hfi, hfn⟩
  case depth_lt => rw [hn]; exact h.depth_lt

/-! ### A dentry that gets an inode -/

section Assign

variable (h : t.Sound root depth) (he : e ∈ t.subdirs k) (hz : (t.dentry e).inode = 0)
  (hsub : ∀ j, t'.subdirs j = t.subdirs j)
  (hd : ∀ j f, f ∈ t.subdirs j → f ≠ e → t'.dentry f = t.dentry f)

include hsub hd in
theorem assign_old {j f : ℕ} (hf : f ∈ t'.subdirs j) (hfe : f ≠ e) :
    f ∈ t.subdirs j ∧ t'.dentry f = t.dentry f := by
  rw [hsub] at hf
  exact ⟨hf, hd j f hf hfe⟩

include h he hsub in
theorem assign_home {j : ℕ} (hj : e ∈ t'.subdirs j) : j = k := by
  rw [hsub] at hj
  exact h.home j k e hj he

include h he hz hd in
theorem refs_assign {x y : ℕ} (hei : (t'.dentry e).inode = y) (hx : 0 < x) :
    ∑ j ∈ Finset.range t.nextInode, t'.refsIn (t.subdirs j) x =
      t.links x + if y = x then 1 else 0 := by
  have hx0 : ¬0 = x := by omega
  have hcnt : t'.refsIn (t.subdirs k) x = t.refsIn (t.subdirs k) x + if y = x then 1 else 0 := by
    have hch : (t.subdirs k).countP (fun f => decide ((t'.dentry f).inode = x)) =
        (t.subdirs k).countP (fun f => decide
          ((if f = e then y else (t.dentry f).inode) = x)) := by
      apply List.countP_congr
      intro f hf
      by_cases hfe : f = e
      · rw [if_pos hfe, hfe, hei]
      · rw [if_neg hfe, hd k f hf hfe]
    have hup := countP_update (h.nodup k) (f := fun f => (t.dentry f).inode)
      (g := fun f => if f = e then y else (t.dentry f).inode) he
      (fun f hf => by rw [if_neg hf]) x
    simp only [hz, if_neg hx0, if_true] at hup
    unfold refsIn
    rw [hch]
    omega
  unfold links
  rw [sum_range_change (b := fun j => t'.refsIn (t.subdirs j) x)
    (a := fun j => t.refsIn (t.subdirs j) x) (h.bound k e he).1]
  · omega
  · intro j hj
    unfold refsIn
    rw [countP_keep (fun f hf => ?_)]
    rw [hd j f hf]
    rintro rfl
    exact hj (h.home j k f hf he)

variable {more : ℕ → ℕ} (hk : KeepsInodes t t' more)

include h hk hsub in
theorem assign_alloc {j f : ℕ} (hf : f ∈ t'.subdirs j) : 0 < f ∧ f < t'.nextDentry := by
  rw [hsub] at hf
  have ha := h.alloc j f hf
  have hle := hk.nextDentry
  omega

include h hk hsub hd in
theorem assign_entry {j f : ℕ} (hf : f ∈ t'.subdirs j) (hfe : f ≠ e)
    (h0 : (t'.dentry f).inode ≠ 0) : t'.EntryOk depth j f := by
  obtain ⟨ho, hdf⟩ := assign_old hsub hd hf hfe
  exact h.entryOk_keep hk ho hdf (h.entry j f ho (by rwa [← hdf]))

include h hsub hd in
theorem assign_single {j f g : ℕ} (hf : f ∈ t'.subdirs j) (hg : g ∈ t'.subdirs j) (hfe : f ≠ e)
    (hge : g ≠ e) (h0 : (t'.dentry f).inode ≠ 0)
    (hfg : (t'.dentry f).inode = (t'.dentry g).inode) (hty : (t'.dentry f).type = .dir)
    (hn1 : ¬isDotDotdot (t'.dentry f).name) (hn2 : ¬isDotDotdot (t'.dentry g).name) : f = g := by
  obtain ⟨ho, hdf⟩ := assign_old hsub hd hf hfe
  obtain ⟨ho', hdg⟩ := assign_old hsub hd hg hge
  rw [hdf] at h0 hfg hty hn1
  rw [hdg] at hfg hn2
  exact h.single j f g ho ho' h0 hfg hty hn1 hn2

include h hz hk hsub hd in
theorem assign_held {j : ℕ} (hj : t'.subdirs j ≠ []) : t'.IsDir root j := by
  rw [hsub] at hj
  obtain ⟨hm, hpos, hor⟩ := h.held j hj
  have hlt := h.dir_lt ⟨hm, hpos, hor⟩
  refine ⟨(hk.mode j hlt).trans hm, hpos, hor.imp id ?_⟩
  rintro ⟨l, f, hf, hfi, hfn⟩
  have hfe : f ≠ e := by
    rintro rfl
    omega
  rw [← hd l f hf hfe] at hfi hfn
  exact ⟨l, f, by rwa [hsub], hfi, hfn⟩

end Assign

theorem link (h : t.Sound root depth) {i : ℕ} (he : e ∈ t.subdirs k)
    (hz : (t.dentry e).inode = 0) (hi : 0 < i ∧ i < t.nextInode)
    (hk : KeepsInodes t t' fun j => if j = i then 1 else 0) (hn : t'.nextInode = t.nextInode)
    (hsub : ∀ j, t'.subdirs j = t.subdirs j)
    (hd : ∀ j f, f ∈ t.subdirs j → f ≠ e → t'.dentry f = t.dentry f)
    (hei : (t'.dentry e).inode = i) (hok : t'.EntryOk depth k e)
    (hfile : ¬isDotDotdot (t'.dentry e).name → (t'.dentry e).type ≠ .dir) :
    t'.Sound root depth := by
  have hlinks : ∀ x, 0 < x → t'.links x = t.links x + if i = x then 1 else 0 := by
    intro x hx
    unfold links
    rw [hn]
    simp only [hsub]
    exact h.refs_assign he hz hd hei hx
  constructor
  case root_lt => rw [hn]; exact h.root_lt
  case root_dir => rw [hk.mode _ h.root_lt.2]; exact h.root_dir
  case root_up => rw [hk.parent _ h.root_lt.2]; exact h.root_up
  case bound =>
    intro j f hf
    rw [hn]
    by_cases hfe : f = e
    · rw [hfe, hei]
      rw [hsub] at hf
      exact ⟨(h.bound j f hf).1, hi.2⟩
    · obtain ⟨ho, hdf⟩ := assign_old hsub hd hf hfe
      rw [hdf]
      exact h.bound j f ho
  case alloc => exact fun j f hf => h.assign_alloc hsub hk hf
  case pos => exact h.pos.trans_le hk.nextDentry
  case nodup =>
    intro j
    rw [hsub]
    exact h.nodup j
  case home =>
    intro j l f hf hf'
    rw [hsub] at hf hf'
    exact h.home j l f hf hf'
  case counted =>
    intro j hj hlt
    rw [hn] at hlt
    have hc := h.counted j hj hlt
    rw [hk.count j hlt, hlinks j hj]
    by_cases hji : j = i
    · rw [if_pos hji, if_pos hji.symm]
      push_cast
      omega
    · rw [if_neg hji, if_neg (Ne.symm hji)]
      push_cast
      omega
  case linked =>
    intro j hj hlt hm
    rw [hn] at hlt
    rw [hk.mode j hlt] at hm
    have hl := h.linked j hj hlt hm
    rw [hk.nlink j hlt hm, hlinks j hj]
    by_cases hji : j = i
    · rw [if_pos hji, if_pos hji.symm]
      push_cast
      omega
    · rw [if_neg hji, if_neg (Ne.symm hji)]
      push_cast
      omega
  case entry =>
    intro j f hf h0
    by_cases hfe : f = e
    · subst hfe
      rw [h.assign_home he hsub hf]
      exact hok
    · exact h.assign_entry hsub hd hk hf hfe h0
  case single =>
    intro j f g hf hg h0 hfg hty hn1 hn2
    by_cases hfe : f = e
    · subst hfe
      exact absurd hty (hfile hn1)
    by_cases hge : g = e
    · -- the inode of `e` is a file, that of `f` a directory
      subst hge
      have hokf := h.assign_entry hsub hd hk hf hfe h0
      have hgt := hok.type.trans ((congrArg (fun x => (t'.inode x).mode) hfg).symm.trans
        (hokf.type.symm.trans hty))
      exact absurd hgt (hfile hn2)
    · exact h.assign_single hsub hd hf hg hfe hge h0 hfg hty hn1 hn2
  case held => exact fun j hj => h.assign_held hz hsub hd hk hj
  case depth_lt => rw [hn]; exact h.depth_lt

theorem fresh_subdirs (h : t.Sound root depth) : t.subdirs t.nextInode = [] := by
  apply List.eq_nil_iff_forall_not_mem.2
  intro f hf
  exact lt_irrefl _ (h.bound _ f hf).1

theorem fresh_links (h : t.Sound root depth) : t.links t.nextInode = 0 := by
  apply links_zero
  intro j f hf hfi
  have := (h.bound j f hf).2
  omega

theorem attach (h : t.Sound root depth) (he : e ∈ t.subdirs k)
    (hz : (t.dentry e).inode = 0) (hk : KeepsInodes t t' fun _ => 0)
    (hn : t'.nextInode = t.nextInode + 1)
    (hsub : ∀ j, t'.subdirs j = if j = t.nextInode then [] else t.subdirs j)
    (hd : ∀ j f, f ∈ t.subdirs j → f ≠ e → t'.dentry f = t.dentry f)
    (hei : (t'.dentry e).inode = t.nextInode)
    (hname : ¬isDotDotdot (t'.dentry e).name)
    (htype : (t'.dentry e).type = (t'.inode t.nextInode).mode)
    (hknown : (t'.dentry e).type ≠ .unknown) (hcount : (t'.inode t.nextInode).count = 1)
    (hnlink : (t'.dentry e).type ≠ .dir → (t'.inode t.nextInode).nlink = 1)
    (hparent : (t'.dentry e).type = .dir → (t'.inode t.nextInode).iParent = k) :
    t'.Sound root fun j => if j = t.nextInode then depth k + 1 else depth j := by
  have hke := h.bound k e he
  have hsub' : ∀ j, t'.subdirs j = t.subdirs j := by
    intro j
    rw [hsub]
    split
    · next hj => rw [hj, h.fresh_subdirs]
    · rfl
  have hlinks : ∀ x, 0 < x → t'.links x = t.links x + if t.nextInode = x then 1 else 0 := by
    intro x hx
    have hnil : t'.refsIn [] x = 0 := rfl
    unfold links
    rw [hn, Finset.sum_range_succ, hsub' t.nextInode, h.fresh_subdirs, hnil, add_zero]
    simp only [hsub']
    exact h.refs_assign he hz hd hei hx
  have hroot : root ≠ t.nextInode := by
    have := h.root_lt
    omega
  have hdepth : ∀ j, j < t.nextInode →
      (if j = t.nextInode then depth k + 1 else depth j) = depth j := by
    intro j hj
    rw [if_neg (by omega)]
  have hnew : ∀ j f, f ∈ t'.subdirs j → f ≠ e → (t'.dentry f).inode ≠ t.nextInode := by
    intro j f hf hfe
    obtain ⟨ho, hdf⟩ := assign_old hsub' hd hf hfe
    have := (h.bound j f ho).2
    rw [hdf]
    omega
  constructor
  case root_lt =>
    have := h.root_lt
    omega
  case root_dir => rw [hk.mode _ h.root_lt.2]; exact h.root_dir
  case root_up => rw [hk.parent _ h.root_lt.2]; exact h.root_up
  case bound =>
    intro j f hf
    rw [hn]
    by_cases hfe : f = e
    · rw [hsub'] at hf
      have := h.bound j f hf
      rw [hfe, hei]
      omega
    · obtain ⟨ho, hdf⟩ := assign_old hsub' hd hf hfe
      have := h.bound j f ho
      rw [hdf]
      omega
  case alloc => exact fun j f hf => h.assign_alloc hsub' hk hf
  case pos => exact h.pos.trans_le hk.nextDentry
  case nodup =>
    intro j
    rw [hsub']
    exact h.nodup j
  case home =>
    intro j l f hf hf'
    rw [hsub'] at hf hf'
    exact h.home j l f hf hf'
  case counted =>
    intro j hj hlt
    rw [hlinks j hj]
    by_cases hjn : j = t.nextInode
    · subst hjn
      rw [hcount, h.fresh_links, if_pos rfl, if_neg (Ne.symm hroot)]
      rfl
    · have hlt' : j < t.nextInode := by omega
      have hc := h.counted j hj hlt'
      rw [hk.count j hlt', if_neg (Ne.symm hjn)]
      push_cast
      omega
  case linked =>
    intro j hj hlt hm
    rw [hlinks j hj]
    by_cases hjn : j = t.nextInode
    · subst hjn
      rw [hnlink (by rwa [htype]), h.fresh_links, if_pos rfl]
      rfl
    · have hlt' : j < t.nextInode := by omega
      rw [hk.mode j hlt'] at hm
      have hl := h.linked j hj hlt' hm
      rw [hk.nlink j hlt' hm, if_neg (Ne.symm hjn)]
      push_cast
      omega
  case entry =>
    intro j f hf h0
    by_cases hfe : f = e
    · subst hfe
      rw [h.assign_home he hsub' hf]
      refine ⟨by rw [hei]; exact htype, hknown, fun hdot => absurd (.inl hdot) hname,
        fun hdot => absurd (.inr hdot) hname, fun hdot => absurd hdot hname, fun _ hty => ?_⟩
      rw [hei, if_pos rfl, hdepth k hke.1]
      exact ⟨hparent hty, rfl⟩
    · obtain ⟨ho, hdf⟩ := assign_old hsub' hd hf hfe
      have hb := h.bound j f ho
      have hok := h.assign_entry hsub' hd hk hf hfe h0
      refine ⟨hok.type, hok.known, hok.dot, hok.dotdot, hok.dots, fun hfn hty => ?_⟩
      rw [hdepth j hb.1, hdf, hdepth _ hb.2, ← hdf]
      exact hok.up hfn hty
  case single =>
    intro j f g hf hg h0 hfg hty hn1 hn2
    by_cases hfe : f = e
    · by_cases hge : g = e
      · rw [hfe, hge]
      · exact absurd (hfg.symm.trans (by rw [hfe, hei])) (hnew j g hg hge)
    by_cases hge : g = e
    · exact absurd (hfg.trans (by rw [hge, hei])) (hnew j f hf hfe)
    · exact h.assign_single hsub' hd hf hg hfe hge h0 hfg hty hn1 hn2
  case held => exact fun j hj => h.assign_held hz hsub' hd hk hj
  case depth_lt =>
    intro j hj
    have hkd := h.depth_lt k hke.1
    split
    · omega
    · have := h.depth_lt j (by omega)
      omega

end Sound

end TreeHeap

end ErofsUtils
