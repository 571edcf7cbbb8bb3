import ErofsUtils.TarLinks

/-!
# Removing an inode

The invariant of the tree while tar entries are replayed. A dentry without an inode is allowed in
it, so that it holds after every step of the loop in `tarerofs_remove_inode`.
-/

namespace ErofsUtils

namespace TreeHeap

def IsDir (t : TreeHeap) (root i : ℕ) : Prop :=
  (t.inode i).mode = .dir ∧ 0 < i ∧ (i = root ∨ ∃ j e, e ∈ t.subdirs j ∧
    (t.dentry e).inode = i ∧ ¬isDotDotdot (t.dentry e).name)

structure EntryOk (t : TreeHeap) (depth : ℕ → ℕ) (i e : ℕ) : Prop where
  type : (t.dentry e).type = (t.inode (t.dentry e).inode).mode
  known : (t.dentry e).type ≠ .unknown
  dot : (t.dentry e).name = dotName → (t.dentry e).inode = i
  dotdot : (t.dentry e).name = dotdotName → (t.dentry e).inode = (t.inode i).iParent
  dots : isDotDotdot (t.dentry e).name → (t.dentry e).type = .dir
  up : ¬isDotDotdot (t.dentry e).name → (t.dentry e).type = .dir →
    (t.inode (t.dentry e).inode).iParent = i ∧ depth (t.dentry e).inode = depth i + 1

/-- The reference count of every inode is the number of dentries that refer to it, and one more
for the root; the link count of a file is the number of its dentries; the directories are a tree
with `depth` as the distance from the root. -/
structure Sound (t : TreeHeap) (root : ℕ) (depth : ℕ → ℕ) : Prop where
  root_lt : 0 < root ∧ root < t.nextInode
  root_dir : (t.inode root).mode = .dir
  root_up : (t.inode root).iParent = root
  bound : ∀ i e, e ∈ t.subdirs i → i < t.nextInode ∧ (t.dentry e).inode < t.nextInode
  alloc : ∀ i e, e ∈ t.subdirs i → 0 < e ∧ e < t.nextDentry
  pos : 0 < t.nextDentry
  nodup : ∀ i, (t.subdirs i).Nodup
  home : ∀ i j e, e ∈ t.subdirs i → e ∈ t.subdirs j → i = j
  counted : ∀ i, 0 < i → i < t.nextInode →
    ((t.inode i).count : ℤ) = t.links i + if i = root then 1 else 0
  linked : ∀ i, 0 < i → i < t.nextInode → (t.inode i).mode ≠ .dir → (t.inode i).nlink = t.links i
  entry : ∀ i e, e ∈ t.subdirs i → (t.dentry e).inode ≠ 0 → t.EntryOk depth i e
  single : ∀ i e f, e ∈ t.subdirs i → f ∈ t.subdirs i → (t.dentry e).inode ≠ 0 →
    (t.dentry e).inode = (t.dentry f).inode → (t.dentry e).type = .dir →
    ¬isDotDotdot (t.dentry e).name → ¬isDotDotdot (t.dentry f).name → e = f
  held : ∀ i, t.subdirs i ≠ [] → t.IsDir root i
  depth_lt : ∀ i, i < t.nextInode → depth i < t.nextInode

namespace Sound

variable {t : TreeHeap} {root : ℕ} {depth : ℕ → ℕ}

theorem isDir (h : t.Sound root depth) {i e : ℕ} (he : e ∈ t.subdirs i) : t.IsDir root i :=
  h.held i (List.ne_nil_of_mem he)

theorem dir_lt (h : t.Sound root depth) {i : ℕ} (hi : t.IsDir root i) : i < t.nextInode := by
  obtain ⟨-, -, rfl | ⟨j, e, he, rfl, -⟩⟩ := hi
  · exact h.root_lt.2
  · exact (h.bound j e he).2

theorem parent (h : t.Sound root depth) {i : ℕ} (hi : t.IsDir root i) (hne : i ≠ root) :
    ∃ e, e ∈ t.subdirs (t.inode i).iParent ∧ (t.dentry e).inode = i ∧
      ¬isDotDotdot (t.dentry e).name ∧ depth i = depth (t.inode i).iParent + 1 := by
  obtain ⟨hmode, hpos, hroot | ⟨j, e, he, rfl, hn⟩⟩ := hi
  · exact absurd hroot hne
  · have hok := h.entry j e he (by omega)
    obtain ⟨hup, hdepth⟩ := hok.up hn (hok.type.trans hmode)
    rw [hup]
    exact ⟨e, he, rfl, hn, hdepth⟩

theorem isDir_parent (h : t.Sound root depth) {i : ℕ} (hi : t.IsDir root i) :
    t.IsDir root (t.inode i).iParent := by
  by_cases hne : i = root
  · subst hne
    rwa [h.root_up]
  · obtain ⟨e, he, -⟩ := h.parent hi hne
    exact h.isDir he

theorem ne_root (h : t.Sound root depth) {j e : ℕ} (he : e ∈ t.subdirs j)
    (h0 : (t.dentry e).inode ≠ 0) (hn : ¬isDotDotdot (t.dentry e).name) :
    (t.dentry e).inode ≠ root := by
  intro hr
  have hok := h.entry j e he h0
  have hty : (t.dentry e).type = .dir := by rw [hok.type, hr, h.root_dir]
  obtain ⟨hup, hdepth⟩ := hok.up hn hty
  rw [hr, h.root_up] at hup
  rw [hr, hup] at hdepth
  omega

/-- A `.` or `..` is never the last reference. -/
theorem dot_count (h : t.Sound root depth) {k e : ℕ} (he : e ∈ t.subdirs k)
    (h0 : (t.dentry e).inode ≠ 0) (hdot : isDotDotdot (t.dentry e).name) :
    2 ≤ (t.inode (t.dentry e).inode).count := by
  have hb := h.bound k e he
  have hok := h.entry k e he h0
  have hdir : t.IsDir root (t.dentry e).inode := by
    rcases hdot with hdot | hdot
    · rw [hok.dot hdot]
      exact h.isDir he
    · rw [hok.dotdot hdot]
      exact h.isDir_parent (h.isDir he)
  have hcount := h.counted _ hdir.2.1 hb.2
  by_cases hr : (t.dentry e).inode = root
  · have hpos := links_pos hb.1 he
    rw [if_pos hr] at hcount
    omega
  · obtain ⟨f, hf, hfi, hfn, -⟩ := h.parent hdir hr
    have hne : e ≠ f := by
      rintro rfl
      exact hfn hdot
    have htwo := links_two hb.1 (h.bound _ f hf).1 he hf hne rfl hfi
    rw [if_neg hr] at hcount
    omega

/-- A change of an inode that keeps its type, its parent, its references and its dentries. -/
theorem setInode (h : t.Sound root depth) {i : ℕ} {v : TreeInode}
    (hmode : v.mode = (t.inode i).mode) (hparent : v.iParent = (t.inode i).iParent)
    (hcount : v.count = (t.inode i).count) (hsub : v.iSubdirs = t.subdirs i)
    (hnlink : (t.inode i).mode ≠ .dir → v.nlink = (t.inode i).nlink) :
    (t.setInode i v).Sound root depth := by
  have hsubs : ∀ j, (t.setInode i v).subdirs j = t.subdirs j := by
    intro j
    unfold subdirs
    rw [setInode_inode]
    split
    · next hj => rw [hsub, hj, subdirs]
    · rfl
  have hm : ∀ j, ((t.setInode i v).inode j).mode = (t.inode j).mode := by
    intro j
    rw [setInode_inode]
    split
    · next hj => rw [hmode, hj]
    · rfl
  have hp : ∀ j, ((t.setInode i v).inode j).iParent = (t.inode j).iParent := by
    intro j
    rw [setInode_inode]
    split
    · next hj => rw [hparent, hj]
    · rfl
  have hl : ∀ j, (t.setInode i v).links j = t.links j := fun j =>
    links_congr rfl hsubs (fun _ _ _ => rfl)
  have hentry : ∀ j e, t.EntryOk depth j e → (t.setInode i v).EntryOk depth j e := by
    intro j e he
    exact ⟨he.type.trans (hm _).symm, he.known, he.dot, fun hn => (he.dotdot hn).trans (hp _).symm,
      he.dots, fun hn hty => ⟨(hp _).trans (he.up hn hty).1, (he.up hn hty).2⟩⟩
  constructor
  case root_lt => exact h.root_lt
  case root_dir => exact (hm root).trans h.root_dir
  case root_up => exact (hp root).trans h.root_up
  case bound =>
    intro j e he
    rw [hsubs] at he
    exact h.bound j e he
  case alloc =>
    intro j e he
    rw [hsubs] at he
    exact h.alloc j e he
  case pos => exact h.pos
  case nodup =>
    intro j
    rw [hsubs]
    exact h.nodup j
  case home =>
    intro j k e he hk
    rw [hsubs] at he hk
    exact h.home j k e he hk
  case counted =>
    intro j hj hlt
    rw [hl, ← h.counted j hj hlt, setInode_inode]
    split
    · next hji => rw [hcount, hji]
    · rfl
  case linked =>
    intro j hj hlt hmd
    rw [hm] at hmd
    rw [hl, ← h.linked j hj hlt hmd, setInode_inode]
    split
    · next hji =>
      subst hji
      exact hnlink hmd
    · rfl
  case entry =>
    intro j e he h0
    rw [hsubs] at he
    exact hentry j e (h.entry j e he h0)
  case single =>
    intro j e f he hf
    rw [hsubs] at he hf
    exact h.single j e f he hf
  case held =>
    intro j hj
    rw [hsubs] at hj
    obtain ⟨hmd, hpos, hor⟩ := h.held j hj
    refine ⟨(hm j).trans hmd, hpos, hor.imp id ?_⟩
    rintro ⟨k, e, he, hei⟩
    exact ⟨k, e, by rwa [hsubs], hei⟩
  case depth_lt => exact h.depth_lt

end Sound

/-! ### A dentry that loses its inode -/

/-- The heap `t'` is `t` without the reference of the dentry `e` to the inode `i`, which may have
lost its dentries if these refer to nothing any more. -/
structure Unlinks (t t' : TreeHeap) (e i : ℕ) : Prop where
  inode : (t.dentry e).inode = i
  dentry : ∀ f, t'.dentry f = if f = e then { t.dentry e with inode := 0 } else t.dentry f
  mode : ∀ j, (t'.inode j).mode = (t.inode j).mode
  parent : ∀ j, (t'.inode j).iParent = (t.inode j).iParent
  subdirs : ∀ j, t'.subdirs j = t.subdirs j ∨ j = i ∧ t'.subdirs j = [] ∧
    ∀ f ∈ t.subdirs i, (t.dentry f).inode = 0
  nextInode : t'.nextInode = t.nextInode
  nextDentry : t'.nextDentry = t.nextDentry

namespace Unlinks

variable {t t' : TreeHeap} {root : ℕ} {depth : ℕ → ℕ} {k e i : ℕ}

theorem kept (u : Unlinks t t' e i) {f : ℕ} (hf : (t'.dentry f).inode ≠ 0) :
    f ≠ e ∧ t'.dentry f = t.dentry f := by
  have hfe : f ≠ e := by
    rintro rfl
    rw [u.dentry, if_pos rfl] at hf
    exact hf rfl
  exact ⟨hfe, by rw [u.dentry, if_neg hfe]⟩

theorem mem (u : Unlinks t t' e i) {j f : ℕ} (hf : f ∈ t'.subdirs j) : f ∈ t.subdirs j := by
  rcases u.subdirs j with hj | ⟨-, hj, -⟩
  · rwa [hj] at hf
  · rw [hj] at hf
    exact absurd hf List.not_mem_nil

/-- In the directory of `e` its reference is missing. -/
theorem refsIn_here (u : Unlinks t t' e i) (h : t.Sound root depth) (he : e ∈ t.subdirs k)
    (h0 : i ≠ 0) {x : ℕ} (hx : 0 < x) :
    t'.refsIn (t'.subdirs k) x + (if i = x then 1 else 0) = t.refsIn (t.subdirs k) x := by
  have hk : t'.subdirs k = t.subdirs k := by
    rcases u.subdirs k with hk | ⟨hki, -, hz⟩
    · exact hk
    · rw [hki] at he
      exact absurd (hz e he) (by rw [u.inode]; exact h0)
  have hcnt := countP_update (h.nodup k) (f := fun f => (t.dentry f).inode)
    (g := fun f => (t'.dentry f).inode) he (fun f hf => by rw [u.dentry, if_neg hf]) x
  have hz : (t'.dentry e).inode = 0 := by rw [u.dentry, if_pos rfl]
  have hx0 : ¬0 = x := by omega
  simp only [hz, u.inode, if_neg hx0] at hcnt
  simp only [refsIn, hk]
  omega

theorem refsIn_elsewhere (u : Unlinks t t' e i) (h : t.Sound root depth) (he : e ∈ t.subdirs k)
    {j x : ℕ} (hj : j ≠ k) (hx : 0 < x) :
    t'.refsIn (t'.subdirs j) x = t.refsIn (t.subdirs j) x := by
  have hne : ∀ f ∈ t.subdirs j, t'.dentry f = t.dentry f := by
    intro f hf
    rw [u.dentry, if_neg]
    rintro rfl
    exact hj (h.home j k f hf he)
  unfold refsIn
  rcases u.subdirs j with hs | ⟨rfl, hs, hz⟩
  · rw [hs, countP_keep (fun f hf => by rw [hne f hf])]
  · rw [hs, List.countP_nil, List.countP_eq_zero.2]
    intro f hf
    have := hz f hf
    simp only [decide_eq_true_eq]
    omega

theorem links (u : Unlinks t t' e i) (h : t.Sound root depth) (he : e ∈ t.subdirs k)
    (h0 : i ≠ 0) {x : ℕ} (hx : 0 < x) : t'.links x = t.links x - if i = x then 1 else 0 := by
  have hhere := u.refsIn_here h he h0 hx
  unfold TreeHeap.links
  rw [u.nextInode, sum_range_change (b := fun j => t'.refsIn (t'.subdirs j) x)
    (a := fun j => t.refsIn (t.subdirs j) x) (h.bound k e he).1]
  · omega
  · intro j hj
    exact u.refsIn_elsewhere h he hj hx

theorem entry (u : Unlinks t t' e i) (h : t.Sound root depth) {j f : ℕ} (hf : f ∈ t'.subdirs j)
    (hz : (t'.dentry f).inode ≠ 0) : t'.EntryOk depth j f := by
  obtain ⟨-, hd⟩ := u.kept hz
  rw [hd] at hz
  have hok := h.entry j f (u.mem hf) hz
  constructor
  case type => rw [hd, u.mode]; exact hok.type
  case known => rw [hd]; exact hok.known
  case dot => rw [hd]; exact hok.dot
  case dotdot => rw [hd, u.parent]; exact hok.dotdot
  case dots => rw [hd]; exact hok.dots
  case up => rw [hd, u.parent]; exact hok.up

/-- A directory that has dentries left is the root or has its entry left: an inode that loses its
entry loses its dentries. -/
theorem held (u : Unlinks t t' e i) (h : t.Sound root depth) (he : e ∈ t.subdirs k) (h0 : i ≠ 0)
    (hfree : ¬isDotDotdot (t.dentry e).name → (t.dentry e).type = .dir → t'.subdirs i = [])
    {j : ℕ} (hj : t'.subdirs j ≠ []) : t'.IsDir root j := by
  have hj' : t.subdirs j ≠ [] := by
    rcases u.subdirs j with hs | ⟨-, hs, -⟩
    · rwa [hs] at hj
    · exact absurd hs hj
  obtain ⟨hmd, hpos, hor⟩ := h.held j hj'
  refine ⟨(u.mode j).trans hmd, hpos, ?_⟩
  by_cases hji : j = i ∧ ¬isDotDotdot (t.dentry e).name
  · obtain ⟨rfl, hnd⟩ := hji
    have hok := h.entry k e he (by rw [u.inode]; exact h0)
    have hty : (t.dentry e).type = .dir := by rw [hok.type, u.inode, hmd]
    exact absurd (hfree hnd hty) hj
  rcases hor with hor | ⟨l, f, hf, hfi, hfn⟩
  · exact .inl hor
  have hfe : f ≠ e := by
    rintro rfl
    exact hji ⟨hfi.symm.trans u.inode, hfn⟩
  have hd : t'.dentry f = t.dentry f := by rw [u.dentry, if_neg hfe]
  refine .inr ⟨l, f, ?_, by rw [hd]; exact hfi, by rw [hd]; exact hfn⟩
  rcases u.subdirs l with hs | ⟨rfl, hs, hz⟩
  · rwa [hs]
  · have := hz f hf
    omega

theorem sound (u : Unlinks t t' e i) (h : t.Sound root depth) (he : e ∈ t.subdirs k)
    (h0 : i ≠ 0) (hcount : ∀ j, ((t'.inode j).count : ℤ) =
      (t.inode j).count - if i = j then 1 else 0)
    (hnlink : ∀ j, (t.inode j).mode ≠ .dir →
      (t'.inode j).nlink = (t.inode j).nlink - if i = j then 1 else 0)
    (hfree : ¬isDotDotdot (t.dentry e).name → (t.dentry e).type = .dir → t'.subdirs i = []) :
    t'.Sound root depth := by
  constructor
  case root_lt => rw [u.nextInode]; exact h.root_lt
  case root_dir => exact (u.mode root).trans h.root_dir
  case root_up => exact (u.parent root).trans h.root_up
  case bound =>
    intro j f hf
    have hb := h.bound j f (u.mem hf)
    rw [u.nextInode]
    refine ⟨hb.1, ?_⟩
    by_cases hz : (t'.dentry f).inode = 0
    · omega
    · rw [(u.kept hz).2]
      exact hb.2
  case alloc =>
    intro j f hf
    rw [u.nextDentry]
    exact h.alloc j f (u.mem hf)
  case pos => rw [u.nextDentry]; exact h.pos
  case nodup =>
    intro j
    rcases u.subdirs j with hj | ⟨-, hj, -⟩
    · rw [hj]
      exact h.nodup j
    · rw [hj]
      exact List.nodup_nil
  case home => exact fun j l f hf hf' => h.home j l f (u.mem hf) (u.mem hf')
  case counted =>
    intro j hj hjlt
    rw [u.nextInode] at hjlt
    have hc := h.counted j hj hjlt
    rw [u.links h he h0 hj, hcount]
    omega
  case linked =>
    intro j hj hjlt hmd
    rw [u.nextInode] at hjlt
    rw [u.mode] at hmd
    rw [u.links h he h0 hj, hnlink j hmd, h.linked j hj hjlt hmd]
  case entry => exact fun j f hf hz => u.entry h hf hz
  case single =>
    intro j f g hf hg hz hfg hty hn1 hn2
    obtain ⟨-, hd⟩ := u.kept hz
    obtain ⟨-, hd'⟩ := u.kept (by rw [← hfg]; exact hz)
    rw [hd] at hz hfg hty hn1
    rw [hd'] at hfg hn2
    exact h.single j f g (u.mem hf) (u.mem hg) hz hfg hty hn1 hn2
  case held => exact fun j hj => u.held h he h0 hfree hj
  case depth_lt => rw [u.nextInode]; exact h.depth_lt

end Unlinks

namespace Sound

variable {t : TreeHeap} {root : ℕ} {depth : ℕ → ℕ}

/-- A dentry loses its inode. The inode drops a reference, and a directory that loses its entry
loses its dentries, which refer to nothing any more. -/
theorem unlink (h : t.Sound root depth) {k e : ℕ} {v : TreeInode} (he : e ∈ t.subdirs k)
    (h0 : (t.dentry e).inode ≠ 0) (hmode : v.mode = (t.inode (t.dentry e).inode).mode)
    (hparent : v.iParent = (t.inode (t.dentry e).inode).iParent)
    (hcount : (v.count : ℤ) = (t.inode (t.dentry e).inode).count - 1)
    (hnlink : (t.inode (t.dentry e).inode).mode ≠ .dir →
      v.nlink = (t.inode (t.dentry e).inode).nlink - 1)
    (hsub : v.iSubdirs = t.subdirs (t.dentry e).inode ∨ v.iSubdirs = [] ∧
      ∀ f ∈ t.subdirs (t.dentry e).inode, (t.dentry f).inode = 0)
    (hfree : ¬isDotDotdot (t.dentry e).name → (t.dentry e).type = .dir → v.iSubdirs = []) :
    ((t.setInode (t.dentry e).inode v).setDentryInode e 0).Sound root depth := by
  generalize hi : (t.dentry e).inode = i at *
  have hino : ∀ j, ((t.setInode i v).setDentryInode e 0).inode j = if j = i then v
      else t.inode j := setInode_inode _ _ _
  have hunlinks : Unlinks t ((t.setInode i v).setDentryInode e 0) e i := by
    refine ⟨hi, setDentry_dentry _ _ _, fun j => ?_, fun j => ?_, fun j => ?_, rfl, rfl⟩
    · rw [hino]
      split
      · next hj => rw [hmode, hj]
      · rfl
    · rw [hino]
      split
      · next hj => rw [hparent, hj]
      · rfl
    · unfold subdirs
      rw [hino]
      by_cases hj : j = i
      · subst hj
        rw [if_pos rfl]
        rcases hsub with hsub | ⟨hsub, hz⟩
        · exact .inl hsub
        · exact .inr ⟨rfl, hsub, hz⟩
      · exact .inl (by rw [if_neg hj])
  apply hunlinks.sound h he h0
  · intro j
    rw [hino]
    by_cases hj : j = i
    · rw [if_pos hj, if_pos hj.symm, hj, hcount]
    · rw [if_neg hj, if_neg (Ne.symm hj)]
      omega
  · intro j hmd
    rw [hino]
    by_cases hj : j = i
    · rw [if_pos hj, if_pos hj.symm, hj, hnlink (hj ▸ hmd)]
    · rw [if_neg hj, if_neg (Ne.symm hj), sub_zero]
  · intro hn hty
    unfold subdirs
    rw [hino, if_pos rfl]
    exact hfree hn hty

end Sound

end TreeHeap

end ErofsUtils
