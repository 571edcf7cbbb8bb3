import ErofsUtils.TarAttach

/-!
# Directories and entries made while replaying

`erofs_init_empty_dir`, `erofs_rebuild_mkdir` and `erofs_d_alloc` keep the invariant of the tree.
-/

namespace ErofsUtils

namespace TreeHeap

def withNull (t : TreeHeap) (k e : ℕ) (d : TreeDentry) (next : ℕ) : TreeHeap :=
  ⟨fun j => { t.inode j with iSubdirs := if j = k then t.subdirs k ++ [e] else t.subdirs j },
    Function.update t.dentry e d, t.nextInode, next⟩

/-- The heap with a `.` in the directory `i`: it has the dentries of `t'`. -/
def withDot (t t' : TreeHeap) (i e : ℕ) : TreeHeap :=
  ⟨fun j => { t.inode j with
      count := (t.inode j).count + if j = i then 1 else 0
      iSubdirs := if j = i then t.subdirs i ++ [e] else t.subdirs j },
    t'.dentry, t.nextInode, t'.nextDentry⟩

/-- The heap with a new directory for the dentry `e` of `k`. -/
def withDir (t : TreeHeap) (k e : ℕ) (s : Name) : TreeHeap :=
  ⟨fun j => if j = t.nextInode then ⟨.dir, k, 2, 1, [], false, false⟩ else t.inode j,
    Function.update t.dentry e (.ofName s .dir t.nextInode), t.nextInode + 1, t.nextDentry⟩

/-- The directory that `erofs_rebuild_mkdir` makes, before it has `.` and `..`. -/
def emptyDirMade (t : TreeHeap) (k : ℕ) (s : Name) : TreeHeap :=
  (t.withNull k (t.nextDentry + 2) (.ofName s .unknown 0) (t.nextDentry + 3)).withDir k
    (t.nextDentry + 2) s

namespace Sound

variable {t t' : TreeHeap} {root : ℕ} {depth : ℕ → ℕ} {i k e : ℕ}

theorem mem_withNull {d : TreeDentry} {next j f : ℕ} :
    f ∈ (t.withNull k e d next).subdirs j ↔ f ∈ t.subdirs j ∨ j = k ∧ f = e := by
  change f ∈ (if j = k then t.subdirs k ++ [e] else t.subdirs j) ↔ _
  split
  · next hj => subst hj; simp
  · next hj => simp [hj]

theorem withNull_dentry {d : TreeDentry} {next f : ℕ} (hf : f ≠ e) :
    (t.withNull k e d next).dentry f = t.dentry f :=
  Function.update_of_ne hf _ _

@[simp] theorem withNull_dentry_self {d : TreeDentry} {next : ℕ} :
    (t.withNull k e d next).dentry e = d :=
  Function.update_self _ _ _

theorem withNull (h : t.Sound root depth) (hdir : t.IsDir root k) {d : TreeDentry} {next : ℕ}
    (hfresh : ∀ j, e ∉ t.subdirs j) (he : 0 < e ∧ e < next) (hnext : t.nextDentry ≤ next)
    (hz : d.inode = 0) : (t.withNull k e d next).Sound root depth := by
  have hkeep : KeepsInodes t (t.withNull k e d next) fun _ => 0 :=
    ⟨fun _ _ => rfl, fun _ _ => rfl, fun _ _ => rfl, fun _ _ _ => (add_zero _).symm, le_rfl, hnext⟩
  apply h.addNull hdir hkeep rfl hfresh he (fun _ => rfl)
  · intro j f hf
    apply withNull_dentry
    rintro rfl
    exact hfresh j hf
  · rw [withNull_dentry_self]
    exact hz

theorem addDot (h : t.Sound root depth) (hdir : t.IsDir root k) {x : ℕ} {n : Name}
    (hk : KeepsInodes t t' fun j => if j = x then 1 else 0) (hn : t'.nextInode = t.nextInode)
    (hfresh : ∀ j, e ∉ t.subdirs j) (he : 0 < e ∧ e < t'.nextDentry)
    (hsub : ∀ j, t'.subdirs j = if j = k then t.subdirs k ++ [e] else t.subdirs j)
    (hd : ∀ j f, f ∈ t.subdirs j → t'.dentry f = t.dentry f)
    (hde : t'.dentry e = .ofName n .dir x)
    (hdot : n = dotName ∧ x = k ∨ n = dotdotName ∧ x = (t.inode k).iParent) :
    t'.Sound root depth := by
  have hname : (t'.dentry e).name = n := by
    rw [hde]
    rcases hdot with ⟨rfl, -⟩ | ⟨rfl, -⟩ <;> rfl
  have hdotn : isDotDotdot (t'.dentry e).name := by
    rw [hname]
    exact hdot.imp (fun hd => hd.1) (fun hd => hd.1)
  have hxdir : t.IsDir root x := by
    rcases hdot with ⟨-, rfl⟩ | ⟨-, rfl⟩
    · exact hdir
    · exact h.isDir_parent hdir
  have hxlt := h.dir_lt hxdir
  have hklt := h.dir_lt hdir
  -- first the dentry without its inode
  have hu : (t.withNull k e (.ofName n .dir 0) t'.nextDentry).Sound root depth :=
    h.withNull hdir hfresh he hk.nextDentry rfl
  have hkeep : KeepsInodes (t.withNull k e (.ofName n .dir 0) t'.nextDentry) t'
      fun j => if j = x then 1 else 0 :=
    ⟨hk.mode, hk.parent, hk.count, hk.nlink, by rw [hn]; exact le_rfl, le_rfl⟩
  apply hu.link (mem_withNull.2 (.inr ⟨rfl, rfl⟩)) (by rw [withNull_dentry_self]; rfl)
    ⟨hxdir.2.1, hxlt⟩ hkeep hn hsub
  · intro j f hf hfe
    rw [withNull_dentry hfe]
    exact hd j f ((mem_withNull.1 hf).resolve_right (fun hno => hfe hno.2))
  · rw [hde]
    rfl
  · have hmode : (t'.inode x).mode = .dir := (hk.mode x hxlt).trans hxdir.1
    have hty : (t'.dentry e).type = .dir := by
      rw [hde]
      rfl
    have hin : (t'.dentry e).inode = x := by
      rw [hde]
      rfl
    refine ⟨by rw [hty, hin, hmode], by rw [hty]; simp, fun hnm => ?_, fun hnm => ?_,
      fun _ => hty, fun hno => absurd hdotn hno⟩
    · rw [hname] at hnm
      rcases hdot with ⟨-, hx⟩ | ⟨hn', -⟩
      · rw [hin, hx]
      · rw [hn'] at hnm
        exact absurd hnm (by decide)
    · rw [hname] at hnm
      rcases hdot with ⟨hn', -⟩ | ⟨-, hx⟩
      · rw [hn'] at hnm
        exact absurd hnm (by decide)
      · rw [hin, hx, hk.parent k hklt]
  · intro hno
    exact absurd hdotn hno

theorem fresh (h : t.Sound root depth) (he : t.nextDentry ≤ e) (j : ℕ) : e ∉ t.subdirs j := by
  intro hmem
  have := (h.alloc j e hmem).2
  omega

theorem initEmptyDir_inode (t : TreeHeap) (i j : ℕ) :
    (t.erofsInitEmptyDir i).inode j = { t.inode j with
      nlink := if j = i then 2 else (t.inode j).nlink
      count := (t.inode j).count + (if j = i then 1 else 0) +
        if j = (t.inode i).iParent then 1 else 0
      iSubdirs := if j = i then t.subdirs i ++ [t.nextDentry, t.nextDentry + 1]
        else t.subdirs j } := by
  unfold erofsInitEmptyDir erofsIgrab
  simp only [erofsDAlloc_inode, setInode_inode, subdirs, erofsDAlloc_nextDentry,
    setInode_nextDentry]
  by_cases hi : j = i
  · subst hi
    by_cases hp : j = (t.inode j).iParent
    · simp [← hp]
    · simp [hp]
  · by_cases hp : j = (t.inode i).iParent
    · subst hp
      simp [hi]
    · simp [hi, hp]

theorem initEmptyDir_dentry (t : TreeHeap) (i f : ℕ) :
    (t.erofsInitEmptyDir i).dentry f =
      if f = t.nextDentry + 1 then .ofName dotdotName .dir (t.inode i).iParent
      else if f = t.nextDentry then .ofName dotName .dir i
      else t.dentry f := by
  unfold erofsInitEmptyDir erofsIgrab
  simp only [erofsDAlloc_dentry, setInode_dentry, erofsDAlloc_nextDentry, setInode_nextDentry,
    setInode_inode, erofsDAlloc_inode, if_true]

theorem addDots (h : t.Sound root depth) {a b : ℕ} (hdir : t.IsDir root i)
    (hfresh : ∀ j, a ∉ t.subdirs j ∧ b ∉ t.subdirs j) (hab : a ≠ b)
    (ha0 : 0 < a ∧ a < t'.nextDentry) (hb0 : 0 < b ∧ b < t'.nextDentry)
    (hk : KeepsInodes t t' fun j =>
      (if j = i then 1 else 0) + if j = (t.inode i).iParent then 1 else 0)
    (hn : t'.nextInode = t.nextInode)
    (hsub : ∀ j, t'.subdirs j = if j = i then t.subdirs i ++ [a, b] else t.subdirs j)
    (hd : ∀ j f, f ∈ t.subdirs j → t'.dentry f = t.dentry f)
    (ha : t'.dentry a = .ofName dotName .dir i)
    (hb : t'.dentry b = .ofName dotdotName .dir (t.inode i).iParent) : t'.Sound root depth := by
  have hilt := h.dir_lt hdir
  have hpdir := h.isDir_parent hdir
  -- first the directory with `.` only
  have hu : (t.withDot t' i a).Sound root depth := by
    have hkeep : KeepsInodes t (t.withDot t' i a) fun j => if j = i then 1 else 0 := by
      refine ⟨fun _ _ => rfl, fun _ _ => rfl, fun _ _ => rfl, fun j _ hm => ?_, le_rfl,
        hk.nextDentry⟩
      rw [if_neg]
      · exact (add_zero _).symm
      · rintro rfl
        exact hm hdir.1
    exact h.addDot hdir hkeep rfl (fun j => (hfresh j).1) ha0 (fun _ => rfl) hd ha
      (.inl ⟨rfl, rfl⟩)
  have hus : ∀ j, (t.withDot t' i a).subdirs j = if j = i then t.subdirs i ++ [a]
      else t.subdirs j := fun _ => rfl
  have hudir : (t.withDot t' i a).IsDir root i := hu.held i (by rw [hus, if_pos rfl]; simp)
  have hkeep : KeepsInodes (t.withDot t' i a) t' fun j =>
      if j = (t.inode i).iParent then 1 else 0 := by
    refine ⟨hk.mode, hk.parent, fun j hj => ?_, fun j hj hm => ?_, by rw [hn]; exact le_rfl,
      le_rfl⟩
    · rw [hk.count j hj]
      change _ = (t.inode j).count + (if j = i then 1 else 0) + _
      omega
    · have hji : j ≠ i := by
        rintro rfl
        exact hm hdir.1
      have hjp : j ≠ (t.inode i).iParent := by
        intro hp
        rw [hp] at hm
        exact hm hpdir.1
      rw [hk.nlink j hj hm, if_neg hji, if_neg hjp]
      rfl
  apply hu.addDot hudir hkeep hn _ hb0 _ (fun _ _ _ => rfl) hb (.inr ⟨rfl, rfl⟩)
  · intro j hj
    rw [hus] at hj
    split at hj
    · rw [List.mem_append, List.mem_singleton] at hj
      exact hj.elim (hfresh i).2 (fun hba => hab hba.symm)
    · exact (hfresh j).2 hj
  · intro j
    rw [hsub, hus, hus, if_pos rfl]
    split
    · simp
    · rfl

theorem initEmptyDir (h : t.Sound root depth) (hdir : t.IsDir root i) :
    (t.erofsInitEmptyDir i).Sound root depth := by
  have hpdir := h.isDir_parent hdir
  have hpos := h.pos
  have hnd : (t.erofsInitEmptyDir i).nextDentry = t.nextDentry + 2 := rfl
  apply h.addDots (a := t.nextDentry) (b := t.nextDentry + 1) hdir
    (fun j => ⟨h.fresh le_rfl j, h.fresh (by omega) j⟩) (by omega) (by omega) (by omega)
  · refine ⟨fun j _ => ?_, fun j _ => ?_, fun j _ => ?_, fun j _ hm => ?_, le_rfl, by omega⟩
    · rw [initEmptyDir_inode]
    · rw [initEmptyDir_inode]
    · rw [initEmptyDir_inode]
      exact add_assoc _ _ _
    · have hji : j ≠ i := by
        rintro rfl
        exact hm hdir.1
      have hjp : j ≠ (t.inode i).iParent := by
        intro hp
        rw [hp] at hm
        exact hm hpdir.1
      rw [initEmptyDir_inode, if_neg hji, if_neg hji, if_neg hjp]
      exact (add_zero _).symm
  · rfl
  · intro j
    change ((t.erofsInitEmptyDir i).inode j).iSubdirs = _
    rw [initEmptyDir_inode]
  · intro j f hf
    have := (h.alloc j f hf).2
    rw [initEmptyDir_dentry, if_neg (by omega), if_neg (by omega)]
  · rw [initEmptyDir_dentry, if_neg (by omega), if_pos rfl]
  · rw [initEmptyDir_dentry, if_pos rfl]

theorem not_dot_ofName {s : Name} (hs : ¬isDotDotdot s) (type : FileType) (x : ℕ) :
    ¬isDotDotdot (TreeDentry.ofName s type x).name := by
  by_cases hlen : s.length < nameLen
  · rw [TreeDentry.ofName_eq hlen]
    exact hs
  · -- a name that is cut is longer than the two
    have hcut : (TreeDentry.ofName s type x).name.length = nameLen - 1 := by
      change (s.take (nameLen - 1)).length = _
      rw [List.length_take]
      omega
    rintro (heq | heq)
    · rw [heq] at hcut
      exact absurd hcut (by decide)
    · rw [heq] at hcut
      exact absurd hcut (by decide)

theorem withDir_inode {s : Name} (j : ℕ) : (t.withDir k e s).inode j =
    if j = t.nextInode then ⟨.dir, k, 2, 1, [], false, false⟩ else t.inode j := rfl

theorem withDir_subdirs {s : Name} (j : ℕ) :
    (t.withDir k e s).subdirs j = if j = t.nextInode then [] else t.subdirs j := by
  unfold subdirs
  rw [withDir_inode]
  split <;> rfl

theorem withDir_dentry {s : Name} {f : ℕ} (hf : f ≠ e) :
    (t.withDir k e s).dentry f = t.dentry f :=
  Function.update_of_ne hf _ _

@[simp] theorem withDir_dentry_self {s : Name} :
    (t.withDir k e s).dentry e = .ofName s .dir t.nextInode :=
  Function.update_self _ _ _

theorem withDir (h : t.Sound root depth) (he : e ∈ t.subdirs k) (hz : (t.dentry e).inode = 0)
    {s : Name} (hs : ¬isDotDotdot s) : (t.withDir k e s).Sound root
      fun j => if j = t.nextInode then depth k + 1 else depth j := by
  have hold : ∀ j, j < t.nextInode → (t.withDir k e s).inode j = t.inode j := fun j hj =>
    if_neg (ne_of_lt hj)
  have hnew : (t.withDir k e s).inode t.nextInode = ⟨.dir, k, 2, 1, [], false, false⟩ :=
    if_pos rfl
  have hkeep : KeepsInodes t (t.withDir k e s) fun _ => 0 :=
    ⟨fun j hj => by rw [hold j hj], fun j hj => by rw [hold j hj],
      fun j hj => by rw [hold j hj]; rfl,
      fun j hj _ => by rw [hold j hj]; exact (add_zero _).symm, Nat.le_succ _, le_rfl⟩
  apply h.attach he hz hkeep rfl withDir_subdirs
  · intro j f _ hfe
    exact withDir_dentry hfe
  · rw [withDir_dentry_self]
    rfl
  · rw [withDir_dentry_self]
    exact not_dot_ofName hs _ _
  · rw [withDir_dentry_self, hnew]
    rfl
  · rw [withDir_dentry_self]
    simp [TreeDentry.ofName]
  · rw [hnew]
  · intro hno
    rw [withDir_dentry_self] at hno
    exact absurd rfl hno
  · intro _
    rw [hnew]

theorem withDir_isDir (he : e ∈ t.subdirs k) (hk : k ≠ t.nextInode) (hpos : 0 < t.nextInode)
    {s : Name} (hs : ¬isDotDotdot s) : (t.withDir k e s).IsDir root t.nextInode := by
  refine ⟨by rw [withDir_inode, if_pos rfl], hpos, .inr ⟨k, e, ?_, ?_, ?_⟩⟩
  · rw [withDir_subdirs, if_neg hk]
    exact he
  · rw [withDir_dentry_self]
    rfl
  · rw [withDir_dentry_self]
    exact not_dot_ofName hs _ _

theorem emptyDirMade_subdirs {s : Name} (j : ℕ) : (t.emptyDirMade k s).subdirs j =
    if j = t.nextInode then []
    else if j = k then t.subdirs k ++ [t.nextDentry + 2] else t.subdirs j :=
  withDir_subdirs j

theorem emptyDirMade_dentry {s : Name} {f : ℕ} (hf : f ≠ t.nextDentry + 2) :
    (t.emptyDirMade k s).dentry f = t.dentry f :=
  (withDir_dentry hf).trans (withNull_dentry hf)

theorem emptyDirMade_dentry_self {s : Name} :
    (t.emptyDirMade k s).dentry (t.nextDentry + 2) = .ofName s .dir t.nextInode :=
  Function.update_self _ _ _

theorem mem_emptyDirMade {s : Name} {j f : ℕ} (hf : f ∈ (t.emptyDirMade k s).subdirs j) :
    f ∈ t.subdirs j ∨ f = t.nextDentry + 2 := by
  rw [emptyDirMade_subdirs] at hf
  split at hf
  · exact absurd hf List.not_mem_nil
  split at hf
  · next hj =>
    rw [List.mem_append, List.mem_singleton] at hf
    rwa [hj]
  · exact .inl hf

theorem emptyDirMade_keeps {s : Name} (hkd : (t.inode k).mode = .dir) (hklt : k < t.nextInode) :
    KeepsInodes (t.emptyDirMade k s) (t.erofsRebuildMkdir k s).2 fun j =>
      (if j = t.nextInode then 1 else 0) + if j = k then 1 else 0 := by
  have hino := erofsRebuildMkdir_inode t s hklt
  have hkn : k ≠ t.nextInode := by omega
  have hnew : (t.emptyDirMade k s).inode t.nextInode = ⟨.dir, k, 2, 1, [], false, false⟩ :=
    if_pos rfl
  have hold : ∀ j, j ≠ t.nextInode → (t.emptyDirMade k s).inode j = { t.inode j with
      iSubdirs := if j = k then t.subdirs k ++ [t.nextDentry + 2] else t.subdirs j } :=
    fun j hj => if_neg hj
  constructor
  case mode =>
    intro j _
    rw [hino]
    by_cases hj : j = t.nextInode
    · rw [if_pos hj, hj, hnew]
    · rw [if_neg hj, hold j hj]
      by_cases hjk : j = k
      · rw [if_pos hjk, hjk]
      · rw [if_neg hjk]
  case parent =>
    intro j _
    rw [hino]
    by_cases hj : j = t.nextInode
    · rw [if_pos hj, hj, hnew]
    · rw [if_neg hj, hold j hj]
      by_cases hjk : j = k
      · rw [if_pos hjk, hjk]
      · rw [if_neg hjk]
  case count =>
    intro j _
    rw [hino]
    by_cases hj : j = t.nextInode
    · subst hj
      rw [if_pos rfl, hnew, if_pos rfl, if_neg (Ne.symm hkn)]
    · have hcount : ((t.emptyDirMade k s).inode j).count = (t.inode j).count := by rw [hold j hj]
      rw [if_neg hj, hcount, if_neg hj]
      by_cases hjk : j = k
      · rw [if_pos hjk, if_pos hjk, hjk]
      · rw [if_neg hjk, if_neg hjk]
        rfl
  case nlink =>
    intro j _ hm
    rw [hino]
    by_cases hj : j = t.nextInode
    · subst hj
      rw [hnew] at hm
      exact absurd rfl hm
    · have hnlink : ((t.emptyDirMade k s).inode j).nlink = (t.inode j).nlink := by rw [hold j hj]
      rw [if_neg hj, hnlink, if_neg hj]
      by_cases hjk : j = k
      · subst hjk
        rw [hold j hj] at hm
        exact absurd hkd hm
      · rw [if_neg hjk, if_neg hjk]
        exact (add_zero _).symm
  case nextInode => exact le_rfl
  case nextDentry => exact le_rfl

theorem mkdir (h : t.Sound root depth) (hdir : t.IsDir root k) {s : Name} (hs : ¬isDotDotdot s) :
    ∃ depth', (t.erofsRebuildMkdir k s).2.Sound root depth' := by
  have hklt := h.dir_lt hdir
  have hpos := h.pos
  have hkn : k ≠ t.nextInode := by omega
  have hdent := erofsRebuildMkdir_dentry t k s
  -- the dentry without its inode, and with an inode that has no dentries
  have hmem : t.nextDentry + 2 ∈ (t.withNull k (t.nextDentry + 2) (.ofName s .unknown 0)
      (t.nextDentry + 3)).subdirs k := mem_withNull.2 (.inr ⟨rfl, rfl⟩)
  have hnull : (t.withNull k (t.nextDentry + 2) (.ofName s .unknown 0)
      (t.nextDentry + 3)).Sound root depth :=
    h.withNull hdir (h.fresh (by omega)) (by omega) (by omega) rfl
  have hmade : (t.emptyDirMade k s).Sound root
      fun j => if j = t.nextInode then depth k + 1 else depth j :=
    hnull.withDir hmem (by rw [withNull_dentry_self]; rfl) hs
  have hdirMade : (t.emptyDirMade k s).IsDir root t.nextInode :=
    withDir_isDir hmem hkn (by change 0 < t.nextInode; omega) hs
  have hfresh : ∀ j f, f ∈ (t.emptyDirMade k s).subdirs j →
      f ≠ t.nextDentry ∧ f ≠ t.nextDentry + 1 := by
    intro j f hf
    rcases mem_emptyDirMade hf with hf | rfl
    · have := (h.alloc j f hf).2
      omega
    · omega
  have hpar : ((t.emptyDirMade k s).inode t.nextInode).iParent = k := by
    change ((if t.nextInode = t.nextInode then _ else _ : TreeInode)).iParent = k
    rw [if_pos rfl]
  refine ⟨_, hmade.addDots (a := t.nextDentry) (b := t.nextDentry + 1) hdirMade
    (fun j => ⟨fun hf => (hfresh j _ hf).1 rfl, fun hf => (hfresh j _ hf).2 rfl⟩) (by omega)
    (by rw [erofsRebuildMkdir_nextDentry]; omega) (by rw [erofsRebuildMkdir_nextDentry]; omega)
    ?_ rfl ?_ ?_ ?_ ?_⟩
  · rw [hpar]
    exact emptyDirMade_keeps hdir.1 hklt
  · intro j
    rw [erofsRebuildMkdir_subdirs t s hklt, emptyDirMade_subdirs, emptyDirMade_subdirs]
    by_cases hj : j = t.nextInode
    · rw [if_pos hj, if_pos hj, if_pos rfl]
      rfl
    · rw [if_neg hj, if_neg hj, if_neg hj]
  · intro j f hf
    obtain ⟨h1, h2⟩ := hfresh j f hf
    rw [hdent]
    by_cases hfe : f = t.nextDentry + 2
    · rw [if_pos hfe, hfe, emptyDirMade_dentry_self]
    · rw [if_neg hfe, if_neg h2, if_neg h1, emptyDirMade_dentry hfe]
  · rw [hdent, if_neg (by omega), if_neg (by omega), if_pos rfl]
  · rw [hdent, if_neg (by omega), if_pos rfl, hpar]

theorem perm (h : t.Sound root depth) (hk : KeepsInodes t t' fun _ => 0)
    (hn : t'.nextInode = t.nextInode) (hnd : t'.nextDentry = t.nextDentry)
    (hd : t'.dentry = t.dentry) (hp : ∀ j, (t'.subdirs j).Perm (t.subdirs j)) :
    t'.Sound root depth := by
  have hmem : ∀ j f, f ∈ t'.subdirs j → f ∈ t.subdirs j := fun j f hf => (hp j).mem_iff.1 hf
  have hmode : ∀ j f, f ∈ t.subdirs j → (t'.inode (t.dentry f).inode).mode =
      (t.inode (t.dentry f).inode).mode := fun j f hf => hk.mode _ (h.bound j f hf).2
  have hlinks : ∀ x, t'.links x = t.links x := by
    intro x
    unfold links
    rw [hn]
    apply Finset.sum_congr rfl
    intro j _
    unfold refsIn
    rw [hd, (hp j).countP_eq]
  constructor
  case root_lt => rw [hn]; exact h.root_lt
  case root_dir => rw [hk.mode _ h.root_lt.2]; exact h.root_dir
  case root_up => rw [hk.parent _ h.root_lt.2]; exact h.root_up
  case bound =>
    intro j f hf
    rw [hn, hd]
    exact h.bound j f (hmem j f hf)
  case alloc =>
    intro j f hf
    rw [hnd]
    exact h.alloc j f (hmem j f hf)
  case pos => rw [hnd]; exact h.pos
  case nodup => exact fun j => (hp j).nodup_iff.2 (h.nodup j)
  case home => exact fun i j f hf hf' => h.home i j f (hmem i f hf) (hmem j f hf')
  case counted =>
    intro j hj hlt
    rw [hn] at hlt
    rw [hk.count j hlt, hlinks]
    exact h.counted j hj hlt
  case linked =>
    intro j hj hlt hm
    rw [hn] at hlt
    rw [hk.mode j hlt] at hm
    rw [hk.nlink j hlt hm, hlinks, h.linked j hj hlt hm]
    exact add_zero _
  case entry =>
    intro j f hf h0
    rw [hd] at h0
    exact h.entryOk_keep hk (hmem j f hf) (by rw [hd]) (h.entry j f (hmem j f hf) h0)
  case single =>
    intro j f g hf hg
    rw [hd]
    exact h.single j f g (hmem j f hf) (hmem j g hg)
  case held =>
    intro j hj
    have hj' : t.subdirs j ≠ [] := by
      intro hnil
      have hpj := hp j
      rw [hnil] at hpj
      exact hj hpj.eq_nil
    obtain ⟨hm, hpos, hor⟩ := h.held j hj'
    have hlt := h.dir_lt ⟨hm, hpos, hor⟩
    refine ⟨(hk.mode j hlt).trans hm, hpos, hor.imp id ?_⟩
    rintro ⟨l, f, hf, hfi⟩
    exact ⟨l, f, (hp l).mem_iff.2 hf, by rwa [hd]⟩
  case depth_lt => rw [hn]; exact h.depth_lt

theorem moveToHead (h : t.Sound root depth) (he : e ∈ t.subdirs k) :
    (t.moveToHead k e).Sound root depth := by
  have hino : ∀ j, (t.moveToHead k e).inode j =
      if j = k then { t.inode k with iSubdirs := e :: (t.subdirs k).erase e } else t.inode j :=
    fun j => setInode_inode _ _ _ j
  have hkeep : KeepsInodes t (t.moveToHead k e) fun _ => 0 := by
    refine ⟨fun j _ => ?_, fun j _ => ?_, fun j _ => ?_, fun j _ _ => ?_, le_rfl, le_rfl⟩
    all_goals
      rw [hino]
      by_cases hj : j = k <;> simp [hj]
  apply h.perm hkeep rfl rfl rfl
  intro j
  rw [moveToHead_subdirs]
  split
  · next hj =>
    rw [hj]
    exact (List.perm_cons_erase he).symm
  · exact List.Perm.refl _

/-- The entry that a lookup leaves for its caller, apart from the directory in it. -/
theorem dalloc (h : t.Sound root depth) (hdir : t.IsDir root k) (s : Name) :
    (((t.erofsDAlloc k s k .unknown).2).setDentryInode t.nextDentry 0).Sound root depth := by
  have hpos := h.pos
  have hino : ∀ j, (((t.erofsDAlloc k s k .unknown).2).setDentryInode t.nextDentry 0).inode j =
      if j = k then { t.inode k with iSubdirs := t.subdirs k ++ [t.nextDentry] }
      else t.inode j := fun j => erofsDAlloc_inode t k s k .unknown j
  have hkeep : KeepsInodes t
      (((t.erofsDAlloc k s k .unknown).2).setDentryInode t.nextDentry 0) fun _ => 0 := by
    refine ⟨fun j _ => ?_, fun j _ => ?_, fun j _ => ?_, fun j _ _ => ?_, le_rfl,
      Nat.le_succ _⟩
    all_goals
      rw [hino]
      by_cases hj : j = k <;> simp [hj]
  apply h.addNull (e := t.nextDentry) hdir hkeep rfl (h.fresh le_rfl) ⟨hpos, Nat.lt_succ_self _⟩
    (fun j => erofsDAlloc_subdirs t k s k .unknown j)
  · intro j f hf
    have := (h.alloc j f hf).2
    rw [setDentryInode_dentry, if_neg (by omega), erofsDAlloc_dentry, if_neg (by omega)]
  · rw [setDentryInode_dentry, if_pos rfl]

end Sound

end TreeHeap

end ErofsUtils
