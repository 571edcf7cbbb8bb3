import Mathlib.Data.List.Nodup
import Mathlib.Data.List.Perm.Basic
import ErofsUtils.RebuildPath

/-!
# What a lookup does to the tree

The invariant of a directory tree, and the three changes that a lookup makes to one: a dentry
moves to the head of its list, a dentry is added for the caller to fill in, or a directory is
made.
-/

namespace ErofsUtils

namespace TreeHeap

def Subdir (t : TreeHeap) (i e : ℕ) : Prop :=
  e ∈ t.subdirs i ∧ (t.dentry e).type = .dir ∧ ¬isDotDotdot (t.dentry e).name

/-- Every dentry refers to an inode and has a name of its own in its directory, the name fits, and
the directories form a tree in which `..` leads back. An entry that is not filled in refers to the
directory that holds it. -/
structure WellFormed (t : TreeHeap) : Prop where
  inodes : ∀ i e, e ∈ t.subdirs i →
    i < t.nextInode ∧ 0 < (t.dentry e).inode ∧ (t.dentry e).inode < t.nextInode
  dentries : ∀ i e, e ∈ t.subdirs i → 0 < e ∧ e < t.nextDentry
  pos : 0 < t.nextDentry
  nodup : ∀ i, (t.subdirs i).Nodup
  unique : ∀ i e e', e ∈ t.subdirs i → e' ∈ t.subdirs i →
    (t.dentry e).name = (t.dentry e').name → e = e'
  up : ∀ i e, t.Subdir i e → (t.inode (t.dentry e).inode).iParent = i
  single : ∀ i e e', t.Subdir i e → t.Subdir i e' →
    (t.dentry e).inode = (t.dentry e').inode → e = e'
  depth : ∃ depth : ℕ → ℕ, ∀ i e, t.Subdir i e → depth (t.dentry e).inode = depth i + 1
  unfilled : ∀ i e, e ∈ t.subdirs i → (t.dentry e).type = .unknown → (t.dentry e).inode = i

/-- No directory holds two dentries of one name. -/
def NamesUnique (t : TreeHeap) : Prop :=
  ∀ i, ((t.subdirs i).map fun e => (t.dentry e).name).Nodup

theorem WellFormed.namesUnique {t : TreeHeap} (h : t.WellFormed) : t.NamesUnique := by
  intro i
  apply List.Nodup.map_on _ (h.nodup i)
  intro e he e' he' hname
  exact h.unique i e e' he he' hname

theorem findDentry_some {t : TreeHeap} {i e : ℕ} {s : Name} (h : t.findDentry i s = some e) :
    e ∈ t.subdirs i ∧ (t.dentry e).name = s := by
  have hmem := List.mem_of_find?_eq_some h
  have hname := List.find?_some h
  exact ⟨hmem, by simpa using hname⟩

theorem findDentry_none {t : TreeHeap} {i : ℕ} {s : Name} (h : t.findDentry i s = none) :
    ∀ e ∈ t.subdirs i, (t.dentry e).name ≠ s := by
  intro e he
  have := List.find?_eq_none.1 h e he
  simpa using this

theorem WellFormed.findDentry_iff {t : TreeHeap} (h : t.WellFormed) {i e : ℕ} {s : Name} :
    t.findDentry i s = some e ↔ e ∈ t.subdirs i ∧ (t.dentry e).name = s := by
  constructor
  · exact findDentry_some
  · rintro ⟨he, hname⟩
    cases hf : t.findDentry i s with
    | none => exact absurd hname (findDentry_none hf e he)
    | some e' =>
      have hf' := findDentry_some hf
      rw [h.unique i e e' he hf'.1 (hname.trans hf'.2.symm)]

/-- The tree `t'` has the dentries of `t`, and at most one more entry: `s` in `pwd`, of the type
`ty`. A new directory holds nothing but `.` and `..`. -/
structure Grows (t t' : TreeHeap) (pwd : ℕ) (s : Name) (ty : FileType) : Prop where
  keep : ∀ i e, e ∈ t.subdirs i → e ∈ t'.subdirs i ∧ t'.dentry e = t.dentry e
  new : ∀ i e, e ∈ t'.subdirs i → e ∈ t.subdirs i ∨
    (i = pwd ∧ (t'.dentry e).name = s ∧ (t'.dentry e).type = ty ∧
      (ty = .dir → t.nextInode ≤ (t'.dentry e).inode)) ∨
    (t.nextInode ≤ i ∧ isDotDotdot (t'.dentry e).name)
  parent : ∀ i, i < t.nextInode → (t'.inode i).iParent = (t.inode i).iParent
  nextInode : t.nextInode ≤ t'.nextInode

theorem Grows.refl (t : TreeHeap) (pwd : ℕ) (s : Name) (ty : FileType) : Grows t t pwd s ty :=
  ⟨fun _ _ he => ⟨he, rfl⟩, fun _ _ he => .inl he, fun _ _ => rfl, le_rfl⟩

/-! ## The single operations -/

theorem setSubdirs_subdirs (t : TreeHeap) (i : ℕ) (ds : List ℕ) (j : ℕ) :
    (t.setSubdirs i ds).subdirs j = if j = i then ds else t.subdirs j := by
  unfold setSubdirs subdirs
  rw [setInode_inode]
  split <;> rfl

theorem setSubdirs_iParent (t : TreeHeap) (i : ℕ) (ds : List ℕ) (j : ℕ) :
    ((t.setSubdirs i ds).inode j).iParent = (t.inode j).iParent := by
  unfold setSubdirs
  rw [setInode_inode]
  split
  · next h => rw [h]
  · rfl

@[simp] theorem setSubdirs_dentry (t : TreeHeap) (i : ℕ) (ds : List ℕ) :
    (t.setSubdirs i ds).dentry = t.dentry := rfl
@[simp] theorem setSubdirs_nextInode (t : TreeHeap) (i : ℕ) (ds : List ℕ) :
    (t.setSubdirs i ds).nextInode = t.nextInode := rfl
@[simp] theorem setSubdirs_nextDentry (t : TreeHeap) (i : ℕ) (ds : List ℕ) :
    (t.setSubdirs i ds).nextDentry = t.nextDentry := rfl

section DAlloc

variable (t : TreeHeap) (parent : ℕ) (s : Name) (inode : ℕ) (type : FileType)

@[simp] theorem erofsDAlloc_fst : (t.erofsDAlloc parent s inode type).1 = t.nextDentry := rfl
@[simp] theorem erofsDAlloc_nextInode :
    (t.erofsDAlloc parent s inode type).2.nextInode = t.nextInode := rfl
@[simp] theorem erofsDAlloc_nextDentry :
    (t.erofsDAlloc parent s inode type).2.nextDentry = t.nextDentry + 1 := rfl

theorem erofsDAlloc_dentry (e : ℕ) : (t.erofsDAlloc parent s inode type).2.dentry e =
    if e = t.nextDentry then .ofName s type inode else t.dentry e :=
  t.setDentry_dentry _ _ e

theorem erofsDAlloc_subdirs (i : ℕ) : (t.erofsDAlloc parent s inode type).2.subdirs i =
    if i = parent then t.subdirs parent ++ [t.nextDentry] else t.subdirs i :=
  setSubdirs_subdirs _ _ _ i

theorem erofsDAlloc_inode (i : ℕ) : (t.erofsDAlloc parent s inode type).2.inode i =
    if i = parent then { t.inode parent with iSubdirs := t.subdirs parent ++ [t.nextDentry] }
      else t.inode i := by
  unfold erofsDAlloc setSubdirs
  rw [setInode_inode]
  split <;> rfl

theorem erofsDAlloc_iParent (i : ℕ) :
    ((t.erofsDAlloc parent s inode type).2.inode i).iParent = (t.inode i).iParent := by
  rw [erofsDAlloc_inode]
  split
  · next h => rw [h]
  · rfl

end DAlloc

/-- A directory made by `mkdir`: its inode, and the dentries of itself and of its parent. -/
theorem erofsRebuildMkdir_inode (t : TreeHeap) {dir : ℕ} (s : Name) (hdir : dir < t.nextInode)
    (i : ℕ) :
    (t.erofsRebuildMkdir dir s).2.inode i =
      if i = t.nextInode then
        ⟨.dir, dir, 2, 2, [t.nextDentry, t.nextDentry + 1], false, false⟩
      else if i = dir then { t.inode dir with
        count := (t.inode dir).count + 1, iSubdirs := t.subdirs dir ++ [t.nextDentry + 2] }
      else t.inode i := by
  have hne : dir ≠ t.nextInode := by omega
  unfold erofsRebuildMkdir erofsNewInode erofsInitEmptyDir erofsIgrab
  simp only [erofsDAlloc_inode, setInode_inode, subdirs, erofsDAlloc_nextDentry,
    setInode_nextDentry]
  by_cases hi : i = t.nextInode
  · subst hi
    simp [hne.symm]
  · by_cases hid : i = dir
    · subst hid
      simp [hi]
    · simp [hi, hid]

theorem erofsRebuildMkdir_dentry (t : TreeHeap) (dir : ℕ) (s : Name) (e : ℕ) :
    (t.erofsRebuildMkdir dir s).2.dentry e =
      if e = t.nextDentry + 2 then .ofName s .dir t.nextInode
      else if e = t.nextDentry + 1 then .ofName dotdotName .dir dir
      else if e = t.nextDentry then .ofName dotName .dir t.nextInode
      else t.dentry e := by
  unfold erofsRebuildMkdir erofsNewInode erofsInitEmptyDir erofsIgrab
  simp only [erofsDAlloc_dentry, setInode_dentry, erofsDAlloc_nextDentry, setInode_nextDentry,
    setInode_inode, erofsDAlloc_inode, if_true, subdirs]

@[simp] theorem erofsRebuildMkdir_fst (t : TreeHeap) (dir : ℕ) (s : Name) :
    (t.erofsRebuildMkdir dir s).1 = t.nextDentry + 2 := rfl
@[simp] theorem erofsRebuildMkdir_nextInode (t : TreeHeap) (dir : ℕ) (s : Name) :
    (t.erofsRebuildMkdir dir s).2.nextInode = t.nextInode + 1 := rfl
@[simp] theorem erofsRebuildMkdir_nextDentry (t : TreeHeap) (dir : ℕ) (s : Name) :
    (t.erofsRebuildMkdir dir s).2.nextDentry = t.nextDentry + 3 := rfl

theorem erofsRebuildMkdir_subdirs (t : TreeHeap) {dir : ℕ} (s : Name) (hdir : dir < t.nextInode)
    (i : ℕ) :
    (t.erofsRebuildMkdir dir s).2.subdirs i =
      if i = t.nextInode then [t.nextDentry, t.nextDentry + 1]
      else if i = dir then t.subdirs dir ++ [t.nextDentry + 2] else t.subdirs i := by
  unfold subdirs
  rw [erofsRebuildMkdir_inode t s hdir]
  split
  · rfl
  split <;> rfl

theorem erofsRebuildMkdir_iParent (t : TreeHeap) {dir : ℕ} (s : Name) (hdir : dir < t.nextInode)
    (i : ℕ) :
    ((t.erofsRebuildMkdir dir s).2.inode i).iParent =
      if i = t.nextInode then dir else (t.inode i).iParent := by
  rw [erofsRebuildMkdir_inode t s hdir]
  split
  · rfl
  split
  · next h => rw [h]
  · rfl

theorem fillEntry_subdirs (t : TreeHeap) {d : ℕ} (mode : FileType)
    (hd : (t.dentry d).inode < t.nextInode) (i : ℕ) :
    (t.fillEntry d mode).subdirs i =
      if i = t.nextInode then
        if mode = .dir then [t.nextDentry, t.nextDentry + 1] else []
      else t.subdirs i := by
  have hne : (t.dentry d).inode ≠ t.nextInode := by omega
  unfold fillEntry erofsNewInode erofsInitEmptyDir erofsIgrab subdirs
  by_cases hm : mode = .dir
  · simp only [if_pos hm, erofsDAlloc_inode, setInode_inode, setDentry_inode, subdirs,
      erofsDAlloc_nextDentry, setInode_nextDentry, setDentry_nextDentry]
    by_cases hi : i = t.nextInode
    · subst hi
      simp [hne.symm]
    · by_cases hip : i = (t.dentry d).inode
      · simp [hip, hne]
      · simp [hi, hip]
  · simp only [if_neg hm, setInode_inode, setDentry_inode]
    split <;> rfl

theorem fillEntry_iParent (t : TreeHeap) {d : ℕ} (mode : FileType)
    (hd : (t.dentry d).inode < t.nextInode) (i : ℕ) :
    ((t.fillEntry d mode).inode i).iParent =
      if i = t.nextInode then (t.dentry d).inode else (t.inode i).iParent := by
  have hne : (t.dentry d).inode ≠ t.nextInode := by omega
  unfold fillEntry erofsNewInode erofsInitEmptyDir erofsIgrab
  by_cases hm : mode = .dir
  · simp only [if_pos hm, erofsDAlloc_inode, setInode_inode, setDentry_inode, subdirs]
    by_cases hi : i = t.nextInode
    · subst hi
      simp [hne.symm]
    · by_cases hip : i = (t.dentry d).inode
      · simp [hip, hne]
      · simp [hi, hip]
  · simp only [if_neg hm, setInode_inode, setDentry_inode]
    split <;> rfl

theorem fillEntry_dentry (t : TreeHeap) {d : ℕ} (mode : FileType) (hd : d < t.nextDentry)
    (e : ℕ) :
    (t.fillEntry d mode).dentry e =
      if e = d then { t.dentry d with type := mode, inode := t.nextInode }
      else if mode = .dir ∧ e = t.nextDentry then .ofName dotName .dir t.nextInode
      else if mode = .dir ∧ e = t.nextDentry + 1 then .ofName dotdotName .dir (t.dentry d).inode
      else t.dentry e := by
  unfold fillEntry erofsNewInode erofsInitEmptyDir erofsIgrab
  by_cases hm : mode = .dir
  · simp only [erofsDAlloc_dentry, setInode_dentry, erofsDAlloc_nextDentry,
      setInode_nextDentry, setDentry_dentry, setDentry_nextDentry, setInode_inode,
      erofsDAlloc_inode, setDentry_inode, if_true, hm, true_and]
    by_cases he : e = d
    · have h1 : d ≠ t.nextDentry := by omega
      have h2 : d ≠ t.nextDentry + 1 := by omega
      simp [he, h1, h2]
    · by_cases h1 : e = t.nextDentry
      · rw [if_neg (by omega), if_pos h1, if_neg he, if_pos h1]
      · simp only [he, h1, if_false]
  · simp only [setInode_dentry, setDentry_dentry, hm, false_and, if_false]

@[simp] theorem fillEntry_nextInode (t : TreeHeap) (d : ℕ) (mode : FileType) :
    (t.fillEntry d mode).nextInode = t.nextInode + 1 := by
  unfold fillEntry erofsNewInode
  by_cases hm : mode = .dir
  · simp only [hm, if_true]
    rfl
  · simp only [hm, if_false]
    rfl

theorem fillEntry_nextDentry (t : TreeHeap) (d : ℕ) (mode : FileType) :
    (t.fillEntry d mode).nextDentry = t.nextDentry + if mode = .dir then 2 else 0 := by
  unfold fillEntry erofsNewInode
  by_cases hm : mode = .dir
  · simp only [hm, if_true]
    rfl
  · simp only [hm, if_false]
    rfl

theorem moveToHead_subdirs (t : TreeHeap) (i e j : ℕ) : (t.moveToHead i e).subdirs j =
    if j = i then e :: (t.subdirs i).erase e else t.subdirs j :=
  setSubdirs_subdirs _ _ _ j

theorem mem_moveToHead {t : TreeHeap} {i e : ℕ} (he : e ∈ t.subdirs i) (j f : ℕ) :
    f ∈ (t.moveToHead i e).subdirs j ↔ f ∈ t.subdirs j := by
  rw [moveToHead_subdirs]
  split
  · next h =>
    subst h
    exact (List.perm_cons_erase he).mem_iff.symm
  · rfl

/-! ## The invariant -/

section Preserve

variable {t : TreeHeap} {i e : ℕ} {s : Name}

theorem WellFormed.moveToHead (h : t.WellFormed) (he : e ∈ t.subdirs i) :
    (t.moveToHead i e).WellFormed where
  inodes j f hf := h.inodes j f ((mem_moveToHead he j f).1 hf)
  dentries j f hf := h.dentries j f ((mem_moveToHead he j f).1 hf)
  pos := h.pos
  nodup j := by
    rw [moveToHead_subdirs]
    split
    · exact (List.perm_cons_erase he).nodup_iff.1 (h.nodup i)
    · exact h.nodup j
  unique j f f' hf hf' := h.unique j f f' ((mem_moveToHead he j f).1 hf)
    ((mem_moveToHead he j f').1 hf')
  up j f hf := (setSubdirs_iParent _ _ _ _).trans
    (h.up j f ⟨(mem_moveToHead he j f).1 hf.1, hf.2⟩)
  single j f f' hf hf' := h.single j f f' ⟨(mem_moveToHead he j f).1 hf.1, hf.2⟩
    ⟨(mem_moveToHead he j f').1 hf'.1, hf'.2⟩
  depth := by
    obtain ⟨depth, hd⟩ := h.depth
    exact ⟨depth, fun j f hf => hd j f ⟨(mem_moveToHead he j f).1 hf.1, hf.2⟩⟩
  unfilled j f hf := h.unfilled j f ((mem_moveToHead he j f).1 hf)

theorem grows_moveToHead (he : e ∈ t.subdirs i) (pwd : ℕ) (s : Name) (ty : FileType) :
    Grows t (t.moveToHead i e) pwd s ty where
  keep j f hf := ⟨(mem_moveToHead he j f).2 hf, rfl⟩
  new j f hf := .inl ((mem_moveToHead he j f).1 hf)
  parent _ _ := setSubdirs_iParent _ _ _ _
  nextInode := le_rfl

theorem mem_dalloc_iff {inode : ℕ} {ty : FileType} (j f : ℕ) :
    f ∈ (t.erofsDAlloc i s inode ty).2.subdirs j ↔
      f ∈ t.subdirs j ∨ j = i ∧ f = t.nextDentry := by
  rw [erofsDAlloc_subdirs]
  split
  · next h => subst h; simp
  · next h => simp [h]

theorem WellFormed.dentry_dalloc (h : t.WellFormed) {inode : ℕ} {ty : FileType} {j f : ℕ}
    (hf : f ∈ t.subdirs j) : (t.erofsDAlloc i s inode ty).2.dentry f = t.dentry f := by
  rw [erofsDAlloc_dentry, if_neg]
  have := (h.dentries j f hf).2
  omega

theorem dentry_dalloc_new (hs : s.length < nameLen) {inode : ℕ} {ty : FileType} :
    (t.erofsDAlloc i s inode ty).2.dentry t.nextDentry = ⟨s, ty, inode, hs⟩ := by
  rw [erofsDAlloc_dentry, if_pos rfl, TreeDentry.ofName_eq hs]

theorem grows_dalloc (h : t.WellFormed) (hs : s.length < nameLen) :
    Grows t (t.erofsDAlloc i s i .unknown).2 i s .unknown where
  keep j f hf := ⟨(mem_dalloc_iff j f).2 (.inl hf), h.dentry_dalloc hf⟩
  new j f hf := by
    rcases (mem_dalloc_iff j f).1 hf with hf | ⟨rfl, rfl⟩
    · exact .inl hf
    · rw [dentry_dalloc_new hs]
      exact .inr (.inl ⟨rfl, rfl, rfl, fun hty => absurd hty (by decide)⟩)
  parent j _ := erofsDAlloc_iParent _ _ _ _ _ _
  nextInode := le_rfl

/-- The entry that a lookup leaves for its caller. -/
theorem WellFormed.dalloc (h : t.WellFormed) (hi : 0 < i ∧ i < t.nextInode)
    (hs : s.length < nameLen) (hnew : ∀ e ∈ t.subdirs i, (t.dentry e).name ≠ s) :
    (t.erofsDAlloc i s i .unknown).2.WellFormed := by
  have hsub : ∀ j f, (t.erofsDAlloc i s i .unknown).2.Subdir j f → t.Subdir j f ∧
      (t.erofsDAlloc i s i .unknown).2.dentry f = t.dentry f := by
    rintro j f ⟨hf, hty, hn⟩
    rcases (mem_dalloc_iff j f).1 hf with hf | ⟨rfl, rfl⟩
    · rw [h.dentry_dalloc hf] at hty hn
      exact ⟨⟨hf, hty, hn⟩, h.dentry_dalloc hf⟩
    · rw [dentry_dalloc_new hs] at hty
      exact absurd hty (by simp)
  constructor
  case inodes =>
    intro j f hf
    rcases (mem_dalloc_iff j f).1 hf with hf | ⟨rfl, rfl⟩
    · rw [h.dentry_dalloc hf]
      exact h.inodes j f hf
    · rw [dentry_dalloc_new hs]
      exact ⟨hi.2, hi⟩
  case dentries =>
    intro j f hf
    have hpos := h.pos
    rw [erofsDAlloc_nextDentry]
    rcases (mem_dalloc_iff j f).1 hf with hf | ⟨rfl, rfl⟩
    · have := h.dentries j f hf
      omega
    · omega
  case pos => exact Nat.succ_pos _
  case nodup =>
    intro j
    rw [erofsDAlloc_subdirs]
    split
    · apply List.Nodup.append (h.nodup i) (List.nodup_singleton _)
      intro f hf hf'
      rw [List.mem_singleton] at hf'
      have := (h.dentries i f hf).2
      omega
    · exact h.nodup j
  case unique =>
    intro j f f' hf hf' hname
    rcases (mem_dalloc_iff j f).1 hf with ho | ⟨hj, rfl⟩ <;>
      rcases (mem_dalloc_iff j f').1 hf' with ho' | ⟨hj', rfl⟩
    · rw [h.dentry_dalloc ho, h.dentry_dalloc ho'] at hname
      exact h.unique j f f' ho ho' hname
    · subst hj'
      rw [h.dentry_dalloc ho, dentry_dalloc_new hs] at hname
      exact absurd hname (hnew f ho)
    · subst hj
      rw [h.dentry_dalloc ho', dentry_dalloc_new hs] at hname
      exact absurd hname.symm (hnew f' ho')
    · rfl
  case up =>
    intro j f hf
    obtain ⟨hf, hd⟩ := hsub j f hf
    rw [hd, erofsDAlloc_iParent]
    exact h.up j f hf
  case single =>
    intro j f f' hf hf' hino
    obtain ⟨hf, hd⟩ := hsub j f hf
    obtain ⟨hf', hd'⟩ := hsub j f' hf'
    rw [hd, hd'] at hino
    exact h.single j f f' hf hf' hino
  case depth =>
    obtain ⟨depth, hdepth⟩ := h.depth
    refine ⟨depth, fun j f hf => ?_⟩
    obtain ⟨hf, hd⟩ := hsub j f hf
    rw [hd]
    exact hdepth j f hf
  case unfilled =>
    intro j f hf hty
    rcases (mem_dalloc_iff j f).1 hf with hf | ⟨rfl, rfl⟩
    · rw [h.dentry_dalloc hf] at hty ⊢
      exact h.unfilled j f hf hty
    · rw [dentry_dalloc_new hs]

theorem mem_mkdir_iff (h : t.WellFormed) (hi : i < t.nextInode) (j f : ℕ) :
    f ∈ (t.erofsRebuildMkdir i s).2.subdirs j ↔
      f ∈ t.subdirs j ∨ (j = i ∧ f = t.nextDentry + 2) ∨
        (j = t.nextInode ∧ (f = t.nextDentry ∨ f = t.nextDentry + 1)) := by
  rw [erofsRebuildMkdir_subdirs t s hi]
  by_cases hj : j = t.nextInode
  · subst hj
    have hno : f ∉ t.subdirs t.nextInode := fun hf => absurd (h.inodes _ f hf).1 (lt_irrefl _)
    have hne : t.nextInode ≠ i := by omega
    simp [hno, hne]
  · by_cases hji : j = i
    · subst hji
      simp [hj]
    · simp [hj, hji]

theorem WellFormed.dentry_mkdir (h : t.WellFormed) {j f : ℕ} (hf : f ∈ t.subdirs j) :
    (t.erofsRebuildMkdir i s).2.dentry f = t.dentry f := by
  have := (h.dentries j f hf).2
  rw [erofsRebuildMkdir_dentry, if_neg (by omega), if_neg (by omega), if_neg (by omega)]

theorem dentry_mkdir_new (hs : s.length < nameLen) :
    (t.erofsRebuildMkdir i s).2.dentry (t.nextDentry + 2) = ⟨s, .dir, t.nextInode, hs⟩ := by
  rw [erofsRebuildMkdir_dentry, if_pos rfl, TreeDentry.ofName_eq hs]

theorem dentry_mkdir_dot :
    (t.erofsRebuildMkdir i s).2.dentry t.nextDentry = ⟨dotName, .dir, t.nextInode, by decide⟩ := by
  rw [erofsRebuildMkdir_dentry, if_neg (by omega), if_neg (by omega), if_pos rfl]
  rfl

theorem dentry_mkdir_dotdot :
    (t.erofsRebuildMkdir i s).2.dentry (t.nextDentry + 1) = ⟨dotdotName, .dir, i, by decide⟩ := by
  rw [erofsRebuildMkdir_dentry, if_neg (by omega), if_pos rfl]
  rfl

theorem grows_mkdir (h : t.WellFormed) (hi : i < t.nextInode) (hs : s.length < nameLen) :
    Grows t (t.erofsRebuildMkdir i s).2 i s .dir where
  keep j f hf := ⟨(mem_mkdir_iff h hi j f).2 (.inl hf), h.dentry_mkdir hf⟩
  new j f hf := by
    rcases (mem_mkdir_iff h hi j f).1 hf with hf | ⟨rfl, rfl⟩ | ⟨rfl, rfl | rfl⟩
    · exact .inl hf
    · rw [dentry_mkdir_new hs]
      exact .inr (.inl ⟨rfl, rfl, rfl, fun _ => le_rfl⟩)
    · rw [dentry_mkdir_dot]
      exact .inr (.inr ⟨le_rfl, .inl rfl⟩)
    · rw [dentry_mkdir_dotdot]
      exact .inr (.inr ⟨le_rfl, .inr rfl⟩)
  parent j hj := by rw [erofsRebuildMkdir_iParent t s hi, if_neg (by omega)]
  nextInode := by rw [erofsRebuildMkdir_nextInode]; omega

theorem subdir_mkdir (h : t.WellFormed) (hi : i < t.nextInode) (hs : s.length < nameLen)
    {j f : ℕ} (hf : (t.erofsRebuildMkdir i s).2.Subdir j f) :
    (t.Subdir j f ∧ (t.erofsRebuildMkdir i s).2.dentry f = t.dentry f) ∨
      (j = i ∧ f = t.nextDentry + 2 ∧
        (t.erofsRebuildMkdir i s).2.dentry f = ⟨s, .dir, t.nextInode, hs⟩) := by
  obtain ⟨hf, hty, hn⟩ := hf
  rcases (mem_mkdir_iff h hi j f).1 hf with hf | ⟨rfl, rfl⟩ | ⟨rfl, rfl | rfl⟩
  · rw [h.dentry_mkdir hf] at hty hn
    exact .inl ⟨⟨hf, hty, hn⟩, h.dentry_mkdir hf⟩
  · exact .inr ⟨rfl, rfl, dentry_mkdir_new hs⟩
  · rw [dentry_mkdir_dot] at hn
    exact absurd (.inl rfl) hn
  · rw [dentry_mkdir_dotdot] at hn
    exact absurd (.inr rfl) hn

theorem WellFormed.mkdir (h : t.WellFormed) (hi : 0 < i ∧ i < t.nextInode)
    (hs : s.length < nameLen) (hnew : ∀ e ∈ t.subdirs i, (t.dentry e).name ≠ s) :
    (t.erofsRebuildMkdir i s).2.WellFormed := by
  have hmem := mem_mkdir_iff (s := s) h hi.2
  constructor
  case inodes =>
    intro j f hf
    rw [erofsRebuildMkdir_nextInode]
    rcases (hmem j f).1 hf with hf | ⟨rfl, rfl⟩ | ⟨rfl, rfl | rfl⟩
    · rw [h.dentry_mkdir hf]
      have := h.inodes j f hf
      omega
    · rw [dentry_mkdir_new hs]
      exact ⟨by omega, by change 0 < t.nextInode; omega, Nat.lt_succ_self _⟩
    · rw [dentry_mkdir_dot]
      exact ⟨by omega, by change 0 < t.nextInode; omega, Nat.lt_succ_self _⟩
    · rw [dentry_mkdir_dotdot]
      exact ⟨by omega, hi.1, by change i < t.nextInode + 1; omega⟩
  case dentries =>
    intro j f hf
    have hpos := h.pos
    rw [erofsRebuildMkdir_nextDentry]
    rcases (hmem j f).1 hf with hf | ⟨rfl, rfl⟩ | ⟨rfl, rfl | rfl⟩
    · have := h.dentries j f hf
      omega
    · omega
    · omega
    · omega
  case pos => exact Nat.succ_pos _
  case nodup =>
    intro j
    rw [erofsRebuildMkdir_subdirs t s hi.2]
    split
    · simp
    split
    · apply List.Nodup.append (h.nodup i) (List.nodup_singleton _)
      intro f hf hf'
      rw [List.mem_singleton] at hf'
      have := (h.dentries i f hf).2
      omega
    · exact h.nodup j
  case unique =>
    have hne : i ≠ t.nextInode := by omega
    have hold : ∀ f, f ∉ t.subdirs t.nextInode := fun f hf =>
      absurd (h.inodes _ f hf).1 (lt_irrefl _)
    intro j f f' hf hf' hname
    rcases (hmem j f).1 hf with ho | ⟨hj, rfl⟩ | ⟨hj, hk⟩
    · rcases (hmem j f').1 hf' with ho' | ⟨hj', rfl⟩ | ⟨hj', -⟩
      · rw [h.dentry_mkdir ho, h.dentry_mkdir ho'] at hname
        exact h.unique j f f' ho ho' hname
      · subst hj'
        rw [h.dentry_mkdir ho, dentry_mkdir_new hs] at hname
        exact absurd hname (hnew f ho)
      · rw [hj'] at ho
        exact absurd ho (hold f)
    · rcases (hmem j f').1 hf' with ho' | ⟨-, rfl⟩ | ⟨hj', -⟩
      · subst hj
        rw [h.dentry_mkdir ho', dentry_mkdir_new hs] at hname
        exact absurd hname.symm (hnew f' ho')
      · rfl
      · exact absurd (hj.symm.trans hj') hne
    · rcases (hmem j f').1 hf' with ho' | ⟨hj', -⟩ | ⟨-, hk'⟩
      · rw [hj] at ho'
        exact absurd ho' (hold f')
      · exact absurd (hj'.symm.trans hj) hne
      · rcases hk with rfl | rfl <;> rcases hk' with rfl | rfl
        · rfl
        · rw [dentry_mkdir_dot, dentry_mkdir_dotdot] at hname
          exact absurd hname (by simp [dotName, dotdotName])
        · rw [dentry_mkdir_dot, dentry_mkdir_dotdot] at hname
          exact absurd hname (by simp [dotName, dotdotName])
        · rfl
  case up =>
    intro j f hf
    rw [erofsRebuildMkdir_iParent t s hi.2]
    rcases subdir_mkdir h hi.2 hs hf with ⟨hf, hd⟩ | ⟨rfl, -, hd⟩
    · rw [hd, if_neg (ne_of_lt (h.inodes j f hf.1).2.2)]
      exact h.up j f hf
    · rw [hd, if_pos rfl]
  case single =>
    intro j f f' hf hf' hino
    rcases subdir_mkdir h hi.2 hs hf with ⟨hf, hd⟩ | ⟨rfl, rfl, hd⟩ <;>
      rcases subdir_mkdir h hi.2 hs hf' with ⟨hf', hd'⟩ | ⟨-, rfl, hd'⟩
    · rw [hd, hd'] at hino
      exact h.single j f f' hf hf' hino
    · rw [hd, hd'] at hino
      exact absurd hino (ne_of_lt (h.inodes j f hf.1).2.2)
    · rw [hd, hd'] at hino
      exact absurd hino.symm (ne_of_lt (h.inodes j f' hf'.1).2.2)
    · rfl
  case depth =>
    obtain ⟨depth, hdepth⟩ := h.depth
    refine ⟨fun k => if k = t.nextInode then depth i + 1 else depth k, fun j f hf => ?_⟩
    rcases subdir_mkdir h hi.2 hs hf with ⟨hf, hd⟩ | ⟨rfl, -, hd⟩
    · have hlt := h.inodes j f hf.1
      rw [hd]
      simp only [if_neg (ne_of_lt hlt.2.2), if_neg (ne_of_lt hlt.1)]
      exact hdepth j f hf
    · rw [hd]
      simp only [if_true, if_neg (ne_of_lt hi.2)]
  case unfilled =>
    intro j f hf hty
    rcases (hmem j f).1 hf with hf | ⟨rfl, rfl⟩ | ⟨rfl, rfl | rfl⟩
    · rw [h.dentry_mkdir hf] at hty ⊢
      exact h.unfilled j f hf hty
    · rw [dentry_mkdir_new hs] at hty
      exact absurd hty (by simp)
    · rw [dentry_mkdir_dot] at hty
      exact absurd hty (by simp)
    · rw [dentry_mkdir_dotdot] at hty
      exact absurd hty (by simp)

section Fill

variable {d : ℕ} {mode : FileType} (h : t.WellFormed) (hd : d ∈ t.subdirs i)

include h hd

theorem WellFormed.mem_fill {j f : ℕ} (hj : j ≠ t.nextInode)
    (hf : f ∈ (t.fillEntry d mode).subdirs j) : f ∈ t.subdirs j := by
  rwa [fillEntry_subdirs t mode (h.inodes i d hd).2.2, if_neg hj] at hf

theorem WellFormed.dentry_fill {j f : ℕ} (hf : f ∈ t.subdirs j) (hfd : f ≠ d) :
    (t.fillEntry d mode).dentry f = t.dentry f := by
  have := (h.dentries j f hf).2
  rw [fillEntry_dentry t mode (h.dentries i d hd).2, if_neg hfd, if_neg (by omega),
    if_neg (by omega)]

theorem WellFormed.dentry_fill_self : (t.fillEntry d mode).dentry d =
    { t.dentry d with type := mode, inode := t.nextInode } := by
  rw [fillEntry_dentry t mode (h.dentries i d hd).2, if_pos rfl]

theorem WellFormed.name_fill {j f : ℕ} (hf : f ∈ t.subdirs j) :
    ((t.fillEntry d mode).dentry f).name = (t.dentry f).name := by
  by_cases hfd : f = d
  · rw [hfd, h.dentry_fill_self hd]
  · rw [h.dentry_fill hd hf hfd]

variable (hty : (t.dentry d).type = .unknown)

include hty

/-- The only entries of the new inode are `.` and `..` of a directory. -/
theorem WellFormed.fill_new {f : ℕ} (hf : f ∈ (t.fillEntry d mode).subdirs t.nextInode) :
    mode = .dir ∧ (f = t.nextDentry ∧ (t.fillEntry d mode).dentry f =
        ⟨dotName, .dir, t.nextInode, by decide⟩ ∨
      f = t.nextDentry + 1 ∧ (t.fillEntry d mode).dentry f = ⟨dotdotName, .dir, i, by decide⟩) := by
  have hdlt := (h.dentries i d hd).2
  have hdent := fillEntry_dentry t mode hdlt
  rw [fillEntry_subdirs t mode (h.inodes i d hd).2.2, if_pos rfl] at hf
  by_cases hm : mode = .dir
  · rw [if_pos hm] at hf
    refine ⟨hm, ?_⟩
    have hf : f = t.nextDentry ∨ f = t.nextDentry + 1 := by simpa using hf
    rcases hf with rfl | rfl
    · refine .inl ⟨rfl, ?_⟩
      rw [hdent, if_neg (by omega), if_pos ⟨hm, rfl⟩]
      rfl
    · refine .inr ⟨rfl, ?_⟩
      rw [hdent, if_neg (by omega), if_neg (by omega), if_pos ⟨hm, rfl⟩, h.unfilled i d hd hty]
      rfl
  · rw [if_neg hm] at hf
    exact absurd hf List.not_mem_nil

theorem WellFormed.fill_home {j : ℕ} (hj : d ∈ t.subdirs j) : j = i :=
  (h.unfilled j d hj hty).symm.trans (h.unfilled i d hd hty)

/-- A directory entry is an old one, or the one that is filled in. -/
theorem WellFormed.subdir_fill {j f : ℕ} (hf : (t.fillEntry d mode).Subdir j f) :
    f ∈ t.subdirs j ∧ (f = d ∨
      (t.Subdir j f ∧ (t.fillEntry d mode).dentry f = t.dentry f)) := by
  obtain ⟨hf, hfty, hfn⟩ := hf
  by_cases hj : j = t.nextInode
  · subst hj
    rcases (h.fill_new hd hty hf).2 with ⟨-, he⟩ | ⟨-, he⟩
    · rw [he] at hfn
      exact absurd (.inl rfl) hfn
    · rw [he] at hfn
      exact absurd (.inr rfl) hfn
  have hfo := h.mem_fill hd hj hf
  refine ⟨hfo, ?_⟩
  by_cases hfd : f = d
  · exact .inl hfd
  · have he := @WellFormed.dentry_fill t i d mode h hd j f hfo hfd
    rw [he] at hfty hfn
    exact .inr ⟨⟨hfo, hfty, hfn⟩, he⟩

theorem WellFormed.fill_unique {j f f' : ℕ} (hf : f ∈ (t.fillEntry d mode).subdirs j)
    (hf' : f' ∈ (t.fillEntry d mode).subdirs j)
    (hnm : ((t.fillEntry d mode).dentry f).name = ((t.fillEntry d mode).dentry f').name) :
    f = f' := by
  by_cases hj : j = t.nextInode
  · subst hj
    rcases (h.fill_new hd hty hf).2 with ⟨rfl, he⟩ | ⟨rfl, he⟩ <;>
      rcases (h.fill_new hd hty hf').2 with ⟨rfl, he'⟩ | ⟨rfl, he'⟩
    · rfl
    · rw [he, he'] at hnm
      exact absurd hnm (by simp [dotName, dotdotName])
    · rw [he, he'] at hnm
      exact absurd hnm (by simp [dotName, dotdotName])
    · rfl
  · have hfo := h.mem_fill hd hj hf
    have hfo' := h.mem_fill hd hj hf'
    rw [h.name_fill hd hfo, h.name_fill hd hfo'] at hnm
    exact h.unique j f f' hfo hfo' hnm

theorem WellFormed.fill_single {j f f' : ℕ} (hf : (t.fillEntry d mode).Subdir j f)
    (hf' : (t.fillEntry d mode).Subdir j f')
    (hin : ((t.fillEntry d mode).dentry f).inode = ((t.fillEntry d mode).dentry f').inode) :
    f = f' := by
  have hself := @WellFormed.dentry_fill_self t i d mode h hd
  obtain ⟨hfo, hfd | ⟨hfs, he⟩⟩ := h.subdir_fill hd hty hf <;>
    obtain ⟨hfo', hfd' | ⟨hfs', he'⟩⟩ := h.subdir_fill hd hty hf'
  · rw [hfd, hfd']
  · rw [hfd, hself, he'] at hin
    exact absurd hin.symm (ne_of_lt (h.inodes j f' hfo').2.2)
  · rw [hfd', hself, he] at hin
    exact absurd hin (ne_of_lt (h.inodes j f hfo).2.2)
  · rw [he, he'] at hin
    exact h.single j f f' hfs hfs' hin

theorem WellFormed.fill (hmode : mode ≠ .unknown) : (t.fillEntry d mode).WellFormed := by
  have hino := h.inodes i d hd
  have hpar := h.unfilled i d hd hty
  have hself := @WellFormed.dentry_fill_self t i d mode h hd
  constructor
  case inodes =>
    intro j f hf
    rw [fillEntry_nextInode]
    by_cases hj : j = t.nextInode
    · subst hj
      rcases (h.fill_new hd hty hf).2 with ⟨-, he⟩ | ⟨-, he⟩
      · rw [he]
        exact ⟨Nat.lt_succ_self _, by change 0 < t.nextInode; omega, Nat.lt_succ_self _⟩
      · rw [he]
        exact ⟨Nat.lt_succ_self _, by change 0 < i; omega, by change i < t.nextInode + 1; omega⟩
    have hfo := h.mem_fill hd hj hf
    have hb := h.inodes j f hfo
    by_cases hfd : f = d
    · rw [hfd, hself]
      exact ⟨by omega, by change 0 < t.nextInode; omega, Nat.lt_succ_self _⟩
    · rw [h.dentry_fill hd hfo hfd]
      omega
  case dentries =>
    intro j f hf
    rw [fillEntry_nextDentry]
    by_cases hj : j = t.nextInode
    · subst hj
      obtain ⟨hm, hfe⟩ := h.fill_new hd hty hf
      have hpos := h.pos
      rw [if_pos hm]
      rcases hfe with ⟨rfl, -⟩ | ⟨rfl, -⟩ <;> omega
    · have := h.dentries j f (h.mem_fill hd hj hf)
      omega
  case pos =>
    have := h.pos
    rw [fillEntry_nextDentry]
    omega
  case nodup =>
    intro j
    rw [fillEntry_subdirs t mode hino.2.2]
    split
    · split <;> simp
    · exact h.nodup j
  case unique => exact fun j f f' hf hf' hnm => h.fill_unique hd hty hf hf' hnm
  case up =>
    intro j f hf
    rw [fillEntry_iParent t mode hino.2.2]
    obtain ⟨hfo, rfl | ⟨hfs, he⟩⟩ := h.subdir_fill hd hty hf
    · rw [hself, if_pos rfl, hpar]
      exact (h.fill_home hd hty hfo).symm
    · rw [he, if_neg (ne_of_lt (h.inodes j f hfo).2.2)]
      exact h.up j f hfs
  case single => exact fun j f f' hf hf' hin => h.fill_single hd hty hf hf' hin
  case depth =>
    obtain ⟨depth, hdepth⟩ := h.depth
    refine ⟨fun k => if k = t.nextInode then depth i + 1 else depth k, fun j f hf => ?_⟩
    obtain ⟨hfo, rfl | ⟨hfs, he⟩⟩ := h.subdir_fill hd hty hf
    · rw [hself]
      simp only [if_true, if_neg (ne_of_lt (h.inodes j f hfo).1)]
      rw [h.fill_home hd hty hfo]
    · have hlt := h.inodes j f hfo
      rw [he]
      simp only [if_neg (ne_of_lt hlt.2.2), if_neg (ne_of_lt hlt.1)]
      exact hdepth j f hfs
  case unfilled =>
    intro j f hf hfty
    by_cases hj : j = t.nextInode
    · subst hj
      rcases (h.fill_new hd hty hf).2 with ⟨-, he⟩ | ⟨-, he⟩
      · rw [he] at hfty
        exact absurd hfty (by simp)
      · rw [he] at hfty
        exact absurd hfty (by simp)
    have hfo := h.mem_fill hd hj hf
    by_cases hfd : f = d
    · rw [hfd, hself] at hfty
      exact absurd hfty hmode
    · rw [h.dentry_fill hd hfo hfd] at hfty ⊢
      exact h.unfilled j f hfo hfty

end Fill

end Preserve

theorem makeRoot_subdirs (i : ℕ) :
    erofsRebuildMakeRoot.subdirs i = if i = 1 then [1, 2] else [] := by
  unfold erofsRebuildMakeRoot erofsNewInode erofsInitEmptyDir erofsIgrab subdirs
  simp only [erofsDAlloc_inode, setInode_inode, subdirs]
  by_cases hi : i = 1 <;> simp [hi]

end TreeHeap

end ErofsUtils
