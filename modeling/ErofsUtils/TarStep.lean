import ErofsUtils.TarSound

/-!
# One entry of an archive

What each branch of `tarerofs_parse_tar` makes of a tree that is in order.
-/

namespace ErofsUtils

open TreeHeap

/-- The entry is an error, or it leaves a tree with `P`; `NULL` is not dereferenced. -/
def TarOutcome.Leaves (P : TreeHeap → Prop) : TarOutcome → Prop
  | .ok t => P t
  | .error _ => True
  | .fault => False

theorem TarOutcome.Leaves.imp {P Q : TreeHeap → Prop} {r : TarOutcome} (h : r.Leaves P)
    (hpq : ∀ t, P t → Q t) : r.Leaves Q := by
  cases r with
  | ok t => exact hpq t h
  | error err => trivial
  | fault => exact h

section Fill

variable {t u v : TreeHeap} {root d k e : ℕ}

/-- The dentry gets an inode that exists: `d2` of a hard link. -/
theorem tarTree_link (hole : TarHole u root d) (hn : ¬isDotDotdot (u.dentry d).name)
    (hext : Extends u v) {depth : ℕ → ℕ} (hs : v.Sound root depth) (he : v.Attached e)
    (hm : (v.inode (v.dentry e).inode).mode ≠ .dir)
    (ht : t = ((v.erofsIgrab (v.dentry e).inode).setDentry d
      { (v.erofsIgrab (v.dentry e).inode).dentry d with
        inode := (v.dentry e).inode
        type := ((v.erofsIgrab (v.dentry e).inode).dentry e).type }).incNlink (v.dentry e).inode) :
    TarTree t root ∧ e ≠ d ∧ t.dentry e = v.dentry e ∧
      (t.dentry d).inode = (v.dentry e).inode ∧ t.Attached e ∧ t.Attached d ∧
      (t.inode (t.dentry d).inode).mode ≠ .dir := by
  obtain ⟨depth₀, hs₀⟩ := hole.sound
  obtain ⟨k, hk⟩ := hole.mem
  obtain ⟨j, hej, he0⟩ := he
  obtain ⟨hkv, hdv⟩ := hext.keep k d hk
  have hd0 : (v.dentry d).inode = 0 := by rw [hdv, hole.zero]
  have hed : e ≠ d := by
    rintro rfl
    exact he0 hd0
  have hok := hs.entry j e hej he0
  have hb := hs.bound j e hej
  generalize hi : (v.dentry e).inode = i at *
  have hino : ∀ l, t.inode l = if l = i then { v.inode i with
      count := (v.inode i).count + 1, nlink := (v.inode i).nlink + 1 } else v.inode l := by
    intro l
    rw [ht]
    unfold incNlink erofsIgrab
    simp only [setInode_inode, setDentry_inode, if_true]
    split
    · rfl
    · rfl
  have hdent : ∀ f, t.dentry f = if f = d then { v.dentry d with
      inode := i, type := (v.dentry e).type } else v.dentry f := by
    intro f
    rw [ht]
    exact setDentry_dentry _ _ _ f
  have hsub : ∀ l, t.subdirs l = v.subdirs l := by
    intro l
    unfold subdirs
    rw [hino]
    split
    · next hl => rw [hl]
    · rfl
  have hmode : ∀ l, (t.inode l).mode = (v.inode l).mode := by
    intro l
    rw [hino]
    split
    · next hl => rw [hl]
    · rfl
  have hkeep : KeepsInodes v t fun l => if l = i then 1 else 0 := by
    refine ⟨fun l _ => hmode l, fun l _ => ?_, fun l _ => ?_, fun l _ _ => ?_, ?_, ?_⟩
    · rw [hino]
      split
      · next hl => rw [hl]
      · rfl
    · rw [hino]
      split
      · next hl => rw [hl]
      · rfl
    · rw [hino]
      split
      · next hl =>
        rw [hl]
        rfl
      · exact (add_zero _).symm
    · rw [ht]
      exact le_rfl
    · rw [ht]
      exact le_rfl
  have hdd : t.dentry d = { v.dentry d with inode := i, type := (v.dentry e).type } := by
    rw [hdent, if_pos rfl]
  have hnd : ¬isDotDotdot (t.dentry d).name := by
    rw [hdd]
    change ¬isDotDotdot (v.dentry d).name
    rw [hdv]
    exact hn
  have htype : (t.dentry d).type = (v.inode i).mode := by
    rw [hdd]
    change (v.dentry e).type = _
    rw [hok.type, hi]
  have hsound : t.Sound root depth := by
    apply hs.link hkv hd0 ⟨Nat.pos_of_ne_zero he0, hb.2⟩ hkeep (by rw [ht]; rfl) hsub
    · intro l f _ hf
      rw [hdent, if_neg hf]
    · rw [hdd]
    · refine ⟨?_, ?_, fun h => absurd (.inl h) hnd, fun h => absurd (.inr h) hnd,
        fun h => absurd h hnd, fun _ hty => ?_⟩
      · rw [htype, hdd, hmode]
      · rw [hdd]
        exact hok.known
      · rw [htype] at hty
        exact absurd hty hm
    · intro _
      rw [htype]
      exact hm
  have hfull : ∀ l f, f ∈ t.subdirs l → (t.dentry f).inode ≠ 0 := by
    intro l f hf
    rw [hsub] at hf
    rw [hdent]
    split
    · exact he0
    · next hfd => exact full_extends (P := fun f => f ≠ d) hole.full hext l f hf hfd
  have hdotv := dotted_extends hole.dotted hs₀ hs hext
  refine ⟨⟨⟨depth, hsound⟩, hfull, ?_⟩, hed, by rw [hdent, if_neg hed], by rw [hdd],
    ⟨j, by rwa [hsub], by rw [hdent, if_neg hed, hi]; exact he0⟩,
    ⟨k, by rwa [hsub], by rw [hdd]; exact he0⟩, by rw [hdd, hmode]; exact hm⟩
  rintro l ⟨hml, hpos, hor⟩
  have hl : v.IsDir root l := by
    refine ⟨(hmode l).symm.trans hml, hpos, hor.imp id ?_⟩
    rintro ⟨c, f, hf, hfi, hfn⟩
    have hfd : f ≠ d := by
      rintro rfl
      rw [hdd] at hfi
      rw [← hfi, hmode] at hml
      exact hm hml
    rw [hsub] at hf
    rw [hdent, if_neg hfd] at hfi hfn
    exact ⟨c, f, hf, hfi, hfn⟩
  obtain ⟨f, hf, hfn, hf0⟩ := hdotv l hl
  have hfd : f ≠ d := by
    rintro rfl
    exact hf0 hd0
  exact ⟨f, by rwa [hsub], by rwa [hdent, if_neg hfd], by rwa [hdent, if_neg hfd]⟩

theorem hole_attach (hole : TarHole v root d) (hd : d ∈ v.subdirs k)
    (hn : ¬isDotDotdot (v.dentry d).name) {m : FileType} (hm : m ≠ .unknown)
    (hkeep : KeepsInodes v t fun _ => 0) (hnext : t.nextInode = v.nextInode + 1)
    (hsub : ∀ j, t.subdirs j = if j = v.nextInode then [] else v.subdirs j)
    (hdent : ∀ f, t.dentry f = if f = d then { v.dentry d with
      type := m, inode := v.nextInode } else v.dentry f)
    (hmode : (t.inode v.nextInode).mode = m) (hcount : (t.inode v.nextInode).count = 1)
    (hnlink : m ≠ .dir → (t.inode v.nextInode).nlink = 1)
    (hparent : m = .dir → (t.inode v.nextInode).iParent = k) :
    (∃ depth, t.Sound root depth) ∧ (∀ i e, e ∈ t.subdirs i → (t.dentry e).inode ≠ 0) ∧
      (∀ i, t.IsDir root i → i ≠ v.nextInode → t.HasDotdot i) ∧ t.subdirs v.nextInode = [] ∧
      (m = .dir → t.IsDir root v.nextInode) := by
  obtain ⟨depth, hs⟩ := hole.sound
  have hdd : t.dentry d = { v.dentry d with type := m, inode := v.nextInode } := by
    rw [hdent, if_pos rfl]
  have hpos : 0 < v.nextInode := by
    have := hs.root_lt
    omega
  have hnil : v.subdirs v.nextInode = [] := by
    apply List.eq_nil_iff_forall_not_mem.2
    intro f hf
    exact lt_irrefl _ (hs.bound _ f hf).1
  have hsub' : ∀ j, t.subdirs j = v.subdirs j := by
    intro j
    rw [hsub]
    split
    · next hj => rw [hj, hnil]
    · rfl
  have hnd : ¬isDotDotdot (t.dentry d).name := by
    rw [hdd]
    exact hn
  refine ⟨⟨_, @Sound.attach v t root depth k d hs hd hole.zero hkeep hnext hsub (fun j f _ hf => by
      rw [hdent, if_neg hf]) (by rw [hdd]) hnd (by rw [hdd, hmode]) (by rw [hdd]; exact hm)
      hcount (fun hno => hnlink (by rw [hdd] at hno; exact hno))
      (fun hty => hparent (by rw [hdd] at hty; exact hty))⟩, ?_, ?_, ?_, ?_⟩
  · intro i f hf
    rw [hsub'] at hf
    rw [hdent]
    split
    · exact Nat.ne_of_gt hpos
    · next hfd => exact hole.full i f hf hfd
  · rintro i ⟨hmi, hipos, hor⟩ hne
    have hi : v.IsDir root i := by
      rcases hor with rfl | ⟨j, f, hf, hfi, hfn⟩
      · exact ⟨hs.root_dir, hipos, .inl rfl⟩
      · have hfd : f ≠ d := by
          rintro rfl
          rw [hdd] at hfi
          exact hne hfi.symm
        rw [hsub'] at hf
        rw [hdent, if_neg hfd] at hfi hfn
        have hb := (hs.bound j f hf).2
        refine ⟨?_, hipos, .inr ⟨j, f, hf, hfi, hfn⟩⟩
        rw [← hkeep.mode i (by omega)]
        exact hmi
    obtain ⟨f, hf, hfn, hf0⟩ := hole.dotted i hi
    have hfd : f ≠ d := by
      rintro rfl
      exact hf0 hole.zero
    exact ⟨f, by rwa [hsub'], by rwa [hdent, if_neg hfd], by rwa [hdent, if_neg hfd]⟩
  · rw [hsub', hnil]
  · intro hty
    exact ⟨hmode.trans hty, hpos, .inr ⟨k, d, by rwa [hsub'], by rw [hdd], hnd⟩⟩

theorem tarTree_initEmptyDir {i : ℕ} {depth : ℕ → ℕ} (hs : t.Sound root depth)
    (hdir : t.IsDir root i)
    (hfull : ∀ i e, e ∈ t.subdirs i → (t.dentry e).inode ≠ 0)
    (hdot : ∀ j, t.IsDir root j → j ≠ i → t.HasDotdot j) :
    TarTree (t.erofsInitEmptyDir i) root := by
  have hpdir := hs.isDir_parent hdir
  have hmode : ∀ j, ((t.erofsInitEmptyDir i).inode j).mode = (t.inode j).mode := by
    intro j
    rw [Sound.initEmptyDir_inode]
  have hsub : ∀ j, (t.erofsInitEmptyDir i).subdirs j =
      if j = i then t.subdirs i ++ [t.nextDentry, t.nextDentry + 1] else t.subdirs j := by
    intro j
    change ((t.erofsInitEmptyDir i).inode j).iSubdirs = _
    rw [Sound.initEmptyDir_inode]
  have hold : ∀ j f, f ∈ t.subdirs j → (t.erofsInitEmptyDir i).dentry f = t.dentry f := by
    intro j f hf
    have := (hs.alloc j f hf).2
    rw [Sound.initEmptyDir_dentry, if_neg (by omega), if_neg (by omega)]
  have hda : (t.erofsInitEmptyDir i).dentry t.nextDentry = .ofName dotName .dir i := by
    rw [Sound.initEmptyDir_dentry, if_neg (by omega), if_pos rfl]
  have hdb : (t.erofsInitEmptyDir i).dentry (t.nextDentry + 1) =
      .ofName dotdotName .dir (t.inode i).iParent := by
    rw [Sound.initEmptyDir_dentry, if_pos rfl]
  have hmem : ∀ j f, f ∈ (t.erofsInitEmptyDir i).subdirs j →
      f ∈ t.subdirs j ∨ f = t.nextDentry ∨ f = t.nextDentry + 1 := by
    intro j f hf
    rw [hsub] at hf
    split at hf
    · next hj =>
      rw [List.mem_append] at hf
      exact hf.imp (fun h => hj ▸ h) (fun h => by simpa using h)
    · exact .inl hf
  refine ⟨⟨depth, hs.initEmptyDir hdir⟩, ?_, ?_⟩
  · intro j f hf
    rcases hmem j f hf with hf | rfl | rfl
    · rw [hold j f hf]
      exact hfull j f hf
    · rw [hda]
      exact Nat.ne_of_gt hdir.2.1
    · rw [hdb]
      exact Nat.ne_of_gt hpdir.2.1
  · rintro j ⟨hmj, hpos, hor⟩
    by_cases hji : j = i
    · subst hji
      refine ⟨t.nextDentry + 1, ?_, by rw [hdb]; rfl, ?_⟩
      · rw [hsub, if_pos rfl]
        simp
      · rw [hdb]
        exact Nat.ne_of_gt hpdir.2.1
    · have hj : t.IsDir root j := by
        refine ⟨(hmode j).symm.trans hmj, hpos, hor.imp id ?_⟩
        rintro ⟨c, f, hf, hfi, hfn⟩
        rcases hmem c f hf with hf | rfl | rfl
        · rw [hold c f hf] at hfi hfn
          exact ⟨c, f, hf, hfi, hfn⟩
        · rw [hda] at hfn
          exact absurd (Or.inl rfl : isDotDotdot dotName) hfn
        · rw [hdb] at hfn
          exact absurd (Or.inr rfl : isDotDotdot dotdotName) hfn
      obtain ⟨f, hf, hfn, hf0⟩ := hdot j hj hji
      refine ⟨f, ?_, by rwa [hold j f hf], by rwa [hold j f hf]⟩
      rw [hsub, if_neg hji]
      exact hf

/-- The same references and dentries; what is left may differ. -/
def SameTreeInode (a b : TreeInode) : Prop :=
  a.mode = b.mode ∧ a.iParent = b.iParent ∧ a.nlink = b.nlink ∧ a.count = b.count ∧
    a.iSubdirs = b.iSubdirs

/-- A dentry of `u` gets a new inode; `t` is the heap after that. -/
theorem hole_assign (hole : TarHole (u.setDentryInode d 0) root d) (hd : d ∈ u.subdirs k)
    (hn : ¬isDotDotdot (u.dentry d).name) {m : FileType} (hm : m ≠ .unknown)
    (hnext : t.nextInode = u.nextInode + 1) (hnextd : t.nextDentry = u.nextDentry)
    (hino : ∀ j, j ≠ u.nextInode → SameTreeInode (t.inode j) (u.inode j))
    (hdent : ∀ f, t.dentry f = if f = d then { u.dentry d with
      type := m, inode := u.nextInode } else u.dentry f)
    (hmode : (t.inode u.nextInode).mode = m) (hcount : (t.inode u.nextInode).count = 1)
    (hsubs : (t.inode u.nextInode).iSubdirs = [])
    (hnlink : m ≠ .dir → (t.inode u.nextInode).nlink = 1)
    (hparent : m = .dir → (t.inode u.nextInode).iParent = k) :
    (∃ depth, t.Sound root depth) ∧ (∀ i e, e ∈ t.subdirs i → (t.dentry e).inode ≠ 0) ∧
      (∀ i, t.IsDir root i → i ≠ u.nextInode → t.HasDotdot i) ∧ t.subdirs u.nextInode = [] ∧
      (m = .dir → t.IsDir root u.nextInode) := by
  have hvd : (u.setDentryInode d 0).dentry d = { u.dentry d with inode := 0 } := by
    rw [setDentryInode_dentry, if_pos rfl]
  have hlt : ∀ j, j < (u.setDentryInode d 0).nextInode →
      SameTreeInode (t.inode j) (u.inode j) := fun j hj => hino j (ne_of_lt hj)
  apply @hole_attach t (u.setDentryInode d 0) root d k hole hd (by rw [hvd]; exact hn) m hm _
    hnext _ _ hmode hcount hnlink hparent
  · exact ⟨fun j hj => (hlt j hj).1, fun j hj => (hlt j hj).2.1, fun j hj => (hlt j hj).2.2.2.1,
      fun j hj _ => (hlt j hj).2.2.1.trans (add_zero _).symm,
      by change u.nextInode ≤ _; omega, by change u.nextDentry ≤ _; omega⟩
  · intro j
    change t.subdirs j = if j = u.nextInode then [] else u.subdirs j
    by_cases hj : j = u.nextInode
    · rw [if_pos hj, hj]
      exact hsubs
    · rw [if_neg hj]
      exact (hino j hj).2.2.2.2
  · intro f
    rw [hdent]
    split
    · rw [hvd]
      rfl
    · next hf => rw [setDentryInode_dentry, if_neg hf]

theorem tarNewInode_inode (u : TreeHeap) (d : ℕ) (m : FileType) (j : ℕ) :
    (u.tarNewInode d m).2.inode j =
      if j = u.nextInode then ⟨.unknown, (u.dentry d).inode, 0, 1, [], false, false⟩
      else u.inode j :=
  setInode_inode _ _ _ j

theorem tarNewInode_dentry (u : TreeHeap) (d : ℕ) (m : FileType) (f : ℕ) :
    (u.tarNewInode d m).2.dentry f =
      if f = d then { u.dentry d with inode := u.nextInode, type := m } else u.dentry f :=
  setDentry_dentry _ _ _ f

section New

variable (hole : TarHole (u.setDentryInode d 0) root d) (hd : d ∈ u.subdirs k)
  (hn : ¬isDotDotdot (u.dentry d).name) {x : TarEntry}

include hole hd hn

/-- A whiteout marks the directory that holds it. -/
theorem tarFillInode_whiteout (hk : k < u.nextInode) (hpk : (u.dentry d).inode = k) :
    ((u.tarNewInode d x.mode).2.tarFillInode d u.nextInode true x).Leaves
      fun t => TarTree t root := by
  unfold tarFillInode
  cases hrest : x.rest with
  | some err => trivial
  | none =>
    have hpne : (u.dentry d).inode ≠ u.nextInode := by omega
    simp only [if_true, setInode_inode, setDentry_inode, tarNewInode_inode, if_neg hpne.symm]
    simp only [ne_eq, reduceCtorEq, not_false_eq_true, if_true]
    generalize ht : incNlink _ u.nextInode = t
    have hino : ∀ j, t.inode j = if j = u.nextInode then
        ⟨.chrdev, k, 1, 1, [], false, false⟩
        else if j = k then { u.inode k with whiteouts := true } else u.inode j := by
      intro j
      rw [← ht]
      unfold incNlink
      simp only [setInode_inode, setDentry_inode, tarNewInode_inode, if_true, if_neg hpne,
        if_neg hpne.symm]
      by_cases hj : j = u.nextInode
      · simp [hj, hpk]
      · simp [hj, hpk]
    have hdent : ∀ f, t.dentry f = if f = d then { u.dentry d with
        type := .chrdev, inode := u.nextInode } else u.dentry f := by
      intro f
      rw [← ht]
      unfold incNlink
      simp only [setInode_dentry, setDentry_dentry, tarNewInode_dentry, if_true]
      split <;> rfl
    have hdone := @hole_assign t u root d k hole hd hn .chrdev (by simp) (by rw [← ht]; rfl)
      (by rw [← ht]; rfl) (fun j hj => by
        rw [hino, if_neg hj]
        split
        · next hjk => rw [hjk]; exact ⟨rfl, rfl, rfl, rfl, rfl⟩
        · exact ⟨rfl, rfl, rfl, rfl, rfl⟩) hdent (by rw [hino, if_pos rfl])
      (by rw [hino, if_pos rfl]) (by rw [hino, if_pos rfl])
      (fun _ => by rw [hino, if_pos rfl]) (fun h => absurd h (by simp))
    refine (⟨hdone.1, hdone.2.1, fun i hi => hdone.2.2.1 i hi ?_⟩ : TarTree t root)
    rintro rfl
    have hmi := hi.1
    rw [hino, if_pos rfl] at hmi
    exact absurd hmi (by simp)

/-- A directory gets `.` and `..`. -/
theorem tarFillInode_dir (hdir : x.mode = .dir) (hpk : (u.dentry d).inode = k) :
    ((u.tarNewInode d x.mode).2.tarFillInode d u.nextInode false x).Leaves
      fun t => TarTree t root := by
  unfold tarFillInode
  cases hrest : x.rest with
  | some err => trivial
  | none =>
    simp only [Bool.false_eq_true, if_false, setInode_inode, if_true, tarNewInode_inode]
    rw [if_neg (by rw [hdir]; simp)]
    generalize ht : (u.tarNewInode d x.mode).2.setInode u.nextInode _ = t
    have hino : ∀ j, t.inode j = if j = u.nextInode then
        ⟨.dir, k, 0, 1, [], false, false⟩ else u.inode j := by
      intro j
      rw [← ht]
      simp only [setInode_inode, tarNewInode_inode, hdir, hpk]
      split <;> rfl
    have hdent : ∀ f, t.dentry f = if f = d then { u.dentry d with
        type := .dir, inode := u.nextInode } else u.dentry f := by
      intro f
      rw [← ht, setInode_dentry, tarNewInode_dentry, hdir]
    have hdone := @hole_assign t u root d k hole hd hn .dir (by simp) (by rw [← ht]; rfl)
      (by rw [← ht]; rfl) (fun j hj => by
        rw [hino, if_neg hj]
        exact ⟨rfl, rfl, rfl, rfl, rfl⟩) hdent (by rw [hino, if_pos rfl])
      (by rw [hino, if_pos rfl]) (by rw [hino, if_pos rfl])
      (fun h => absurd rfl h) (fun _ => by rw [hino, if_pos rfl])
    obtain ⟨⟨depth, hs⟩, hfull, hdot, -, hisdir⟩ := hdone
    exact tarTree_initEmptyDir hs (hisdir rfl) hfull hdot

theorem tarFillInode_file (hmk : x.mode ≠ .unknown) (hdir : x.mode ≠ .dir) :
    ((u.tarNewInode d x.mode).2.tarFillInode d u.nextInode false x).Leaves
      fun t => TarTree t root := by
  unfold tarFillInode
  cases hrest : x.rest with
  | some err => trivial
  | none =>
    simp only [Bool.false_eq_true, if_false, setInode_inode, if_true, tarNewInode_inode]
    rw [if_pos hdir]
    generalize ht : incNlink _ u.nextInode = t
    have hino : ∀ j, t.inode j = if j = u.nextInode then
        ⟨x.mode, (u.dentry d).inode, 1, 1, [], false, false⟩ else u.inode j := by
      intro j
      rw [← ht]
      unfold incNlink
      simp only [setInode_inode, tarNewInode_inode, if_true]
      by_cases hj : j = u.nextInode
      · simp [hj]
      · simp [hj]
    have hdent : ∀ f, t.dentry f = if f = d then { u.dentry d with
        type := x.mode, inode := u.nextInode } else u.dentry f := by
      intro f
      rw [← ht]
      unfold incNlink
      rw [setInode_dentry, setInode_dentry, tarNewInode_dentry]
    have hdone := @hole_assign t u root d k hole hd hn x.mode hmk (by rw [← ht]; rfl)
      (by rw [← ht]; rfl) (fun j hj => by
        rw [hino, if_neg hj]
        exact ⟨rfl, rfl, rfl, rfl, rfl⟩) hdent (by rw [hino, if_pos rfl])
      (by rw [hino, if_pos rfl]) (by rw [hino, if_pos rfl])
      (fun _ => by rw [hino, if_pos rfl]) (fun h => absurd h hdir)
    refine (⟨hdone.1, hdone.2.1, fun i hi => hdone.2.2.1 i hi ?_⟩ : TarTree t root)
    rintro rfl
    have hmi := hi.1
    rw [hino, if_pos rfl] at hmi
    exact hdir hmi

/-- A new inode for a dentry: a directory or a whiteout must get the directory that holds the
dentry as its parent. -/
theorem tarFillInode_new (hk : k < u.nextInode) {whout : Bool}
    (hmode : whout = true ∨ x.mode ≠ .unknown)
    (hp : x.mode = .dir ∨ whout = true → (u.dentry d).inode = k) :
    ((u.tarNewInode d x.mode).2.tarFillInode d u.nextInode whout x).Leaves
      fun t => TarTree t root := by
  cases whout with
  | true => exact tarFillInode_whiteout hole hd hn hk (hp (.inr rfl))
  | false =>
    by_cases hdir : x.mode = .dir
    · exact tarFillInode_dir hole hd hn hdir (hp (.inl hdir))
    · exact tarFillInode_file hole hd hn (hmode.resolve_left (by simp)) hdir

end New

theorem tarTree_setInode (h : TarTree t root) {i : ℕ} {w : TreeInode}
    (hw : SameTreeInode w (t.inode i)) :
    TarTree (t.setInode i w) root ∧ ∀ j, t.IsDir root j → (t.setInode i w).IsDir root j := by
  obtain ⟨depth, hs⟩ := h.sound
  have hino : ∀ j, SameTreeInode ((t.setInode i w).inode j) (t.inode j) := by
    intro j
    rw [setInode_inode]
    split
    · next hj =>
      rw [hj]
      exact hw
    · exact ⟨rfl, rfl, rfl, rfl, rfl⟩
  have hsub : ∀ j, (t.setInode i w).subdirs j = t.subdirs j := fun j => (hino j).2.2.2.2
  have hisdir : ∀ j, (t.setInode i w).IsDir root j ↔ t.IsDir root j := by
    intro j
    unfold IsDir
    simp only [hsub, setInode_dentry, (hino j).1]
  refine ⟨⟨⟨depth, hs.setInode hw.1 hw.2.1 hw.2.2.2.1 hw.2.2.2.2 (fun _ => hw.2.2.1)⟩, ?_, ?_⟩,
    fun j => (hisdir j).2⟩
  · intro j e he
    rw [hsub] at he
    exact h.full j e he
  · intro j hj
    obtain ⟨f, hf, hfn⟩ := h.dotted j ((hisdir j).1 hj)
    exact ⟨f, by rwa [hsub], hfn⟩

theorem tarFillInode_again (h : TarTree t root) {i : ℕ} (hdir : t.IsDir root i) {x : TarEntry}
    (hx : x.mode = .dir) :
    (t.tarFillInode d i false x).Leaves fun t' => TarTree t' root := by
  unfold tarFillInode
  cases x.rest with
  | some err => trivial
  | none =>
    simp only [Bool.false_eq_true, if_false, setInode_inode, if_true, hx, ne_eq, not_true_eq_false]
    obtain ⟨hu, hisdir⟩ := @tarTree_setInode t root h i { t.inode i with mode := .dir }
      ⟨hdir.1.symm, rfl, rfl, rfl, rfl⟩
    by_cases h0 : (t.inode i).nlink = 0
    · rw [if_pos h0]
      obtain ⟨depth, hs⟩ := hu.sound
      exact tarTree_initEmptyDir hs (hisdir i hdir) hu.full (fun j hj _ => hu.dotted j hj)
    · rw [if_neg h0]
      exact hu

end Fill

end ErofsUtils
