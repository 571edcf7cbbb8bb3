import ErofsUtils.TarStep

/-!
# Replaying an archive

The tree after every archive that `tarerofs_parse_tar` accepts, as long as no entry reaches one of
its slips: a hard link without a name to look up, an entry that replaces a hard link made in
another directory, a whiteout that is a directory, a whiteout of `.` or `..`, and a mode without
a file type.
-/

namespace ErofsUtils

open TreeHeap

/-- The condition on an entry that is neither a hard link nor an opaque mark: its mode names a
file type unless it is a whiteout; if it replaces another entry and is a directory or a whiteout,
the inode it replaces has the directory that holds the entry as its parent; and a directory that
is listed again is not a whiteout. -/
structure FillMeets (w : LookupState) (x : TarEntry) : Prop where
  mode : w.whout = true ∨ x.mode ≠ .unknown
  parent : (w.tree.dentry w.d).type ≠ .unknown → x.mode = .dir ∨ w.whout = true →
    w.d ∈ w.tree.subdirs (w.tree.inode (w.tree.dentry w.d).inode).iParent
  again : (w.tree.dentry w.d).type = .dir → x.mode = .dir → w.whout = false

/-- The condition on an entry in the tree that the entries before it have left: no whiteout names
`.` or `..`, and the target of a hard link has a name. -/
structure TarEntryMeets (t : TreeHeap) (root : ℕ) (aufs : Bool) (x : TarEntry) : Prop where
  named : ∀ c ∈ components x.path, NamesEntry aufs c → ¬isDotDotdot (entryName aufs c)
  link : x.hardlink = true → ∃ c ∈ components x.link, NamesEntry aufs c
  fill : ∀ w, (erofsRebuildGetDentry t root x.path aufs true).ret = .ok w → w.d ≠ 0 →
    w.opq = false → x.hardlink = false → FillMeets w x

/-- A hard link that is accepted makes its entry a second name of a file. -/
def LinkHonoured (t t' : TreeHeap) (root : ℕ) (aufs : Bool) (x : TarEntry) : Prop :=
  ∀ w, (erofsRebuildGetDentry t root x.path aufs true).ret = .ok w → w.d ≠ 0 → w.opq = false →
    x.hardlink = true → t'.Attached w.d ∧ (t'.inode (t'.dentry w.d).inode).mode ≠ .dir ∧
      ∃ e, e ≠ w.d ∧ t'.Attached e ∧ (t'.dentry e).inode = (t'.dentry w.d).inode

section Step

variable {t : TreeHeap} {root : ℕ} {aufs : Bool} {x : TarEntry}

theorem getDentry_reached {u : TreeHeap} {depth : ℕ → ℕ} (hs : u.Sound root depth)
    {path : List Char} (hnul : '\x00' ∉ path) {toHead : Bool} {w : LookupState}
    (hw : (erofsRebuildGetDentry u root path aufs toHead).ret = .ok w) :
    (Reached root u w (∃ c ∈ components path, NamesEntry aufs c)
        (∀ c ∈ components path, NamesEntry aufs c → ¬isDotDotdot (entryName aufs c)) ∨
      LeftOver root u w
        (∀ c ∈ components path, NamesEntry aufs c → ¬isDotDotdot (entryName aufs c))) ∧
      (w.whout = true → ∃ c ∈ components path, NamesEntry aufs c) := by
  rw [(erofsRebuildGetDentry_eq aufs toHead u root path hnul).1] at hw
  have hstart : Reached root u ⟨u, root, 0, false, false⟩ False
      (∀ c ∈ components path, NamesEntry aufs c → ¬isDotDotdot (entryName aufs c)) :=
    ⟨⟨depth, hs⟩, Extends.refl u, .inl ⟨rfl, id⟩, fun _ h0 => absurd rfl h0⟩
  refine ⟨?_, fun hwh => (runComponents_whout hw hwh).resolve_left (by simp)⟩
  have hrun := runComponents_reached hstart ⟨hs.root_dir, hs.root_lt.1, .inl rfl⟩
    (onlyLastOpen_components path) (.inl rfl) id hw
  simpa only [false_or] using hrun

theorem tarTree_reached {w : LookupState} {seen named : Prop} (h : TarTree t root)
    (hr : Reached root t w seen named) : TarTree w.tree root := by
  obtain ⟨depth, hs⟩ := h.sound
  obtain ⟨depth', hs'⟩ := hr.sound
  refine ⟨⟨depth', hs'⟩, ?_, dotted_extends h.dotted hs hs' hr.ext⟩
  intro i e he
  exact full_extends (P := fun _ => True) (fun i e he _ => h.full i e he) hr.ext i e he trivial

theorem tarHardLink_step {u : TreeHeap} {d : ℕ} (hole : TarHole
      (if (u.dentry d).type ≠ .unknown then u.replaceInode d 0 else u.setDentryInode d 0) root d)
    (hn : ¬isDotDotdot ((if (u.dentry d).type ≠ .unknown then u.replaceInode d 0
      else u.setDentryInode d 0).dentry d).name)
    (hlink : ∃ c ∈ components x.link, NamesEntry aufs c) :
    (u.tarHardLink root aufs d x).Leaves fun t' => TarTree t' root ∧ t'.Attached d ∧
      (t'.inode (t'.dentry d).inode).mode ≠ .dir ∧
      ∃ e, e ≠ d ∧ t'.Attached e ∧ (t'.dentry e).inode = (t'.dentry d).inode := by
  unfold tarHardLink
  by_cases hdir : x.mode = .dir
  · rw [if_pos hdir]
    trivial
  rw [if_neg hdir]
  simp only
  generalize (if (u.dentry d).type ≠ .unknown then u.replaceInode d 0
    else u.setDentryInode d 0) = v at *
  obtain ⟨depth, hs⟩ := hole.sound
  cases hw : (erofsRebuildGetDentry v root x.link aufs false).ret with
  | error err => trivial
  | ok w =>
    simp only
    rcases (getDentry_reached hs x.nul.2 hw).1 with hr | hl
    · rcases hr.d with ⟨-, hno⟩ | hat
      · exact absurd hlink hno
      · obtain ⟨depth', hs'⟩ := hr.sound
        obtain ⟨k, hk, hi0⟩ := id hat
        have hd0 : w.d ≠ 0 := by
          have := (hs'.alloc k w.d hk).1
          omega
        have hok := hs'.entry k w.d hk hi0
        rw [if_neg hd0, if_neg hok.known]
        by_cases hm : (w.tree.inode (w.tree.dentry w.d).inode).mode = .dir
        · rw [if_pos hm]
          trivial
        · rw [if_neg hm]
          obtain ⟨htree, hed, hde, hdi, hae, had, hmode⟩ :=
            tarTree_link hole hn hr.ext hs' hat hm rfl
          refine ⟨htree, had, hmode, w.d, hed, hae, ?_⟩
          rw [hdi, hde]
    · rw [if_neg hl.fresh.1, if_pos hl.unfilled.2.2]
      trivial

/-! ### The branches of `tarerofs_parse_tar` after the lookup -/

section Branches

variable {w : LookupState} {seen named : Prop}

theorem tarRoot_step (h : TarTree t root) (hr : Reached root t w seen named) (hd0 : w.d = 0)
    (hwh : w.whout = true → seen) (hdir : x.mode = .dir) :
    (w.tree.tarFillInode 0 root w.whout x).Leaves fun t' => TarTree t' root := by
  obtain ⟨depth, hs⟩ := hr.sound
  have hno : ¬seen := by
    rcases hr.d with ⟨-, hno⟩ | ⟨k, hk, -⟩
    · exact hno
    · have := (hs.alloc k w.d hk).1
      omega
  have hwf : w.whout = false := by
    cases hb : w.whout with
    | false => rfl
    | true => exact absurd (hwh hb) hno
  rw [hwf]
  exact tarFillInode_again (tarTree_reached h hr) ⟨hs.root_dir, hs.root_lt.1, .inl rfl⟩ hdir

theorem tarHardLink_reached (h : TarTree t root) (hr : Reached root t w seen named)
    (hd0 : w.d ≠ 0) (hnamed : named) (hlink : ∃ c ∈ components x.link, NamesEntry aufs c) :
    (w.tree.tarHardLink root aufs w.d x).Leaves fun t' => TarTree t' root ∧ t'.Attached w.d ∧
      (t'.inode (t'.dentry w.d).inode).mode ≠ .dir ∧
      ∃ e, e ≠ w.d ∧ t'.Attached e ∧ (t'.dentry e).inode = (t'.dentry w.d).inode := by
  have hstep := @tarHardLink_step root aufs x w.tree w.d
  obtain ⟨depth, hs⟩ := hr.sound
  obtain ⟨k, hk, hi0⟩ := hr.d.resolve_left (fun hno => hd0 hno.1)
  have hok := hs.entry k w.d hk hi0
  have hn := hr.name hnamed hd0
  have htree := tarTree_reached h hr
  obtain ⟨hole, -, hname, hzero⟩ := hole_of_replace hs hk hn htree.full htree.dotted 0
  have heq : (w.tree.replaceInode w.d 0).setDentryInode w.d 0 = w.tree.replaceInode w.d 0 := by
    unfold replaceInode setDentryInode setDentry
    simp
  rw [heq] at hole
  rw [if_pos hok.known] at hstep
  exact hstep hole (by rw [hname]; exact hn) hlink

theorem tarHardLink_leftOver (h : TarTree t root) (hl : LeftOver root t w named)
    (hnamed : named) (hlink : ∃ c ∈ components x.link, NamesEntry aufs c) :
    (w.tree.tarHardLink root aufs w.d x).Leaves fun t' => TarTree t' root ∧ t'.Attached w.d ∧
      (t'.inode (t'.dentry w.d).inode).mode ≠ .dir ∧
      ∃ e, e ≠ w.d ∧ t'.Attached e ∧ (t'.dentry e).inode = (t'.dentry w.d).inode := by
  have hstep := @tarHardLink_step root aufs x w.tree w.d
  have hn := hl.name hnamed
  rw [if_neg (by rw [hl.unfilled.2.2]; simp)] at hstep
  apply hstep (hole_of_leftOver h hl hn) _ hlink
  rw [setDentryInode_dentry, if_pos rfl]
  exact hn

/-- The entry is replaced. -/
theorem tarReplace_step (h : TarTree t root) (hr : Reached root t w seen named)
    (hd0 : w.d ≠ 0) (hnamed : named) (hfill : FillMeets w x) {u : TreeHeap}
    (hu : u = w.tree.replaceInode w.d (w.tree.inode (w.tree.dentry w.d).inode).iParent) :
    ((u.tarNewInode w.d x.mode).2.tarFillInode w.d u.nextInode w.whout x).Leaves
      fun t' => TarTree t' root := by
  obtain ⟨depth, hs⟩ := hr.sound
  obtain ⟨k, hk, hi0⟩ := hr.d.resolve_left (fun hno => hd0 hno.1)
  have hok := hs.entry k w.d hk hi0
  have hn := hr.name hnamed hd0
  have htree := tarTree_reached h hr
  obtain ⟨hole, hsub, hname, hzero⟩ := hole_of_replace hs hk hn htree.full htree.dotted
    (w.tree.inode (w.tree.dentry w.d).inode).iParent
  rw [← hu] at hole hsub hname hzero
  have hmem : w.d ∈ u.subdirs k := by
    rw [← hsub] at hk
    exact hk
  obtain ⟨depth₁, hs₁⟩ := hole.sound
  apply tarFillInode_new hole hmem (by rw [hname]; exact hn) (hs₁.bound k w.d hmem).1 hfill.mode
  intro hkind
  rw [hzero]
  exact hs.home _ _ w.d (hfill.parent hok.known hkind) hk

/-- A directory is listed again. -/
theorem tarAgain_step (h : TarTree t root) (hr : Reached root t w seen named)
    (hd0 : w.d ≠ 0) (hnamed : named) (hfill : FillMeets w x)
    (hty : (w.tree.dentry w.d).type = .dir) (hdir : x.mode = .dir) :
    (w.tree.tarFillInode w.d (w.tree.dentry w.d).inode w.whout x).Leaves
      fun t' => TarTree t' root := by
  obtain ⟨depth, hs⟩ := hr.sound
  obtain ⟨k, hk, hi0⟩ := hr.d.resolve_left (fun hno => hd0 hno.1)
  have hok := hs.entry k w.d hk hi0
  rw [hfill.again hty hdir]
  apply tarFillInode_again (tarTree_reached h hr) _ hdir
  exact ⟨hok.type.symm.trans hty, Nat.pos_of_ne_zero hi0,
    .inr ⟨k, w.d, hk, rfl, hr.name hnamed hd0⟩⟩

/-- A new entry. -/
theorem tarNew_step (h : TarTree t root) (hl : LeftOver root t w named) (hnamed : named)
    (hfill : FillMeets w x) :
    ((w.tree.tarNewInode w.d x.mode).2.tarFillInode w.d w.tree.nextInode w.whout x).Leaves
      fun t' => TarTree t' root := by
  have hn := hl.name hnamed
  obtain ⟨⟨depth, hs⟩, hmem, -⟩ := hl.unfilled
  exact tarFillInode_new (hole_of_leftOver h hl hn) hmem hn (hs.bound _ w.d hmem).1 hfill.mode
    (fun _ => rfl)

end Branches

/-- An entry that is not a hard link promises nothing about one. -/
theorem leaves_linkHonoured {r : TarOutcome} (hr : r.Leaves fun t' => TarTree t' root)
    (hno : ∀ w, (erofsRebuildGetDentry t root x.path aufs true).ret = .ok w →
      w.d = 0 ∨ w.opq = true ∨ x.hardlink = false) :
    r.Leaves fun t' => TarTree t' root ∧ LinkHonoured t t' root aufs x := by
  apply hr.imp
  intro t' ht
  refine ⟨ht, fun w hw h0 hopq hl => ?_⟩
  rcases hno w hw with h1 | h1 | h1
  · exact absurd h1 h0
  · exact absurd hopq (by rw [h1]; simp)
  · exact absurd hl (by rw [h1]; simp)

theorem tarerofsParseTar_step (h : TarTree t root) (hx : TarEntryMeets t root aufs x) :
    (t.tarerofsParseTar root aufs x).Leaves
      fun t' => TarTree t' root ∧ LinkHonoured t t' root aufs x := by
  obtain ⟨depth, hs⟩ := h.sound
  unfold tarerofsParseTar
  cases hw : (erofsRebuildGetDentry t root x.path aufs true).ret with
  | error err => trivial
  | ok w =>
    simp only
    obtain ⟨hcases, hwh⟩ := getDentry_reached hs x.nul.1 hw
    have hwuniq : ∀ w', (erofsRebuildGetDentry t root x.path aufs true).ret = .ok w' → w' = w :=
      fun w' hw' => (Except.ok.inj (hw.symm.trans hw')).symm
    by_cases hd0 : w.d = 0
    · rw [if_pos hd0]
      by_cases hdir : x.mode = .dir
      · rw [if_neg (by simpa using hdir)]
        apply leaves_linkHonoured _ (fun w' hw' => .inl (by rw [hwuniq w' hw']; exact hd0))
        rcases hcases with hr | hl
        · exact tarRoot_step h hr hd0 hwh hdir
        · exact absurd hd0 hl.fresh.1
      · rw [if_pos hdir]
        trivial
    rw [if_neg hd0]
    by_cases hopq : w.opq = true
    · rw [if_pos hopq]
      apply leaves_linkHonoured _ (fun w' hw' => .inr (.inl (by rw [hwuniq w' hw']; exact hopq)))
      cases x.rest with
      | some err => trivial
      | none =>
        rcases hcases with hr | hl
        · exact (@tarTree_setInode w.tree root (tarTree_reached h hr) (w.tree.dentry w.d).inode
            { w.tree.inode (w.tree.dentry w.d).inode with isOpaque := true }
            ⟨rfl, rfl, rfl, rfl, rfl⟩).1
        · exact absurd hopq (by rw [hl.opq]; simp)
    rw [if_neg hopq]
    by_cases hhard : x.hardlink = true
    · rw [if_pos hhard]
      have hlinked : (w.tree.tarHardLink root aufs w.d x).Leaves fun t' => TarTree t' root ∧
          t'.Attached w.d ∧ (t'.inode (t'.dentry w.d).inode).mode ≠ .dir ∧
          ∃ e, e ≠ w.d ∧ t'.Attached e ∧ (t'.dentry e).inode = (t'.dentry w.d).inode := by
        rcases hcases with hr | hl
        · exact tarHardLink_reached h hr hd0 hx.named (hx.link hhard)
        · exact tarHardLink_leftOver h hl hx.named (hx.link hhard)
      apply hlinked.imp
      rintro t' ⟨htree, hsecond⟩
      refine ⟨htree, fun w' hw' _ _ _ => ?_⟩
      rw [hwuniq w' hw']
      exact hsecond
    rw [if_neg hhard]
    have hhard' : x.hardlink = false := by simpa using hhard
    apply leaves_linkHonoured _ (fun _ _ => .inr (.inr hhard'))
    have hfill := hx.fill w hw hd0 (by simpa using hopq) hhard'
    rcases hcases with hr | hl
    · obtain ⟨depth', hs'⟩ := hr.sound
      obtain ⟨k, hk, hi0⟩ := hr.d.resolve_left (fun hno => hd0 hno.1)
      rw [if_pos (hs'.entry k w.d hk hi0).known]
      by_cases hre : (w.tree.dentry w.d).type ≠ .dir ∨ x.mode ≠ .dir
      · rw [if_pos hre]
        exact tarReplace_step h hr hd0 hx.named hfill rfl
      · rw [if_neg hre]
        have hdirs : (w.tree.dentry w.d).type = .dir ∧ x.mode = .dir := by
          simpa only [ne_eq, not_or, not_not] using hre
        exact tarAgain_step h hr hd0 hx.named hfill hdirs.1 hdirs.2
    · rw [if_neg (by rw [hl.unfilled.2.2]; simp)]
      exact tarNew_step h hl hx.named hfill

end Step

/-! ## Whole archives -/

structure TarTreeInvariant (t : TreeHeap) (root : ℕ) : Prop where
  live : ∀ i e, e ∈ t.subdirs i → (t.dentry e).inode ≠ 0 ∧ 0 < (t.inode (t.dentry e).inode).count
  nlink : ∀ i e, e ∈ t.subdirs i → (t.inode (t.dentry e).inode).mode ≠ .dir →
    (t.inode (t.dentry e).inode).nlink = t.links (t.dentry e).inode
  parent : ∀ i e, e ∈ t.subdirs i → ¬isDotDotdot (t.dentry e).name →
    (t.inode (t.dentry e).inode).mode = .dir → (t.inode (t.dentry e).inode).iParent = i ∧
      (∃ f, f ∈ t.subdirs (t.dentry e).inode ∧ (t.dentry f).name = dotdotName) ∧
      ∀ f, f ∈ t.subdirs (t.dentry e).inode → (t.dentry f).name = dotdotName →
        (t.dentry f).inode = i

theorem TarTree.invariant {t : TreeHeap} {root : ℕ} (h : TarTree t root) :
    TarTreeInvariant t root := by
  obtain ⟨depth, hs⟩ := h.sound
  have hpos : ∀ i e, e ∈ t.subdirs i → 0 < (t.dentry e).inode := fun i e he =>
    Nat.pos_of_ne_zero (h.full i e he)
  refine ⟨?_, ?_, ?_⟩
  · intro i e he
    have hb := hs.bound i e he
    have hcount := hs.counted _ (hpos i e he) hb.2
    have hlinks := links_pos hb.1 he
    refine ⟨h.full i e he, ?_⟩
    split at hcount <;> omega
  · intro i e he hm
    exact hs.linked _ (hpos i e he) (hs.bound i e he).2 hm
  · intro i e he hn hm
    have hok := hs.entry i e he (h.full i e he)
    obtain ⟨hup, -⟩ := hok.up hn (hok.type.trans hm)
    obtain ⟨f, hf, hfn, -⟩ := h.dotted _ ⟨hm, hpos i e he, .inr ⟨i, e, he, rfl, hn⟩⟩
    refine ⟨hup, ⟨f, hf, hfn⟩, ?_⟩
    intro f hf hfn
    exact ((hs.entry _ f hf (h.full _ f hf)).dotdot hfn).trans hup

theorem tarTree_makeRoot : TarTree erofsRebuildMakeRoot 1 := by
  have hmem : ∀ i e, e ∈ erofsRebuildMakeRoot.subdirs i → i = 1 ∧ (e = 1 ∨ e = 2) := by
    intro i e he
    rw [makeRoot_subdirs] at he
    split at he
    · next hi => exact ⟨hi, by simpa using he⟩
    · exact absurd he List.not_mem_nil
  have hdot : ∀ e, e = 1 ∨ e = 2 → isDotDotdot (erofsRebuildMakeRoot.dentry e).name ∧
      (erofsRebuildMakeRoot.dentry e).type = .dir ∧
      (erofsRebuildMakeRoot.dentry e).inode = 1 := by
    rintro e (rfl | rfl) <;> decide
  have hdir : erofsRebuildMakeRoot.IsDir 1 1 := ⟨by decide, by decide, .inl rfl⟩
  have hone : ∀ i, 0 < i → i < erofsRebuildMakeRoot.nextInode → i = 1 := by
    intro i hpos hi
    have : erofsRebuildMakeRoot.nextInode = 2 := by decide
    omega
  refine ⟨⟨fun _ => 0, ?_⟩, ?_, ?_⟩
  · constructor
    case root_lt => decide
    case root_dir => decide
    case root_up => decide
    case bound =>
      intro i e he
      obtain ⟨rfl, hcase⟩ := hmem i e he
      rw [(hdot e hcase).2.2]
      decide
    case alloc =>
      intro i e he
      obtain ⟨rfl, rfl | rfl⟩ := hmem i e he <;> decide
    case pos => decide
    case nodup =>
      intro i
      rw [makeRoot_subdirs]
      split <;> simp
    case home =>
      intro i j e hi hj
      rw [(hmem i e hi).1, (hmem j e hj).1]
    case counted =>
      intro i hpos hi
      rw [hone i hpos hi]
      decide
    case linked =>
      intro i hpos hi hm
      rw [hone i hpos hi] at hm
      exact absurd (by decide) hm
    case entry =>
      intro i e he _
      obtain ⟨rfl, hcase⟩ := hmem i e he
      constructor
      case type => rw [(hdot e hcase).2.2, (hdot e hcase).2.1]; decide
      case known => rw [(hdot e hcase).2.1]; decide
      case dot => exact fun _ => (hdot e hcase).2.2
      case dotdot => exact fun _ => (hdot e hcase).2.2
      case dots => exact fun _ => (hdot e hcase).2.1
      case up => exact fun hno => absurd (hdot e hcase).1 hno
    case single =>
      intro i e f he _ _ _ _ hno
      exact absurd (hdot e (hmem i e he).2).1 hno
    case held =>
      intro i hne
      rw [makeRoot_subdirs] at hne
      split at hne
      · next hi => rw [hi]; exact hdir
      · exact absurd rfl hne
    case depth_lt =>
      intro i hi
      omega
  · intro i e he
    rw [(hdot e (hmem i e he).2).2.2]
    decide
  · rintro i ⟨-, hpos, hi⟩
    have hi1 : i = 1 := by
      rcases hi with rfl | ⟨j, e, he, rfl, hno⟩
      · rfl
      · exact absurd (hdot e (hmem j e he).2).1 hno
    rw [hi1]
    exact ⟨2, by decide, by decide, by decide⟩

def TarRunMeets (root : ℕ) (aufs : Bool) : TreeHeap → List TarEntry → Prop
  | _, [] => True
  | t, x :: xs => TarEntryMeets t root aufs x ∧
      ∀ t', t.tarerofsParseTar root aufs x = .ok t' → TarRunMeets root aufs t' xs

theorem ok_of_toOption {ε α : Type} {x : Except ε α} {a : α} (h : x.toOption = some a) :
    x = .ok a := by
  cases x with
  | error e => cases h
  | ok b =>
    cases h
    rfl

instance FillMeets.decidable (w : LookupState) (x : TarEntry) : Decidable (FillMeets w x) :=
  decidable_of_iff ((w.whout = true ∨ x.mode ≠ .unknown) ∧
      ((w.tree.dentry w.d).type ≠ .unknown → x.mode = .dir ∨ w.whout = true →
        w.d ∈ w.tree.subdirs (w.tree.inode (w.tree.dentry w.d).inode).iParent) ∧
      ((w.tree.dentry w.d).type = .dir → x.mode = .dir → w.whout = false))
    ⟨fun h => ⟨h.1, h.2.1, h.2.2⟩, fun h => ⟨h.mode, h.parent, h.again⟩⟩

instance TarEntryMeets.decidable (t : TreeHeap) (root : ℕ) (aufs : Bool) (x : TarEntry) :
    Decidable (TarEntryMeets t root aufs x) :=
  decidable_of_iff ((∀ c ∈ components x.path, NamesEntry aufs c → ¬isDotDotdot (entryName aufs c)) ∧
      (x.hardlink = true → ∃ c ∈ components x.link, NamesEntry aufs c) ∧
      ∀ w ∈ (erofsRebuildGetDentry t root x.path aufs true).ret.toOption, w.d ≠ 0 →
        w.opq = false → x.hardlink = false → FillMeets w x)
    ⟨fun h => ⟨h.1, h.2.1, fun w hw => h.2.2 w (by rw [hw]; rfl)⟩,
      fun h => ⟨h.named, h.link, fun w hw => h.fill w (ok_of_toOption hw)⟩⟩

instance TarRunMeets.decidable (root : ℕ) (aufs : Bool) :
    (t : TreeHeap) → (xs : List TarEntry) → Decidable (TarRunMeets root aufs t xs)
  | _, [] => .isTrue trivial
  | t, x :: xs =>
    match hx : t.tarerofsParseTar root aufs x with
    | .ok t' =>
      have := TarRunMeets.decidable root aufs t' xs
      decidable_of_iff (TarEntryMeets t root aufs x ∧ TarRunMeets root aufs t' xs)
        ⟨fun h => ⟨h.1, fun _ hu => TarOutcome.ok.inj (hx.symm.trans hu) ▸ h.2⟩,
          fun h => ⟨h.1, h.2 t' hx⟩⟩
    | .error _ =>
      decidable_of_iff (TarEntryMeets t root aufs x)
        ⟨fun h => ⟨h, fun _ hu => nomatch hx.symm.trans hu⟩, fun h => h.1⟩
    | .fault =>
      decidable_of_iff (TarEntryMeets t root aufs x)
        ⟨fun h => ⟨h, fun _ hu => nomatch hx.symm.trans hu⟩, fun h => h.1⟩

/-- Every hard link that is accepted in an archive makes its entry a second name of a file. -/
def LinksHonoured (root : ℕ) (aufs : Bool) : TreeHeap → List TarEntry → Prop
  | _, [] => True
  | t, x :: xs => ∀ t', t.tarerofsParseTar root aufs x = .ok t' →
      LinkHonoured t t' root aufs x ∧ LinksHonoured root aufs t' xs

theorem tarReplay_tree {root : ℕ} {aufs : Bool} {xs : List TarEntry} {t : TreeHeap}
    (h : TarTree t root) (hx : TarRunMeets root aufs t xs) :
    LinksHonoured root aufs t xs ∧
      (tarReplay root aufs t xs).Leaves fun t' => TarTree t' root := by
  induction xs generalizing t with
  | nil => exact ⟨trivial, h⟩
  | cons x xs ih =>
    have hstep := tarerofsParseTar_step h hx.1
    unfold tarReplay LinksHonoured
    cases hr : t.tarerofsParseTar root aufs x with
    | error err =>
      refine ⟨?_, trivial⟩
      intro t' ht
      cases ht
    | fault =>
      rw [hr] at hstep
      exact hstep.elim
    | ok t' =>
      rw [hr] at hstep
      obtain ⟨hrun, htree⟩ := ih hstep.1 (hx.2 t' hr)
      refine ⟨?_, htree⟩
      intro t'' ht
      cases ht
      exact ⟨hstep.2, hrun⟩

/-- In every run whose entries meet the condition, the tree after each archive is in order, each
hard link is an error or a second name of a file, and `NULL` is not dereferenced. -/
theorem tarReplay_invariant (aufs : Bool) (xs : List TarEntry)
    (h : TarRunMeets 1 aufs erofsRebuildMakeRoot xs) :
    LinksHonoured 1 aufs erofsRebuildMakeRoot xs ∧
      match tarReplay 1 aufs erofsRebuildMakeRoot xs with
      | .ok t => TarTreeInvariant t 1
      | .error _ => True
      | .fault => False := by
  obtain ⟨hlinks, htree⟩ := tarReplay_tree tarTree_makeRoot h
  refine ⟨hlinks, ?_⟩
  cases hr : tarReplay 1 aufs erofsRebuildMakeRoot xs with
  | ok t =>
    rw [hr] at htree
    exact TarTree.invariant htree
  | error err => trivial
  | fault =>
    rw [hr] at htree
    exact htree

/-- A directory, a file in it with a second name, a directory that replaces the file and has a file
in it, and a whiteout of the second name. -/
def replacedFile : List TarEntry :=
  [⟨['a'], [], false, .dir, none, by decide⟩,
   ⟨['a', '/', 'f'], [], false, .regFile, none, by decide⟩,
   ⟨['a', '/', 'g'], ['a', '/', 'f'], true, .regFile, none, by decide⟩,
   ⟨['a', '/', 'f'], [], false, .dir, none, by decide⟩,
   ⟨['a', '/', 'f', '/', 'h'], [], false, .regFile, none, by decide⟩,
   ⟨['a', '/', '.', 'w', 'h', '.', 'g'], [], false, .regFile, none, by decide⟩]

theorem tarReplay_invariant_replacedFile :
    LinksHonoured 1 true erofsRebuildMakeRoot replacedFile ∧
      match tarReplay 1 true erofsRebuildMakeRoot replacedFile with
      | .ok t => TarTreeInvariant t 1
      | .error _ => True
      | .fault => False :=
  tarReplay_invariant true replacedFile (by decide +kernel)

/-- `b/g` is a hard link to `a/f`, and then a directory. -/
def linkThenDir : List TarEntry :=
  [⟨['a'], [], false, .dir, none, by decide⟩,
   ⟨['a', '/', 'f'], [], false, .regFile, none, by decide⟩,
   ⟨['b'], [], false, .dir, none, by decide⟩,
   ⟨['b', '/', 'g'], ['a', '/', 'f'], true, .regFile, none, by decide⟩,
   ⟨['b', '/', 'g'], [], false, .dir, none, by decide⟩]

def linkToRoot : List TarEntry := [⟨['g'], ['/'], true, .regFile, none, by decide⟩]

def TarOutcome.hasParentTwo : TarOutcome → Bool
  | .ok t => (t.subdirs 4).any fun e => decide (¬isDotDotdot (t.dentry e).name ∧
      (t.inode (t.dentry e).inode).mode = .dir ∧ (t.inode (t.dentry e).inode).iParent = 2)
  | _ => false

def TarOutcome.isFault : TarOutcome → Bool
  | .fault => true
  | _ => false

/-- The directory `b/g` gets the parent of the file that it replaces, which is `a`; a hard link to
the root dereferences `NULL`. -/
theorem linkThenDir_wrong_parent :
    (¬∀ (aufs : Bool) (xs : List TarEntry) (t : TreeHeap),
      tarReplay 1 aufs erofsRebuildMakeRoot xs = .ok t → TarTreeInvariant t 1) ∧
      ¬∀ (aufs : Bool) (xs : List TarEntry), tarReplay 1 aufs erofsRebuildMakeRoot xs ≠ .fault := by
  constructor
  · intro hall
    have hrun : (tarReplay 1 false erofsRebuildMakeRoot linkThenDir).hasParentTwo = true := by
      decide +kernel
    cases hr : tarReplay 1 false erofsRebuildMakeRoot linkThenDir with
    | ok t =>
      rw [hr] at hrun
      obtain ⟨e, he, hdec⟩ := List.any_eq_true.1 hrun
      obtain ⟨hn, hm, hp⟩ := of_decide_eq_true hdec
      have hinv := ((hall false linkThenDir t hr).parent 4 e he hn hm).1
      omega
    | error err =>
      rw [hr] at hrun
      cases hrun
    | fault =>
      rw [hr] at hrun
      cases hrun
  · intro hall
    have hrun : (tarReplay 1 false erofsRebuildMakeRoot linkToRoot).isFault = true := by
      decide +kernel
    cases hr : tarReplay 1 false erofsRebuildMakeRoot linkToRoot with
    | ok t =>
      rw [hr] at hrun
      cases hrun
    | error err =>
      rw [hr] at hrun
      cases hrun
    | fault => exact hall false linkToRoot hr

end ErofsUtils
