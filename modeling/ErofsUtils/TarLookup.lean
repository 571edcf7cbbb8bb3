import ErofsUtils.TarGrow

/-!
# Lookups while replaying

A lookup keeps the invariant of the tree, up to the inode of the entry that it leaves for its
caller. Names need not be unique for this, nor fit into their dentries.
-/

namespace ErofsUtils

namespace TreeHeap

/-- The directory has a `..`. -/
def HasDotdot (t : TreeHeap) (i : ℕ) : Prop :=
  ∃ f, f ∈ t.subdirs i ∧ (t.dentry f).name = dotdotName ∧ (t.dentry f).inode ≠ 0

/-- Every directory of the tree has a `..`. -/
def Dotted (t : TreeHeap) (root : ℕ) : Prop := ∀ i, t.IsDir root i → t.HasDotdot i

structure Extends (t t' : TreeHeap) : Prop where
  keep : ∀ i f, f ∈ t.subdirs i → f ∈ t'.subdirs i ∧ t'.dentry f = t.dentry f
  new : ∀ i f, f ∈ t'.subdirs i → f ∈ t.subdirs i ∨ (t'.dentry f).inode ≠ 0 ∧
    ((t'.dentry f).type = .dir → ¬isDotDotdot (t'.dentry f).name →
      t'.HasDotdot (t'.dentry f).inode)

theorem Extends.refl (t : TreeHeap) : Extends t t :=
  ⟨fun _ _ hf => ⟨hf, rfl⟩, fun _ _ hf => .inl hf⟩

theorem Extends.hasDotdot {t t' : TreeHeap} (h : Extends t t') {i : ℕ} (hi : t.HasDotdot i) :
    t'.HasDotdot i := by
  obtain ⟨f, hf, hn, h0⟩ := hi
  obtain ⟨hf', hd⟩ := h.keep i f hf
  rw [← hd] at hn h0
  exact ⟨f, hf', hn, h0⟩

theorem Extends.trans {t t' t'' : TreeHeap} (h : Extends t t') (h' : Extends t' t'') :
    Extends t t'' := by
  constructor
  · intro i f hf
    obtain ⟨hf', hd⟩ := h.keep i f hf
    obtain ⟨hf'', hd'⟩ := h'.keep i f hf'
    exact ⟨hf'', hd'.trans hd⟩
  · intro i f hf
    rcases h'.new i f hf with hf' | hnew
    · rcases h.new i f hf' with hold | ⟨h0, hdot⟩
      · exact .inl hold
      · rw [← (h'.keep i f hf').2] at h0 hdot
        exact .inr ⟨h0, fun hty hn => h'.hasDotdot (hdot hty hn)⟩
    · exact .inr hnew

def Attached (t : TreeHeap) (d : ℕ) : Prop := ∃ k, d ∈ t.subdirs k ∧ (t.dentry d).inode ≠ 0

/-- The dentry is a new entry of a directory, with the directory in the place of its inode. -/
def Unfilled (t : TreeHeap) (root d : ℕ) : Prop :=
  (∃ depth, (t.setDentryInode d 0).Sound root depth) ∧ d ∈ t.subdirs (t.dentry d).inode ∧
    (t.dentry d).type = .unknown

theorem Extends.attached {t t' : TreeHeap} (h : Extends t t') {d : ℕ} (hd : t.Attached d) :
    t'.Attached d ∧ t'.dentry d = t.dentry d := by
  obtain ⟨k, hk, h0⟩ := hd
  obtain ⟨hk', hd'⟩ := h.keep k d hk
  rw [← hd'] at h0
  exact ⟨⟨k, hk', h0⟩, hd'⟩

theorem extends_moveToHead {t : TreeHeap} {k e : ℕ} (he : e ∈ t.subdirs k) :
    Extends t (t.moveToHead k e) :=
  ⟨fun i f hf => ⟨(mem_moveToHead he i f).2 hf, rfl⟩,
    fun i f hf => .inl ((mem_moveToHead he i f).1 hf)⟩

theorem extends_dalloc {t : TreeHeap} {root : ℕ} {depth : ℕ → ℕ} (h : t.Sound root depth) {k : ℕ}
    (hk : k ≠ 0) (s : Name) : Extends t (t.erofsDAlloc k s k .unknown).2 := by
  constructor
  · intro i f hf
    have hlt := (h.alloc i f hf).2
    rw [erofsDAlloc_dentry, if_neg (by omega)]
    exact ⟨(mem_dalloc_iff i f).2 (.inl hf), rfl⟩
  · intro i f hf
    rcases (mem_dalloc_iff i f).1 hf with hf | ⟨-, rfl⟩
    · exact .inl hf
    · rw [erofsDAlloc_dentry, if_pos rfl]
      exact .inr ⟨hk, fun hty => absurd hty (by simp [TreeDentry.ofName])⟩

theorem extends_mkdir {t : TreeHeap} {root : ℕ} {depth : ℕ → ℕ} (h : t.Sound root depth) {k : ℕ}
    (hdir : t.IsDir root k) (s : Name) : Extends t (t.erofsRebuildMkdir k s).2 := by
  have hk := h.dir_lt hdir
  have hpos := hdir.2.1
  have hsub := erofsRebuildMkdir_subdirs t s hk
  have hd := erofsRebuildMkdir_dentry t k s
  have hnil : ∀ f, f ∉ t.subdirs t.nextInode := fun f hf =>
    lt_irrefl _ (h.bound _ f hf).1
  constructor
  · intro i f hf
    have hlt := (h.alloc i f hf).2
    rw [hd, if_neg (by omega), if_neg (by omega), if_neg (by omega), hsub]
    refine ⟨?_, rfl⟩
    split
    · next hi => exact absurd (hi ▸ hf) (hnil f)
    split
    · next hi =>
      rw [← hi]
      exact List.mem_append_left _ hf
    · exact hf
  · intro i f hf
    rw [hsub] at hf
    split at hf
    · have hf : f = t.nextDentry ∨ f = t.nextDentry + 1 := by simpa using hf
      rcases hf with rfl | rfl
      · rw [hd, if_neg (by omega), if_neg (by omega), if_pos rfl]
        exact .inr ⟨by change t.nextInode ≠ 0; omega,
          fun _ hn => absurd (Or.inl rfl : isDotDotdot dotName) hn⟩
      · rw [hd, if_neg (by omega), if_pos rfl]
        exact .inr ⟨by change k ≠ 0; omega,
          fun _ hn => absurd (Or.inr rfl : isDotDotdot dotdotName) hn⟩
    split at hf
    · next hi =>
      rw [List.mem_append, List.mem_singleton] at hf
      rcases hf with hf | rfl
      · exact .inl (hi ▸ hf)
      · rw [hd, if_pos rfl]
        refine .inr ⟨by change t.nextInode ≠ 0; omega, fun _ _ => ?_⟩
        refine ⟨t.nextDentry + 1, ?_, ?_, ?_⟩
        · change _ ∈ (t.erofsRebuildMkdir k s).2.subdirs t.nextInode
          rw [hsub, if_pos rfl]
          simp
        · rw [hd, if_neg (by omega), if_pos rfl]
          rfl
        · rw [hd, if_neg (by omega), if_pos rfl]
          change k ≠ 0
          omega
    · exact .inl hf

end TreeHeap

open TreeHeap

/-- A lookup that started at `t`: `seen` says whether it has read a name, and `named` that the
names it has read are not those of `.` and `..`. -/
structure Reached (root : ℕ) (t : TreeHeap) (w : LookupState) (seen named : Prop) : Prop where
  sound : ∃ depth, w.tree.Sound root depth
  ext : Extends t w.tree
  d : w.d = 0 ∧ ¬seen ∨ w.tree.Attached w.d
  name : named → w.d ≠ 0 → ¬isDotDotdot (w.tree.dentry w.d).name

structure LeftOver (root : ℕ) (t : TreeHeap) (w : LookupState) (named : Prop) : Prop where
  opq : w.opq = false
  unfilled : w.tree.Unfilled root w.d
  ext : Extends t w.tree
  fresh : w.d ≠ 0 ∧ ∀ i, w.d ∉ t.subdirs i
  name : named → ¬isDotDotdot (w.tree.dentry w.d).name

section Lookup

variable {root : ℕ} {t : TreeHeap} {w w' : LookupState} {seen named : Prop} {toHead : Bool}
  {s : Name}

theorem enterName_slash (h : Reached root t w seen named) (hpwd : w.tree.IsDir root w.pwd)
    (hs : ¬isDotDotdot s) (hw : w.enterName toHead s true = .ok w') :
    Reached root t w' True named ∧ w'.tree.IsDir root w'.pwd := by
  obtain ⟨depth, hsound⟩ := h.sound
  have hcreate : w' = w.createEntry s true →
      Reached root t w' True named ∧ w'.tree.IsDir root w'.pwd := by
    rintro rfl
    obtain ⟨depth', hmk⟩ := hsound.mkdir hpwd hs
    have hext := extends_mkdir hsound hpwd s
    have hklt := hsound.dir_lt hpwd
    have hd := erofsRebuildMkdir_dentry w.tree w.pwd s (w.tree.nextDentry + 2)
    rw [if_pos rfl] at hd
    have hmem : w.tree.nextDentry + 2 ∈ (w.tree.erofsRebuildMkdir w.pwd s).2.subdirs w.pwd := by
      rw [erofsRebuildMkdir_subdirs _ s hklt, if_neg (by omega), if_pos rfl]
      simp
    have hin : ((w.tree.erofsRebuildMkdir w.pwd s).2.dentry
        (w.tree.nextDentry + 2)).inode = w.tree.nextInode := by rw [hd]; rfl
    have hnm : ¬isDotDotdot ((w.tree.erofsRebuildMkdir w.pwd s).2.dentry
        (w.tree.nextDentry + 2)).name := by
      rw [hd]
      exact Sound.not_dot_ofName hs _ _
    have h0 : w.tree.nextInode ≠ 0 := by
      have := hpwd.2.1
      omega
    refine ⟨⟨⟨depth', hmk⟩, h.ext.trans hext, .inr ⟨w.pwd, hmem, ?_⟩, fun _ _ => hnm⟩, ?_⟩
    · change ((w.tree.erofsRebuildMkdir w.pwd s).2.dentry (w.tree.nextDentry + 2)).inode ≠ 0
      rw [hin]
      exact h0
    · change (w.tree.erofsRebuildMkdir w.pwd s).2.IsDir root
        ((w.tree.erofsRebuildMkdir w.pwd s).2.dentry (w.tree.nextDentry + 2)).inode
      rw [hin]
      refine ⟨?_, by omega, .inr ⟨w.pwd, _, hmem, hin, hnm⟩⟩
      rw [erofsRebuildMkdir_inode _ s hklt, if_pos rfl]
  unfold LookupState.enterName at hw
  cases hf : w.tree.findDentry w.pwd s with
  | none =>
    rw [hf] at hw
    exact hcreate (Except.ok.inj hw).symm
  | some e =>
    rw [hf] at hw
    simp only [and_true] at hw
    obtain ⟨hmem, hn⟩ := findDentry_some hf
    split at hw
    · exact absurd hw (by simp)
    split at hw
    · exact hcreate (Except.ok.inj hw).symm
    · next hty h0 =>
      have hty : (w.tree.dentry e).type = .dir := by
        by_contra hno
        exact hty hno
      have hok := hsound.entry _ e hmem h0
      have hnm : ¬isDotDotdot (w.tree.dentry e).name := by rwa [hn]
      have hdir : w.tree.IsDir root (w.tree.dentry e).inode :=
        ⟨hok.type.symm.trans hty, Nat.pos_of_ne_zero h0, .inr ⟨w.pwd, e, hmem, rfl, hnm⟩⟩
      have hw := (Except.ok.inj hw).symm
      cases toHead with
      | false =>
        subst hw
        exact ⟨⟨⟨depth, hsound⟩, h.ext, .inr ⟨w.pwd, hmem, h0⟩, fun _ _ => hnm⟩, hdir⟩
      | true =>
        subst hw
        have hmem' := (mem_moveToHead hmem w.pwd e).2 hmem
        refine ⟨⟨⟨depth, hsound.moveToHead hmem⟩, h.ext.trans (extends_moveToHead hmem),
          .inr ⟨w.pwd, hmem', h0⟩, fun _ _ => hnm⟩, ?_⟩
        refine ⟨?_, hdir.2.1, .inr ⟨w.pwd, e, hmem', rfl, hnm⟩⟩
        change ((w.tree.setSubdirs _ _).inode (w.tree.dentry e).inode).mode = _
        unfold setSubdirs
        rw [setInode_inode]
        split
        · next hj =>
          rw [← hj]
          exact hdir.1
        · exact hdir.1

theorem createEntry_flags (w : LookupState) (s : Name) (slash : Bool) :
    (w.createEntry s slash).opq = w.opq ∧ (w.createEntry s slash).whout = w.whout := by
  unfold LookupState.createEntry
  cases slash <;> exact ⟨rfl, rfl⟩

theorem enterName_flags {slash : Bool} (hw : w.enterName toHead s slash = .ok w') :
    w'.opq = w.opq ∧ w'.whout = w.whout := by
  unfold LookupState.enterName at hw
  cases hf : w.tree.findDentry w.pwd s with
  | none =>
    rw [hf] at hw
    rw [← Except.ok.inj hw]
    exact createEntry_flags w s slash
  | some e =>
    rw [hf] at hw
    simp only at hw
    split at hw
    · exact absurd hw (by simp)
    split at hw
    · rw [← Except.ok.inj hw]
      exact createEntry_flags w s slash
    · rw [← Except.ok.inj hw]
      exact ⟨rfl, rfl⟩

theorem enterName_open (h : Reached root t w seen named) (hpwd : w.tree.IsDir root w.pwd)
    (hopq : w.opq = false) (hs : named → ¬isDotDotdot s) (hw : w.enterName toHead s false = .ok w') :
    Reached root t w' True named ∨ LeftOver root t w' named := by
  obtain ⟨depth, hsound⟩ := h.sound
  have hcreate : w' = w.createEntry s false →
      Reached root t w' True named ∨ LeftOver root t w' named := by
    rintro rfl
    have hpos := hpwd.2.1
    have hnd := hsound.pos
    have hext := extends_dalloc hsound (by omega : w.pwd ≠ 0) s
    have hd : ((w.tree.erofsDAlloc w.pwd s w.pwd .unknown).2.dentry w.tree.nextDentry) =
        .ofName s .unknown w.pwd := by rw [erofsDAlloc_dentry, if_pos rfl]
    refine .inr ⟨hopq, ⟨⟨depth, hsound.dalloc hpwd s⟩, ?_, ?_⟩, h.ext.trans hext, ?_,
      fun hnamed => ?_⟩
    · change w.tree.nextDentry ∈ (w.tree.erofsDAlloc w.pwd s w.pwd .unknown).2.subdirs
        ((w.tree.erofsDAlloc w.pwd s w.pwd .unknown).2.dentry w.tree.nextDentry).inode
      rw [hd]
      exact (mem_dalloc_iff _ _).2 (.inr ⟨rfl, rfl⟩)
    · change ((w.tree.erofsDAlloc w.pwd s w.pwd .unknown).2.dentry w.tree.nextDentry).type = _
      rw [hd]
      rfl
    · refine ⟨by change w.tree.nextDentry ≠ 0; omega, fun i hi => ?_⟩
      exact hsound.fresh le_rfl i (h.ext.keep i _ hi).1
    · change ¬isDotDotdot ((w.tree.erofsDAlloc w.pwd s w.pwd .unknown).2.dentry
        w.tree.nextDentry).name
      rw [hd]
      exact Sound.not_dot_ofName (hs hnamed) _ _
  unfold LookupState.enterName at hw
  cases hf : w.tree.findDentry w.pwd s with
  | none =>
    rw [hf] at hw
    exact hcreate (Except.ok.inj hw).symm
  | some e =>
    rw [hf] at hw
    simp only [Bool.false_eq_true, and_false, if_false] at hw
    obtain ⟨hmem, hn⟩ := findDentry_some hf
    split at hw
    · exact hcreate (Except.ok.inj hw).symm
    · next h0 =>
      have hw := (Except.ok.inj hw).symm
      left
      cases toHead with
      | false =>
        subst hw
        exact ⟨⟨depth, hsound⟩, h.ext, .inr ⟨w.pwd, hmem, h0⟩, fun hnamed _ => by
          change ¬isDotDotdot (w.tree.dentry e).name
          rw [hn]
          exact hs hnamed⟩
      | true =>
        subst hw
        have hmem' := (mem_moveToHead hmem w.pwd e).2 hmem
        exact ⟨⟨depth, hsound.moveToHead hmem⟩, h.ext.trans (extends_moveToHead hmem),
          .inr ⟨w.pwd, hmem', h0⟩, fun hnamed _ => by
            change ¬isDotDotdot (w.tree.dentry e).name
            rw [hn]
            exact hs hnamed⟩

variable {aufs : Bool} {c : PathComponent}

theorem component_still (h : Reached root t w seen named) (hpwd : w.tree.IsDir root w.pwd)
    (hc : ¬NamesEntry aufs c) (hw : w.component aufs toHead c.1 c.2 = .ok w') :
    Reached root t w' seen named ∧ w'.tree.IsDir root w'.pwd ∧
      (w'.opq = w.opq ∨ c.2 = false) := by
  obtain ⟨depth, hsound⟩ := h.sound
  unfold LookupState.component at hw
  split at hw
  · cases hw
    exact ⟨h, hpwd, .inl rfl⟩
  split at hw
  · cases hw
    exact ⟨⟨h.sound, h.ext, h.d, h.name⟩, hsound.isDir_parent hpwd, .inl rfl⟩
  split at hw
  · next hopq =>
    cases hw
    exact ⟨⟨h.sound, h.ext, h.d, h.name⟩, hpwd, .inr (by simpa using hopq.2.1)⟩
  · next hdot hdotdot hopq =>
    exact absurd ⟨fun hd => hd.elim hdot hdotdot, hopq⟩ hc

theorem component_enter (hc : NamesEntry aufs c)
    (hw : w.component aufs toHead c.1 c.2 = .ok w') :
    ∃ u : LookupState, u.tree = w.tree ∧ u.pwd = w.pwd ∧ u.d = w.d ∧ u.opq = w.opq ∧
      u.enterName toHead (entryName aufs c) c.2 = .ok w' := by
  have hdot : c.1 ≠ dotName := fun hd => hc.1 (.inl hd)
  have hdotdot : c.1 ≠ dotdotName := fun hd => hc.1 (.inr hd)
  have hopq : ¬(aufs = true ∧ ¬c.2 = true ∧ c.1 = aufsWhDiropq) := hc.2
  unfold LookupState.component at hw
  rw [if_neg hdot, if_neg hdotdot, if_neg hopq] at hw
  by_cases hwh : IsWhiteout aufs c
  · have hname : entryName aufs c = c.1.drop aufsWhPfx.length := if_pos hwh
    have hwh' : aufs = true ∧ ¬c.2 = true ∧ aufsWhPfx <+: c.1 := hwh
    rw [if_pos hwh'] at hw
    rw [hname]
    exact ⟨{ w with whout := true }, rfl, rfl, rfl, rfl, hw⟩
  · have hname : entryName aufs c = c.1 := if_neg hwh
    have hwh' : ¬(aufs = true ∧ ¬c.2 = true ∧ aufsWhPfx <+: c.1) := hwh
    rw [if_neg hwh'] at hw
    rw [hname]
    exact ⟨w, rfl, rfl, rfl, rfl, hw⟩

theorem runComponents_reached {cs : List PathComponent} (h : Reached root t w seen named)
    (hpwd : w.tree.IsDir root w.pwd) (hopen : OnlyLastOpen cs) (hopq : w.opq = false ∨ cs = [])
    (hnamed : named → ∀ c ∈ cs, NamesEntry aufs c → ¬isDotDotdot (entryName aufs c))
    (hw : runComponents aufs toHead w cs = .ok w') :
    Reached root t w' (seen ∨ ∃ c ∈ cs, NamesEntry aufs c) named ∨ LeftOver root t w' named := by
  induction cs generalizing w seen with
  | nil =>
    cases hw
    refine .inl ⟨h.sound, h.ext, ?_, h.name⟩
    simpa using h.d
  | cons c cs ih =>
    have hnamed' : named → ∀ c ∈ cs, NamesEntry aufs c → ¬isDotDotdot (entryName aufs c) :=
      fun hn c' hc' => hnamed hn c' (List.mem_cons_of_mem _ hc')
    unfold runComponents at hw
    cases hstep : w.component aufs toHead c.1 c.2 with
    | error err =>
      rw [hstep] at hw
      exact absurd hw (by simp)
    | ok w₁ =>
      rw [hstep] at hw
      have hop₀ : w.opq = false := hopq.resolve_right (List.cons_ne_nil _ _)
      by_cases hc : NamesEntry aufs c
      · obtain ⟨u, htree, hup, hud, huo, hu⟩ := component_enter hc hstep
        have hop₁ : w₁.opq = false := (enterName_flags hu).1.trans (huo.trans hop₀)
        have hru : Reached root t u seen named :=
          ⟨by rw [htree]; exact h.sound, by rw [htree]; exact h.ext,
            by rw [htree, hud]; exact h.d, by rw [htree, hud]; exact h.name⟩
        have hpu : u.tree.IsDir root u.pwd := by rw [htree, hup]; exact hpwd
        cases hc2 : c.2 with
        | true =>
          rw [hc2, entryName_slash aufs hc2] at hu
          obtain ⟨hr₁, hp₁⟩ := enterName_slash hru hpu hc.1 hu
          rcases ih hr₁ hp₁ hopen.2 (.inl hop₁) hnamed' hw with hr | hl
          · refine .inl ⟨hr.sound, hr.ext, ?_, hr.name⟩
            rcases hr.d with ⟨-, hno⟩ | ha
            · exact absurd (.inl trivial) hno
            · exact .inr ha
          · exact .inr hl
        | false =>
          have hcs := hopen.1 hc2
          subst hcs
          cases hw
          rw [hc2] at hu
          rcases enterName_open hru hpu (huo.trans hop₀)
            (fun hn => hnamed hn c List.mem_cons_self hc) hu with hr | hl
          · refine .inl ⟨hr.sound, hr.ext, ?_, hr.name⟩
            rcases hr.d with ⟨-, hno⟩ | ha
            · exact absurd trivial hno
            · exact .inr ha
          · exact .inr hl
      · obtain ⟨hr₁, hp₁, ho₁⟩ := component_still h hpwd hc hstep
        have hop₁ : w₁.opq = false ∨ cs = [] :=
          ho₁.imp (fun ho => ho.trans hop₀) (fun hc2 => hopen.1 hc2)
        rcases ih hr₁ hp₁ hopen.2 hop₁ hnamed' hw with hr | hl
        · refine .inl ⟨hr.sound, hr.ext, ?_, hr.name⟩
          refine hr.d.imp (fun hd => ⟨hd.1, ?_⟩) id
          rintro (hs | ⟨c', hc', hent⟩)
          · exact hd.2 (.inl hs)
          · rcases List.mem_cons.1 hc' with rfl | hc'
            · exact hc hent
            · exact hd.2 (.inr ⟨c', hc', hent⟩)
        · exact .inr hl

theorem runComponents_whout {cs : List PathComponent}
    (hw : runComponents aufs toHead w cs = .ok w') (hwh : w'.whout = true) :
    w.whout = true ∨ ∃ c ∈ cs, NamesEntry aufs c := by
  induction cs generalizing w with
  | nil =>
    cases hw
    exact .inl hwh
  | cons c cs ih =>
    by_cases hc : NamesEntry aufs c
    · exact .inr ⟨c, List.mem_cons_self, hc⟩
    unfold runComponents at hw
    cases hstep : w.component aufs toHead c.1 c.2 with
    | error err =>
      rw [hstep] at hw
      exact absurd hw (by simp)
    | ok w₁ =>
      rw [hstep] at hw
      rcases ih hw with hw₁ | ⟨c', hc', hent⟩
      · left
        unfold LookupState.component at hstep
        split at hstep
        · rw [Except.ok.inj hstep]
          exact hw₁
        split at hstep
        · rw [← Except.ok.inj hstep] at hw₁
          exact hw₁
        split at hstep
        · rw [← Except.ok.inj hstep] at hw₁
          exact hw₁
        · next hdot hdotdot hopq =>
          exact absurd ⟨fun hd => hd.elim hdot hdotdot, hopq⟩ hc
      · exact .inr ⟨c', List.mem_cons_of_mem _ hc', hent⟩

end Lookup

end ErofsUtils
