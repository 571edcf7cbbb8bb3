import ErofsUtils.TarLookup

/-!
# The tree that a tar archive leaves

One entry of an archive takes a tree that is in order to one that is in order, unless it reaches
one of the slips of `tarerofs_parse_tar`; the same holds for a whole archive by induction.
-/

namespace ErofsUtils

open TreeHeap

structure TarTree (t : TreeHeap) (root : ℕ) : Prop where
  sound : ∃ depth, t.Sound root depth
  full : ∀ i e, e ∈ t.subdirs i → (t.dentry e).inode ≠ 0
  dotted : t.Dotted root

structure TarHole (t : TreeHeap) (root d : ℕ) : Prop where
  sound : ∃ depth, t.Sound root depth
  mem : ∃ k, d ∈ t.subdirs k
  zero : (t.dentry d).inode = 0
  full : ∀ i e, e ∈ t.subdirs i → e ≠ d → (t.dentry e).inode ≠ 0
  dotted : t.Dotted root

section Holes

variable {t t' : TreeHeap} {root d k : ℕ}

/-- The directories of a larger tree have their `..`. -/
theorem dotted_extends (h : t.Dotted root) {depth : ℕ → ℕ} (hs : t.Sound root depth)
    {depth' : ℕ → ℕ} (hs' : t'.Sound root depth') (hext : Extends t t') : t'.Dotted root := by
  rintro i ⟨hm, hpos, rfl | ⟨j, e, he, rfl, hn⟩⟩
  · exact hext.hasDotdot (h _ ⟨hs.root_dir, hpos, .inl rfl⟩)
  · have hok := hs'.entry j e he (by omega)
    rcases hext.new j e he with hold | ⟨-, hdot⟩
    · have hd := (hext.keep j e hold).2
      rw [hd] at hpos hn ⊢
      have hok' := hs.entry j e hold (by omega)
      have hm' : (t.inode (t.dentry e).inode).mode = .dir := by
        rw [← hok'.type, ← hd, hok.type, hm]
      exact hext.hasDotdot (h _ ⟨hm', hpos, .inr ⟨j, e, hold, rfl, hn⟩⟩)
    · exact hdot (hok.type.trans hm) hn

theorem full_extends {P : ℕ → Prop} (h : ∀ i e, e ∈ t.subdirs i → P e → (t.dentry e).inode ≠ 0)
    (hext : Extends t t') : ∀ i e, e ∈ t'.subdirs i → P e → (t'.dentry e).inode ≠ 0 := by
  intro i e he hp
  rcases hext.new i e he with hold | ⟨h0, -⟩
  · rw [(hext.keep i e hold).2]
    exact h i e hold hp
  · exact h0

theorem hole_of_dropped {depth : ℕ → ℕ} (hd : Dropped t t' root depth k d) (hmem : d ∈ t.subdirs k)
    (hs : t.Sound root depth) (h0 : (t.dentry d).inode ≠ 0)
    (hn : ¬isDotDotdot (t.dentry d).name) (hfull : ∀ i e, e ∈ t.subdirs i → (t.dentry e).inode ≠ 0)
    (hdot : t.Dotted root) : TarHole t' root d := by
  refine ⟨⟨depth, hd.sound⟩, ⟨k, by rw [hd.here]; exact hmem⟩, hd.zero, ?_, ?_⟩
  · intro i e he hed
    rcases hd.frame i with hf | ⟨hsub, hkeep⟩
    · rw [hf.1] at he
      exact absurd he List.not_mem_nil
    · rw [hsub] at he
      rw [hkeep e he hed]
      exact hfull i e he
  · rintro i ⟨hm, hpos, hor⟩
    have hi : t.IsDir root i := by
      refine ⟨(hd.mode i).symm.trans hm, hpos, hor.imp id ?_⟩
      rintro ⟨j, e, he, hei, hen⟩
      have hed : e ≠ d := by
        rintro rfl
        rw [hd.zero] at hei
        omega
      rcases hd.frame j with hf | ⟨hsub, hkeep⟩
      · rw [hf.1] at he
        exact absurd he List.not_mem_nil
      · rw [hsub] at he
        rw [hkeep e he hed] at hei hen
        exact ⟨j, e, he, hei, hen⟩
    obtain ⟨f, hf, hfn, hf0⟩ := hdot i hi
    have hfd : f ≠ d := by
      rintro rfl
      exact hn (.inr hfn)
    rcases hd.frame i with hfree | ⟨hsub, hkeep⟩
    · -- a directory that is referred to is not freed
      rcases hor with rfl | ⟨j, e, he, hei, -⟩
      · have hc := hd.sound.counted i hpos (hd.sound.root_lt.2)
        have hdir : t'.IsDir i i := ⟨hd.sound.root_dir, hpos, .inl rfl⟩
        have hnil := hfree.1
        obtain ⟨-, -, hno⟩ := hfree
        by_cases hki : k = i
        · rw [hki] at hmem
          have hh := hd.here
          rw [hki, hnil] at hh
          rw [← hh] at hmem
          exact absurd hmem List.not_mem_nil
        · -- the chain of directories above `k` ends at the root
          have hkdir := hd.sound.isDir (by rw [hd.here]; exact hmem : d ∈ t'.subdirs k)
          exfalso
          have hchain : ∀ n j, depth j = n → t'.IsDir i j → j = i := by
            intro n
            induction n with
            | zero =>
              intro j hj hjd
              by_contra hji
              obtain ⟨g, -, -, -, hdep⟩ := hd.sound.parent hjd hji
              omega
            | succ n ih =>
              intro j hj hjd
              by_contra hji
              obtain ⟨g, hg, -, -, hdep⟩ := hd.sound.parent hjd hji
              have hpj := ih _ (by omega) (hd.sound.isDir_parent hjd)
              rw [hpj, hnil] at hg
              exact absurd hg List.not_mem_nil
          exact hki (hchain _ k rfl hkdir)
      · exact absurd hei (hfree.2.2 j e he)
    · refine ⟨f, by rw [hsub]; exact hf, ?_, ?_⟩
      · rw [hkeep f hf hfd]
        exact hfn
      · rw [hkeep f hf hfd]
        exact hf0

theorem hole_of_replace {depth : ℕ → ℕ} (hs : t.Sound root depth) (hmem : d ∈ t.subdirs k)
    (hn : ¬isDotDotdot (t.dentry d).name) (hfull : ∀ i e, e ∈ t.subdirs i → (t.dentry e).inode ≠ 0)
    (hdot : t.Dotted root) (x : ℕ) :
    TarHole ((t.replaceInode d x).setDentryInode d 0) root d ∧
      ((t.replaceInode d x).setDentryInode d 0).subdirs k = t.subdirs k ∧
      ((t.replaceInode d x).dentry d).name = (t.dentry d).name ∧
      ((t.replaceInode d x).dentry d).inode = x := by
  have h0 := hfull k d hmem
  have hdrop := dropEntry_dropped t.nextInode t k d hs hmem h0 (by omega)
    (fun j _ f hf => hfull j f hf)
  have heq : (t.replaceInode d x).setDentryInode d 0 = dropEntry t.nextInode t d := by
    unfold replaceInode dropEntry
    simp only [if_neg hn]
    unfold setDentryInode setDentry
    simp
  have hname : ((t.replaceInode d x).dentry d).name = (t.dentry d).name := by
    have hnm := (hdrop.names d).1
    rw [← heq, setDentryInode_dentry, if_pos rfl] at hnm
    exact hnm
  refine ⟨?_, ?_, hname, ?_⟩
  · rw [heq]
    exact hole_of_dropped hdrop hmem hs h0 hn hfull hdot
  · rw [heq]
    exact hdrop.here
  · unfold replaceInode
    rw [setDentryInode_dentry, if_pos rfl]

theorem hole_of_leftOver {w : LookupState} {named : Prop} (h : TarTree t root)
    (hl : LeftOver root t w named) (hn : ¬isDotDotdot (w.tree.dentry w.d).name) :
    TarHole (w.tree.setDentryInode w.d 0) root w.d := by
  obtain ⟨depth, hs⟩ := h.sound
  obtain ⟨⟨depth', hs'⟩, hmem, hty⟩ := hl.unfilled
  have hne : ∀ i e, e ∈ t.subdirs i → e ≠ w.d := by
    rintro i e he rfl
    exact hl.fresh.2 i he
  have hd : ∀ e, e ≠ w.d → (w.tree.setDentryInode w.d 0).dentry e = w.tree.dentry e := by
    intro e he
    rw [setDentryInode_dentry, if_neg he]
  refine ⟨⟨depth', hs'⟩, ⟨_, hmem⟩, by rw [setDentryInode_dentry, if_pos rfl], ?_, ?_⟩
  · intro i e he hed
    rw [hd e hed]
    exact full_extends (P := fun _ => True) (fun i e he _ => h.full i e he) hl.ext i e he trivial
  · rintro i ⟨hm, hpos, hor⟩
    have hkeepdot : ∀ i, t.HasDotdot i → (w.tree.setDentryInode w.d 0).HasDotdot i := by
      rintro i ⟨f, hf, hfn, hf0⟩
      obtain ⟨hf', hdf⟩ := hl.ext.keep i f hf
      refine ⟨f, hf', ?_, ?_⟩
      · rw [hd f (hne i f hf), hdf]
        exact hfn
      · rw [hd f (hne i f hf), hdf]
        exact hf0
    rcases hor with rfl | ⟨j, e, he, rfl, hen⟩
    · exact hkeepdot _ (h.dotted _ ⟨hs.root_dir, hpos, .inl rfl⟩)
    · have hed : e ≠ w.d := by
        rintro rfl
        rw [setDentryInode_dentry, if_pos rfl] at hpos
        exact absurd hpos (lt_irrefl _)
      have hok := hs'.entry j e he (by omega)
      have htye := hok.type.trans hm
      rw [hd e hed] at hen htye ⊢
      rcases hl.ext.new j e he with hold | ⟨-, hdot⟩
      · have hde := (hl.ext.keep j e hold).2
        have hok' := hs.entry j e hold (h.full j e hold)
        rw [hde] at hen htye ⊢
        exact hkeepdot _ (h.dotted _ ⟨hok'.type.symm.trans htye,
          Nat.pos_of_ne_zero (h.full j e hold), .inr ⟨j, e, hold, rfl, hen⟩⟩)
      · obtain ⟨f, hf, hfn, hf0⟩ := hdot htye hen
        have hfd : f ≠ w.d := by
          intro hfd
          rw [hfd] at hfn
          exact hn (.inr hfn)
        refine ⟨f, hf, ?_, ?_⟩
        · rw [hd f hfd]
          exact hfn
        · rw [hd f hfd]
          exact hf0

end Holes

end ErofsUtils
