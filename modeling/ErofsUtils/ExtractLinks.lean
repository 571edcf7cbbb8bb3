import ErofsUtils.ExtractGroups

/-!
# Extraction of hard links

The directories are made first, each with those above it, and then the nodes that are none, in any
order. Each of them keeps the invariant of the nodes made so far. Extraction returns if the data of
the nodes can be read to its end.
-/

namespace ErofsUtils
open CString PathStrings

section Directories

variable {env : OutEnv} {L : List (List FileName)} {t : OutTree}

/-- A tree with the directories of a list, and with all above them, and with nothing else. -/
structure DirsOnly (L : List (List FileName)) (t : OutTree) : Prop where
  fresh : t.Fresh
  kinds : ∀ p i, t.find p = some i → t.kind i = .dir
  dirs : ∀ p, t.look p = some .dir ↔ p ≠ [] ∧ ∃ d ∈ L, p <+: d

theorem DirsOnly.congr {L' : List (List FileName)} (h : DirsOnly L t)
    (hL : ∀ p, p ≠ [] → ((∃ d ∈ L', p <+: d) ↔ ∃ d ∈ L, p <+: d)) : DirsOnly L' t where
  fresh := h.fresh
  kinds := h.kinds
  dirs := fun p => (h.dirs p).trans (and_congr_right fun hp => (hL p hp).symm)

theorem DirsOnly.find_eq_none (h : DirsOnly L t) {p : List FileName}
    (hp : ¬ ∃ d ∈ L, p <+: d) : t.find p = none := by
  cases hf : t.find p with
  | none => rfl
  | some i =>
      have hlook : t.look p = some .dir := FileNames.look_eq_some.mpr ⟨i, hf, h.kinds p i hf⟩
      exact absurd ((h.dirs p).mp hlook).2 hp

theorem exists_mem_cons_start {L : List (List FileName)} {cs d : List FileName}
    (h : cs <+: d) (p : List FileName) :
    (∃ e ∈ d :: cs :: L, p <+: e) ↔ ∃ e ∈ d :: L, p <+: e := by
  simp only [List.mem_cons, exists_eq_or_imp]
  constructor
  · rintro (hp | hp | hp)
    · exact Or.inl hp
    · exact Or.inl (hp.trans h)
    · exact Or.inr hp
  · rintro (hp | hp)
    · exact Or.inl hp
    · exact Or.inr (Or.inr hp)

/-- What `mkdirs` does for one directory, whose own directory is there. -/
theorem DirsOnly.ensure (h : DirsOnly L t) {path : List UInt8} {cs : List FileName}
    (hpath : pathComponents path = cs) (hne : cs ≠ [])
    (hpre : cs.dropLast = [] ∨ ∃ d ∈ L, cs.dropLast <+: d) :
    (stat env t path = none → ∃ t', sysCreate path .dir t = .ok t' ∧ DirsOnly (cs :: L) t') ∧
      (stat env t path ≠ none → DirsOnly (cs :: L) t) := by
  have hstat : stat env t path = t.look cs := by
    unfold stat
    rw [hpath, if_neg hne]
    split
    · next text hlook =>
        obtain ⟨i, hi, hk⟩ := FileNames.look_eq_some.mp hlook
        rw [h.kinds cs i hi] at hk
        cases hk
    · rfl
  rw [hstat]
  constructor
  · intro hnone
    have hfind : t.find cs = none := FileNames.look_eq_none.mp hnone
    have hdir : parentIsDir t cs = true := by
      rw [parentIsDir, decide_eq_true_eq, h.dirs]
      by_cases hnil : cs.dropLast = []
      · exact Or.inl hnil
      · exact Or.inr ⟨hnil, hpre.resolve_left hnil⟩
    refine ⟨t.create cs .dir, ?_, ?_⟩
    · have hcall := sysCreate_of_absent (t := t) (by rwa [hpath])
        (by rwa [hpath]) .dir
      rw [hcall, hpath, if_pos hdir]
    · constructor
      · exact h.fresh.create
      · intro p i hi
        rw [FileNames.find_create] at hi
        split at hi
        · cases hi
          exact FileNames.kind_create_next _ _ _
        · rw [FileNames.kind_create_of_lt (h.fresh p i hi)]
          exact h.kinds p i hi
      · intro p
        rw [FileNames.look_create h.fresh]
        simp only [List.mem_cons, exists_eq_or_imp]
        by_cases hp : p = cs
        · rw [if_pos hp, hp]
          exact iff_of_true rfl ⟨hne, Or.inl (List.prefix_refl cs)⟩
        · rw [if_neg hp, h.dirs]
          apply and_congr_right
          intro hpne
          constructor
          · exact Or.inr
          · rintro (hpc | hpc)
            · -- a proper prefix is one of the directory above
              have hpd : p <+: cs.dropLast := by
                rw [← List.dropLast_append_getLast hne, List.prefix_concat_iff] at hpc
                apply hpc.resolve_left
                rw [List.dropLast_append_getLast hne]
                exact hp
              have hnil : cs.dropLast ≠ [] := by
                intro hnil
                rw [hnil, List.prefix_nil] at hpd
                exact hpne hpd
              obtain ⟨d, hd, hdp⟩ := hpre.resolve_left hnil
              exact ⟨d, hd, hpd.trans hdp⟩
            · exact hpc
  · intro hsome
    apply h.congr
    intro p hp
    simp only [List.mem_cons, exists_eq_or_imp]
    constructor
    · rintro (hpc | hpc)
      · obtain ⟨i, hi⟩ := Option.ne_none_iff_exists'.mp hsome
        obtain ⟨j, hj, -⟩ := FileNames.look_eq_some.mp hi
        have hlook : t.look cs = some .dir :=
          FileNames.look_eq_some.mpr ⟨j, hj, h.kinds cs j hj⟩
        obtain ⟨d, hd, hdp⟩ := ((h.dirs cs).mp hlook).2
        exact ⟨d, hd, hpc.trans hdp⟩
      · exact hpc
    · exact Or.inr

theorem mkdirsLoop_name {pre c rest : List UInt8} (hc : 47 ∉ c) :
    mkdirsLoop env pre (c ++ rest) t = mkdirsLoop env (pre ++ c) rest t := by
  induction c generalizing pre with
  | nil => rw [List.nil_append, List.append_nil]
  | cons b c ih =>
      rw [List.mem_cons, not_or] at hc
      rw [List.cons_append, mkdirsLoop, if_neg fun h => hc.1 h.1.symm, ih hc.2,
        List.append_assoc, List.singleton_append]

theorem mkdirsLoop_dirs {cs ds : List FileName} (hcs : ∀ c ∈ cs ++ ds, IsComponent c)
    (h : DirsOnly L t) (hpre : cs.dropLast = [] ∨ ∃ d ∈ L, cs.dropLast <+: d) :
    ∃ t', mkdirsLoop env (cs.flatMap (47 :: ·)) (ds.flatMap (47 :: ·)) t = (0, t') ∧
      DirsOnly ((cs ++ ds) :: L) t' := by
  have hpath : pathComponents (cs.flatMap (47 :: ·)) = cs :=
    pathComponents_flatMap fun c hc => hcs c (List.mem_append_left _ hc)
  induction ds generalizing cs L t with
  | nil =>
      rw [List.flatMap_nil, List.append_nil, mkdirsLoop]
      by_cases hnil : cs = []
      · rw [if_neg (by simp [hnil])]
        refine ⟨t, rfl, h.congr fun p hp => ?_⟩
        simp [hnil, hp]
      · obtain ⟨hmake, hkeep⟩ := h.ensure hpath hnil hpre
        by_cases hstat : stat env t (cs.flatMap (47 :: ·)) = none
        · obtain ⟨t', hcall, ht'⟩ := hmake hstat
          have hne : cs.flatMap (47 :: ·) ≠ [] := by
            intro he
            rw [he] at hpath
            exact hnil hpath.symm
          rw [if_pos ⟨hne, hstat⟩, hcall]
          exact ⟨t', rfl, ht'⟩
        · rw [if_neg fun hand => hstat hand.2]
          exact ⟨t, rfl, hkeep hstat⟩
  | cons c ds ih =>
      have hsplit : (c :: ds).flatMap (47 :: ·) = 47 :: (c ++ ds.flatMap (47 :: ·)) := rfl
      have hc : 47 ∉ c := (hcs c (by simp)).2.1
      have hnext : cs.flatMap (47 :: ·) ++ [47] ++ c = (cs ++ [c]).flatMap (47 :: ·) := by
        rw [List.flatMap_append, List.flatMap_singleton, List.append_assoc,
          List.singleton_append]
      have hcs' : ∀ d ∈ cs ++ [c] ++ ds, IsComponent d := by
        rwa [List.append_assoc, List.singleton_append]
      have hpath' : pathComponents ((cs ++ [c]).flatMap (47 :: ·)) = cs ++ [c] :=
        pathComponents_flatMap fun d hd => hcs' d (List.mem_append_left _ hd)
      have hlast : (cs ++ [c]).dropLast = cs := List.dropLast_concat
      have hself : (cs ++ [c]).dropLast <+: cs := ⟨[], (List.append_nil _).trans hlast⟩
      rw [hsplit, mkdirsLoop]
      by_cases hnil : cs = []
      · rw [if_neg (by simp [hnil]), mkdirsLoop_name hc, hnext]
        obtain ⟨t', hrun, ht'⟩ := ih hcs' h (Or.inl (hlast.trans hnil)) hpath'
        rw [List.append_assoc, List.singleton_append] at ht'
        exact ⟨t', hrun, ht'⟩
      · obtain ⟨hmake, hkeep⟩ := h.ensure hpath hnil hpre
        have hne : cs.flatMap (47 :: ·) ≠ [] := by
          intro he
          rw [he] at hpath
          exact hnil hpath.symm
        have hrest : ∀ t1, DirsOnly (cs :: L) t1 → ∃ t',
            mkdirsLoop env (cs.flatMap (47 :: ·) ++ [47]) (c ++ ds.flatMap (47 :: ·)) t1 =
              (0, t') ∧ DirsOnly ((cs ++ c :: ds) :: L) t' := by
          intro t1 ht1
          rw [mkdirsLoop_name hc, hnext]
          obtain ⟨t', hrun, ht'⟩ := ih hcs' ht1
            (Or.inr ⟨cs, List.mem_cons_self, hself⟩) hpath'
          rw [List.append_assoc, List.singleton_append] at ht'
          exact ⟨t', hrun, ht'.congr fun p _ =>
            (exists_mem_cons_start (List.prefix_append cs (c :: ds)) p).symm⟩
        by_cases hstat : stat env t (cs.flatMap (47 :: ·)) = none
        · obtain ⟨t1, hcall, ht1⟩ := hmake hstat
          rw [if_pos ⟨rfl, hne, hstat⟩, hcall]
          exact hrest t1 ht1
        · rw [if_neg fun hand => hstat hand.2.2]
          exact hrest t (hkeep hstat)

end Directories

section Steps

variable {env : OutEnv} {N : NodeSet} {t : OutTree} {n m : ErofsNode}

/-- Directories are never in the table. -/
theorem hardlinkSource_of_dir (hn : n ∈ N.nodes) (hdir : n.typeId = .dir) :
    hardlinkSource N.nodes n.nid = none := by
  cases hsrc : hardlinkSource N.nodes n.nid with
  | none => rfl
  | some src =>
      obtain ⟨s, hs, hnid, -⟩ := NodeSet.source_node hsrc
      exact absurd ((NodeSet.typeId_eq hs.1 hn hnid).trans hdir) hs.2

theorem writeNode_dir {L : List (List FileName)} (h : DirsOnly L t) (hn : n ∈ N.nodes)
    (hdir : n.typeId = .dir) : ∃ ret t',
    writeNodeEntity2File env (erofsNodeClassification N.nodes).hardlinks n t = some (ret, t') ∧
      DirsOnly (n.name :: L) t' := by
  unfold writeNodeEntity2File
  rw [erofsHardlinkFind_classified, hardlinkSource_of_dir hn hdir, hdir]
  dsimp only
  rcases N.tree.inside n hn with ⟨cs, hcs, hpath⟩ | ⟨-, hroot⟩
  · obtain ⟨t', hrun, ht'⟩ := @mkdirsLoop_dirs _ _ _ [] _ hcs h (Or.inl rfl)
    have hname : n.name = [] ++ cs := by
      rw [ErofsNode.name, hpath, pathComponents_flatMap hcs]
      rfl
    unfold erofsExtractDir mkdirs
    rw [hname, hpath]
    change mkdirsLoop env [] _ t = _ at hrun
    rw [hrun]
    exact ⟨0, t', rfl, ht'⟩
  · -- the output directory itself is there
    have hstat : ∀ u, stat env u [47] = some .dir := fun u => if_pos (by decide)
    have hrun : mkdirsLoop env [] [47] t = (0, t) := by
      rw [mkdirsLoop, if_neg (by simp), mkdirsLoop, if_neg fun hand => ?_]
      have hnone := hand.2
      rw [List.nil_append, hstat] at hnone
      cases hnone
    have hname : n.name = [] := by
      rw [ErofsNode.name, hroot]
      decide
    unfold erofsExtractDir mkdirs
    rw [hname, hroot, hrun]
    refine ⟨0, t, rfl, h.congr fun p hp => ?_⟩
    simp [hp]

theorem writeNodes_dirs {ns : List ErofsNode} {L : List (List FileName)} (h : DirsOnly L t)
    (hns : ∀ n ∈ ns, n ∈ N.nodes ∧ n.typeId = .dir) :
    ∃ L' t', writeNodes env (erofsNodeClassification N.nodes).hardlinks ns t = some t' ∧
      DirsOnly L' t' ∧ ∀ d, d ∈ L' ↔ d ∈ L ∨ ∃ n ∈ ns, d = n.name := by
  induction ns generalizing L t with
  | nil => exact ⟨L, t, rfl, h, by simp⟩
  | cons n ns ih =>
      have hn := hns n List.mem_cons_self
      obtain ⟨ret, t1, hstep, ht1⟩ := @writeNode_dir env N t n L h hn.1 hn.2
      obtain ⟨L', t', hrun, hL', hmem⟩ := ih ht1 fun m hm => hns m (List.mem_cons_of_mem _ hm)
      rw [writeNodes, hstep]
      refine ⟨L', t', hrun, hL', fun d => ?_⟩
      rw [hmem]
      simp only [List.mem_cons, exists_eq_or_imp]
      tauto

theorem progress_dirs (env : OutEnv) (N : NodeSet) : ∃ t,
    writeNodes env (erofsNodeClassification N.nodes).hardlinks
        (erofsNodeClassification N.nodes).nodeDirs OutTree.empty = some t ∧
      Progress env N (fun _ => False) t := by
  have hempty : DirsOnly [] OutTree.empty := by
    constructor
    · intro p i h
      cases h
    · intro p i h
      cases h
    · intro p
      apply iff_of_false
      · intro h
        cases h
      · rintro ⟨-, d, hd, -⟩
        cases hd
  obtain ⟨L, t, hrun, hL, hmem⟩ := @writeNodes_dirs env N _
    (erofsNodeClassification N.nodes).nodeDirs [] hempty (by
      intro n hn
      rw [(classified_nodes N.nodes).1, List.mem_filter] at hn
      exact ⟨hn.1, of_decide_eq_true hn.2⟩)
  have hdirs : ∀ p, (∃ d ∈ L, p <+: d) ↔ ∃ d ∈ N.nodes, d.typeId = .dir ∧ p <+: d.name := by
    intro p
    constructor
    · rintro ⟨d, hd, hpd⟩
      rcases (hmem d).mp hd with hd | ⟨n, hn, rfl⟩
      · cases hd
      · rw [(classified_nodes N.nodes).1, List.mem_filter] at hn
        exact ⟨n, hn.1, of_decide_eq_true hn.2, hpd⟩
    · rintro ⟨n, hn, hdir, hpd⟩
      refine ⟨n.name, (hmem _).mpr (Or.inr ⟨n, ?_, rfl⟩), hpd⟩
      rw [(classified_nodes N.nodes).1]
      exact List.mem_filter.mpr ⟨hn, decide_eq_true hdir⟩
  have habsent : ∀ n, N.Other n → t.find n.name = none := by
    intro n hn
    apply hL.find_eq_none
    rw [hdirs]
    exact hn.not_above_dir
  refine ⟨t, hrun, ?_⟩
  constructor
  · exact hL.fresh
  · intro p
    rw [hL.dirs, hdirs]
  · intro n _ hfalse
    exact hfalse.elim
  · exact fun n hn _ => habsent n hn
  · intro n m hn _ i j hi
    rw [habsent n hn] at hi
    cases hi

/-- The nodes that are there once those in `done` have been processed: these, and for each of them
the one whose path the table has. -/
def Present (N : NodeSet) (done : List ErofsNode) (n : ErofsNode) : Prop :=
  n ∈ done ∨ ∃ m ∈ done, hardlinkSource N.nodes m.nid = some n.path

theorem present_cons {done : List ErofsNode} : Present N (n :: done) m ↔
    (Present N done m ∨ hardlinkSource N.nodes n.nid = some m.path) ∨ m = n := by
  simp only [Present, List.mem_cons, exists_eq_or_imp]
  constructor
  · rintro ((he | hdone) | hsrc | hex)
    · exact Or.inr he
    · exact Or.inl (Or.inl (Or.inl hdone))
    · exact Or.inl (Or.inr hsrc)
    · exact Or.inl (Or.inl (Or.inr hex))
  · rintro (((hdone | hex) | hsrc) | he)
    · exact Or.inl (Or.inr hdone)
    · exact Or.inr (Or.inr hex)
    · exact Or.inr (Or.inl hsrc)
    · exact Or.inl (Or.inl he)

/-- A node that is present because of the table has its path there. -/
theorem present_cases {done : List ErofsNode} (hn : N.Other n) (h : Present N done n) :
    n ∈ done ∨ ∃ m ∈ done, m.nid = n.nid ∧ hardlinkSource N.nodes n.nid = some n.path := by
  rcases h with h | ⟨m, hm, hsrc⟩
  · exact Or.inl h
  · obtain ⟨s, hs, hnid, hpath⟩ := NodeSet.source_node hsrc
    have he : n = s := hn.eq_of_path hs.1 hpath.symm
    exact Or.inr ⟨m, hm, by rw [he, hnid], by rw [he, hnid, hsrc, hpath]⟩

theorem extractFile_step {P : ErofsNode → Prop} (h : Progress env N P t) (hn : N.Other n)
    (hfind : t.find n.name = none) (hP : ¬ (P n ∧ Makeable env N.nodes n))
    (hmake_iff : Makeable env N.nodes n ↔ HasDir N.nodes n.path)
    (hkind : madeKind env N.nodes n = (extracted env n).map .file)
    (hkey : ¬ P n → ∀ m, N.Other m → P m → linkKey N.nodes m ≠ linkKey N.nodes n)
    {r : ℤ × OutTree} (hrun : erofsExtractFile env n.inode n.path t = some r) :
    Progress env N (fun m => P m ∨ m = n) r.2 := by
  have hres := @erofsExtractFile_of_absent env n.path t n.inode hn.name_ne_nil hfind
  rw [hrun, Option.map_some] at hres
  by_cases hdir : parentIsDir t (pathComponents n.path) = true
  · have hmake := hmake_iff.mpr (h.parentIsDir_iff.mp hdir)
    have hPn : ¬ P n := fun hPn => hP ⟨hPn, hmake⟩
    rw [if_pos hdir] at hres
    obtain ⟨w, hw, hr⟩ := Option.map_eq_some_iff.mp hres.symm
    rw [← hr]
    exact h.create hn hPn hmake (by rw [hkind, extracted, hw]; rfl) (hkey hPn)
  · rw [if_neg hdir] at hres
    rw [Option.some.inj hres]
    exact h.skip fun hmake => hdir (h.parentIsDir_iff.mpr (hmake_iff.mp hmake))

theorem writeNode_separate {P : ErofsNode → Prop} (h : Progress env N P t) (hn : N.Other n)
    (hP : ¬ P n) (hsrc : hardlinkSource N.nodes n.nid = none)
    (hkey : ∀ m, N.Other m → P m → linkKey N.nodes m ≠ linkKey N.nodes n) {r : ℤ × OutTree}
    (hrun : writeNodeEntity2File env (erofsNodeClassification N.nodes).hardlinks n t =
      some r) :
    Progress env N (fun m => P m ∨ m = n) r.2 := by
  have hfind : t.find n.name = none := h.absent n hn fun hand => hP hand.1
  have hmake_iff : Makeable env N.nodes n ↔ HasDir N.nodes n.path ∧ HasText env n := by
    rw [Makeable, hsrc]
  have hkind_eq : madeKind env N.nodes n = kindOf env (extracted env n) n := by
    rw [madeKind, hsrc]
  -- what is made, if the directory is there, is what the node is
  have hcreate : ∀ {k : OutKind}, kindOf env (extracted env n) n = some k → HasText env n →
      some r.2 = some (if parentIsDir t n.name then t.create n.name k else t) →
      Progress env N (fun m => P m ∨ m = n) r.2 := by
    intro k hk htext he
    rw [Option.some.inj he]
    by_cases hdir : parentIsDir t n.name = true
    · rw [if_pos hdir]
      exact h.create hn hP (hmake_iff.mpr ⟨h.parentIsDir_iff.mp hdir, htext⟩)
        (hkind_eq.trans hk) hkey
    · rw [if_neg hdir]
      exact h.skip fun hmake => hdir (h.parentIsDir_iff.mpr (hmake_iff.mp hmake).1)
  unfold writeNodeEntity2File at hrun
  rw [erofsHardlinkFind_classified, hsrc] at hrun
  cases htype : n.typeId with
  | dir => exact absurd htype hn.2
  | unknown => exact absurd htype (N.typed n hn.1).2
  | regFile =>
      have htext : HasText env n := fun hs => by rw [htype] at hs; cases hs
      rw [htype] at hrun
      exact extractFile_step h hn hfind (fun hand => hP hand.1)
        (hmake_iff.trans (and_iff_left htext)) (by rw [hkind_eq, kindOf, htype])
        (fun _ => hkey) hrun
  | symlink =>
      rw [htype] at hrun
      by_cases htext : HasText env n
      · obtain ⟨text, hread, hne⟩ := htext htype
        have hk : kindOf env (extracted env n) n = some (.symlink (upToNul text)) := by
          rw [kindOf, htype, hread]
        have hres := @erofsExtractSymlink_of_absent env n.path t n.inode text hn.name_ne_nil
          hfind hread hne
        dsimp only at hrun
        rw [hrun] at hres
        exact hcreate hk htext hres
      · rw [erofsExtractSymlink_of_no_text (fun text hread => ?_) hrun]
        · exact h.skip fun hmake => htext (hmake_iff.mp hmake).2
        · by_contra hne
          exact htext fun _ => ⟨text, hread, hne⟩
  | chrdev | blkdev | fifo | sock =>
      have hk : kindOf env (extracted env n) n =
          some (.special n.inode.mode (env.rdev n.inode)) := by
        rw [kindOf, htype]
      rw [htype] at hrun
      cases hrun
      exact hcreate hk (fun hs => by rw [htype] at hs; cases hs)
        (congrArg some (erofsExtractSpecial_of_absent n.inode hn.name_ne_nil hfind))

/-- The first half of the step for a node with a path in the table: the node at that path is made,
if it is not there. -/
theorem extractSource {P : ErofsNode → Prop} {s : ErofsNode} (h : Progress env N P t)
    (hs : N.Other s) (hsrc : hardlinkSource N.nodes s.nid = some s.path)
    (hkey : ¬ P s → ∀ m, N.Other m → P m → linkKey N.nodes m ≠ linkKey N.nodes s)
    {r : ℤ × OutTree} (hrun : (if fileExists env t s.path then some (0, t)
      else erofsExtractFile env s.inode s.path t) = some r) :
    Progress env N (fun m => P m ∨ m = s) r.2 := by
  have hmake_iff : Makeable env N.nodes s ↔ HasDir N.nodes s.path := by
    rw [Makeable, hsrc]
    simp
  have hkind : madeKind env N.nodes s = (extracted env s).map .file := by
    rw [madeKind, hsrc]
  have hstat := @stat_of_look env s.path t s.name rfl hs.name_ne_nil
  by_cases hP : P s ∧ Makeable env N.nodes s
  · obtain ⟨k, hk, hlook⟩ := h.made s hs hP.1 hP.2
    obtain ⟨data, -, rfl⟩ := Option.map_eq_some_iff.mp (hkind.symm.trans hk)
    have hexists : fileExists env t s.path = true := by
      rw [fileExists, hstat, hlook]
    rw [if_pos hexists] at hrun
    cases hrun
    exact h.congr fun m _ => or_iff_left_of_imp fun he => he ▸ hP.1
  · have hexists : ¬ fileExists env t s.path = true := by
      rw [fileExists, hstat, FileNames.look_eq_none.mpr (h.absent s hs hP)]
      simp
    rw [if_neg hexists] at hrun
    exact extractFile_step h hs (h.absent s hs hP) hP hmake_iff hkind hkey hrun

/-- The second half: the node becomes a link to the other. -/
theorem linkSource {P : ErofsNode → Prop} {s : ErofsNode} (h : Progress env N P t)
    (hn : N.Other n) (hs : N.Other s) (hPs : P s) (hP : ¬ P n) (hnid : s.nid = n.nid)
    (hsrc : hardlinkSource N.nodes s.nid = some s.path) (hpre : ¬ n.path <+: s.path) :
    Progress env N (fun m => P m ∨ m = n)
      (createAgain env n.path (sysLink s.path n.path) t).2 := by
  have hsrc' : hardlinkSource N.nodes n.nid = some s.path := hnid ▸ hsrc
  have hmake_iff : Makeable env N.nodes n ↔ HasDir N.nodes n.path ∧ HasDir N.nodes s.path := by
    rw [Makeable, hsrc']
    exact and_congr_right fun _ => and_iff_left (Or.inr hpre)
  have hkey : linkKey N.nodes s = linkKey N.nodes n := by
    rw [linkKey, linkKey, hsrc, hsrc', hnid]
  have hdirs : ∀ i, t.find (pathComponents s.path) = some i → t.kind i ≠ .dir := by
    intro i hi hdir
    have hlook : t.look s.name = some .dir := FileNames.look_eq_some.mpr ⟨i, hi, hdir⟩
    exact hs.not_above_dir ((h.dirs _).mp hlook).2
  rw [createAgain_link hn.name_ne_nil (h.absent n hn fun hand => hP hand.1) hdirs]
  cases hfind : t.find (pathComponents s.path) with
  | none =>
      apply h.skip
      intro hmake
      have hmake_s : Makeable env N.nodes s := by
        rw [Makeable, hsrc]
        exact ⟨(hmake_iff.mp hmake).2, (hmake_iff.mp hmake).2, Or.inl rfl⟩
      obtain ⟨k, -, hlook⟩ := h.made s hs hPs hmake_s
      obtain ⟨i, hi, -⟩ := FileNames.look_eq_some.mp hlook
      change t.find s.name = none at hfind
      rw [hi] at hfind
      cases hfind
  | some i =>
      dsimp only
      by_cases hdir : parentIsDir t (pathComponents n.path) = true
      · rw [if_pos hdir]
        have hdir_s : HasDir N.nodes s.path := (h.of_find hs hfind).2.1
        exact h.link hn (hmake_iff.mpr ⟨h.parentIsDir_iff.mp hdir, hdir_s⟩) hs hfind hkey
          (NodeSet.madeKind_of_nid hs.1 hn.1 hnid hsrc)
      · rw [if_neg hdir]
        exact h.skip fun hmake => hdir (h.parentIsDir_iff.mpr (hmake_iff.mp hmake).1)

theorem writeNode_step {done : List ErofsNode} (h : Progress env N (Present N done) t)
    (hn : N.Other n) (hnew : n ∉ done) {r : ℤ × OutTree}
    (hrun : writeNodeEntity2File env (erofsNodeClassification N.nodes).hardlinks n t =
      some r) :
    Progress env N (Present N (n :: done)) r.2 := by
  cases hsrc : hardlinkSource N.nodes n.nid with
  | none =>
      have habsent : ¬ Present N done n := by
        intro hP
        rcases present_cases hn hP with hP | ⟨m, -, -, hm⟩
        · exact hnew hP
        · rw [hsrc] at hm
          cases hm
      have hkey : ∀ m, N.Other m → Present N done m → linkKey N.nodes m ≠ linkKey N.nodes n := by
        intro m hm hP he
        rw [linkKey, linkKey, hsrc] at he
        split at he
        · cases he
        · have hmn : m = n := hm.eq_of_path hn.1 (Sum.inr.inj he)
          exact habsent (hmn ▸ hP)
      apply (writeNode_separate h hn habsent hsrc hkey hrun).congr
      intro m _
      rw [present_cons, hsrc]
      simp
  | some src =>
      obtain ⟨s, hs, hnid, rfl⟩ := NodeSet.source_node hsrc
      have hsrc_s : hardlinkSource N.nodes s.nid = some s.path := hnid ▸ hsrc
      have hpresent : ∀ m, N.Other m →
          (Present N (n :: done) m ↔ (Present N done m ∨ m = s) ∨ m = n) := by
        intro m hm
        have hms : s.path = m.path ↔ m = s :=
          ⟨fun he => hm.eq_of_path hs.1 he.symm, fun he => he ▸ rfl⟩
        rw [present_cons, hsrc, Option.some.injEq, hms]
      -- a node with the same key that is there has brought the node at `src` with it
      have hkey : ¬ Present N done s → ∀ m, N.Other m → Present N done m →
          linkKey N.nodes m ≠ linkKey N.nodes s := by
        intro hPs m hm hP he
        rw [linkKey, linkKey, hsrc_s] at he
        split at he
        · next src' hsrc' =>
            have hmnid : m.nid = s.nid := Sum.inl.inj he
            rcases present_cases hm hP with hmem | ⟨m', hm', hnid', -⟩
            · exact hPs (Or.inr ⟨m, hmem, hmnid ▸ hsrc_s⟩)
            · exact hPs (Or.inr ⟨m', hm', by rw [hnid', hmnid, hsrc_s]⟩)
        · cases he
      unfold writeNodeEntity2File erofsExtractHardlink at hrun
      rw [erofsHardlinkFind_classified, hsrc] at hrun
      dsimp only at hrun
      rw [← N.same s hs.1 n hn.1 hnid] at hrun
      split at hrun
      · cases hrun
      next ret t1 hmade =>
      cases hrun
      have hfirst := extractSource h hs hsrc_s hkey hmade
      unfold linkTarget
      by_cases hpre : n.path.isPrefixOf s.path = true
      · rw [if_pos hpre]
        by_cases hns : n = s
        · apply hfirst.congr
          intro m hm
          rw [hpresent m hm, hns, or_assoc, or_self]
        · apply (hfirst.skip (n := n) ?_).congr hpresent
          rintro ⟨-, hmake⟩
          rw [hsrc] at hmake
          rcases hmake.2 with he | hnot
          · exact hns (hn.eq_of_path hs.1 he)
          · exact hnot (List.isPrefixOf_iff_prefix.mp hpre)
      · rw [if_neg hpre]
        have hnot : ¬ n.path <+: s.path := fun hp => hpre (List.isPrefixOf_iff_prefix.mpr hp)
        have habsent : ¬ (Present N done n ∨ n = s) := by
          rintro (hP | he)
          · rcases present_cases hn hP with hP | ⟨m, -, -, hm⟩
            · exact hnew hP
            · rw [hsrc] at hm
              exact hnot (Option.some.inj hm ▸ List.prefix_refl _)
          · exact hnot (he ▸ List.prefix_refl _)
        exact (linkSource hfirst hn hs (Or.inr rfl) habsent hnid hsrc_s hnot).congr hpresent

theorem writeNodes_run {ns done : List ErofsNode} {t' : OutTree}
    (h : Progress env N (Present N done) t) (hns : ∀ m ∈ ns, N.Other m) (hnodup : ns.Nodup)
    (hdisj : ∀ m ∈ ns, m ∉ done)
    (hrun : writeNodes env (erofsNodeClassification N.nodes).hardlinks ns t = some t') :
    ∃ done', (∀ m, m ∈ done' ↔ m ∈ done ∨ m ∈ ns) ∧ Progress env N (Present N done') t' := by
  induction ns generalizing done t with
  | nil =>
      cases hrun
      exact ⟨done, fun m => by simp, h⟩
  | cons n ns ih =>
      rw [List.nodup_cons] at hnodup
      have hn := hns n List.mem_cons_self
      rw [writeNodes] at hrun
      split at hrun
      · cases hrun
      next ret t1 hnode =>
      have hstep := writeNode_step h hn (hdisj n List.mem_cons_self) hnode
      obtain ⟨done', hmem, hrest⟩ := ih hstep
        (fun m hm => hns m (List.mem_cons_of_mem n hm)) hnodup.2 (by
          intro m hm hmem
          rcases List.mem_cons.mp hmem with rfl | hmem
          · exact hnodup.1 hm
          · exact hdisj m (List.mem_cons_of_mem n hm) hmem) hrun
      refine ⟨done', fun m => ?_, hrest⟩
      rw [hmem, List.mem_cons, List.mem_cons]
      tauto

theorem extractErofsNode_progress (N : NodeSet)
    (hrun : extractErofsNode env N.nodes N.order OutTree.empty = some t) :
    Progress env N (fun _ => True) t := by
  have hother : ∀ m, m ∈ N.order ↔ N.Other m := by
    intro m
    rw [N.tree.perm.mem_iff, List.mem_filter, decide_eq_true_eq]
    rfl
  obtain ⟨t1, hdirs, ht1⟩ := progress_dirs env N
  have hstart : Progress env N (Present N []) t1 := ht1.congr fun n _ => by simp [Present]
  unfold extractErofsNode at hrun
  dsimp only at hrun
  rw [hdirs] at hrun
  obtain ⟨done, hmem, hdone⟩ := writeNodes_run hstart (fun m hm => (hother m).mp hm)
    (N.tree.perm.nodup_iff.mpr (N.tree.nodup.filter _)) (fun m _ hm => nomatch hm) hrun
  apply hdone.congr
  intro n hn
  exact iff_of_true trivial (Or.inl ((hmem n).mpr (Or.inr ((hother n).mpr hn))))

/-- The data of a node can be read to its end, where extraction needs it. -/
def Returns (env : OutEnv) (N : NodeSet) (n : ErofsNode) : Prop :=
  (n.typeId = .regFile ∨ hardlinkSource N.nodes n.nid ≠ none → env.verifyInodeData n.inode ≠ none) ∧
    (n.typeId = .symlink → env.pread n.inode ≠ none)

theorem erofsExtractFile_returns {inode : FsckInode} {path : List UInt8}
    (h : env.verifyInodeData inode ≠ none) : erofsExtractFile env inode path t ≠ none := by
  obtain ⟨r, hr⟩ := Option.ne_none_iff_exists'.mp h
  have hfill : ∀ opened, fillFile env inode opened ≠ none := by
    intro opened
    unfold fillFile
    rw [hr]
    simp
  unfold erofsExtractFile
  split
  · exact hfill _
  · split
    · split
      · simp
      · split
        · exact hfill _
        · simp
    · simp

theorem writeNode_returns (h : Returns env N n) :
    writeNodeEntity2File env (erofsNodeClassification N.nodes).hardlinks n t ≠ none := by
  unfold writeNodeEntity2File
  rw [erofsHardlinkFind_classified]
  cases hsrc : hardlinkSource N.nodes n.nid with
  | some src =>
      have hfile := h.1 (Or.inr (by simp [hsrc]))
      dsimp only
      unfold erofsExtractHardlink
      split
      · next hmade =>
          split at hmade
          · cases hmade
          · exact absurd hmade (erofsExtractFile_returns hfile)
      · simp
  | none =>
      dsimp only
      cases htype : n.typeId with
      | regFile => exact erofsExtractFile_returns (h.1 (Or.inl htype))
      | symlink =>
          obtain ⟨r, hr⟩ := Option.ne_none_iff_exists'.mp (h.2 htype)
          dsimp only
          unfold erofsExtractSymlink
          rw [hr]
          cases r with
          | error e => simp
          | ok text => simp
      | dir | chrdev | blkdev | fifo | sock | unknown => simp

theorem writeNodes_returns {ns : List ErofsNode} (h : ∀ n ∈ ns, Returns env N n) :
    ∃ t', writeNodes env (erofsNodeClassification N.nodes).hardlinks ns t = some t' := by
  induction ns generalizing t with
  | nil => exact ⟨t, rfl⟩
  | cons n ns ih =>
      obtain ⟨⟨ret, t1⟩, ht1⟩ :=
        Option.ne_none_iff_exists'.mp (@writeNode_returns env N t n (h n List.mem_cons_self))
      rw [writeNodes, ht1]
      exact ih fun m hm => h m (List.mem_cons_of_mem n hm)

theorem extractErofsNode_returns (h : ∀ n, N.Other n → Returns env N n) :
    ∃ t, extractErofsNode env N.nodes N.order OutTree.empty = some t := by
  obtain ⟨t1, hdirs, -⟩ := progress_dirs env N
  unfold extractErofsNode
  dsimp only
  rw [hdirs]
  apply writeNodes_returns
  intro n hn
  rw [N.tree.perm.mem_iff, List.mem_filter, decide_eq_true_eq] at hn
  exact h n hn

end Steps

end ErofsUtils
