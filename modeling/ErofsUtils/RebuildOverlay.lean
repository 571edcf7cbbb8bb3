import ErofsUtils.RebuildMerge

/-!
# Layer merge against overlayfs

The tree that is merged from a list of images shows what overlayfs shows for them exactly when
nothing is loaded at a path where overlayfs shows nothing, and every name that is shown fits into
a dentry. The first condition fails when a later image has a directory below something that is not
a directory, or below a directory marked as opaque, in an image in the middle.
-/

namespace ErofsUtils
open MergeDir

/-- The merged tree has at every path the entry that overlayfs shows there, and nothing else. -/
def ShowsOverlay (root : MergeDir) (layers : List Layer) : Prop :=
  ∀ c path, root.entriesAt (c :: path) = (overlayAt layers (c :: path)).toList

def rootStacks (layers : List Layer) : Stacks := fun c =>
  childStack c (layers.map Layer.node)

/-- Where something is loaded overlayfs shows something. -/
def NothingExposed (layers : List Layer) : Prop :=
  ∀ c path, loadedAt (rootStacks layers c) path ≠ [] →
    shownAt (layers.map Layer.node) (c :: path) ≠ []

def ShownNamesFit (layers : List Layer) : Prop :=
  ∀ c path, shownAt (layers.map Layer.node) (c :: path) ≠ [] →
    ∀ s ∈ c :: path, s.length < nameLen

section Entries

variable {K : Stacks} {m : MergeDir} {c : Name}

/-- A path is followed through the first dentry of its first name. -/
theorem entriesAt_of_nodup : ∀ {m : MergeDir} (_ : m.names.Nodup) (c : Name) (path : List Name),
    m.entriesAt (c :: path) = match m.find c with
      | none => []
      | some (inode, sub) => if path = [] then [inode.src] else sub.entriesAt path
  | .nil, _, _, _ => rfl
  | .cons name inode sub rest, h, c, path => by
      obtain ⟨hnot, hrest⟩ := List.nodup_cons.mp h
      rw [entriesAt.eq_def]
      simp only
      rw [entriesAt_of_nodup hrest, MergeDir.find]
      by_cases hc : name = c
      · subst hc
        have hnone : rest.find name = none := by
          cases hfind : rest.find name with
          | none => rfl
          | some found => exact absurd (mem_names_of_find hfind) hnot
        rw [if_pos rfl, if_pos rfl, hnone, List.append_nil]
        cases path with
        | nil => rfl
        | cons c' path => rfl
      · rw [if_neg hc, if_neg hc, List.nil_append]

/-- A tree that stands for its stacks has at a path the uppermost entry that was loaded. -/
theorem MergeDir.Represents.entriesAt_eq (h : m.Represents K) (c : Name) (path : List Name) :
    m.entriesAt (c :: path) = ((loadedAt (K c) path).head?.map StackNode.entry).toList := by
  induction path generalizing m K c with
  | nil =>
      rw [entriesAt_of_nodup h.complete.nodup, loadedAt]
      cases hfind : m.find c with
      | none => rw [h.complete.empty c (find_eq_none hfind)]; rfl
      | some found =>
          obtain ⟨n, ns, hK, hd, -⟩ := h.tracks.find hfind
          simp only [hK, hd]
          rfl
  | cons c' path ih =>
      rw [entriesAt_of_nodup h.complete.nodup, loadedAt]
      cases hfind : m.find c with
      | none =>
          rw [h.complete.empty c (find_eq_none hfind)]
          change _ = ((loadedAt [] path).head?.map StackNode.entry).toList
          rw [loadedAt_nil]
          rfl
      | some found =>
          obtain ⟨n, ns, hK, -, hrep⟩ := h.tracks.find hfind
          simp only
          rw [if_neg (List.cons_ne_nil _ _), ih hrep, hK]
          rfl

/-- A tree whose paths are the names of their entries has lost no part of a name. -/
theorem uncut_of_entries : ∀ {m : MergeDir},
    (∀ c path, ∀ e ∈ m.entriesAt (c :: path), some e.name = (c :: path).getLast?) → m.Uncut
  | .nil, _ => trivial
  | .cons name inode sub rest, h => by
      refine ⟨?_, uncut_of_entries ?_, uncut_of_entries ?_⟩
      · have := h name [] inode.src (by simp [entriesAt])
        simpa using this
      · intro c path e he
        have := h name (c :: path) e (by simp [entriesAt, he])
        simpa using this
      · intro c path e he
        exact h c path e (by
          rw [entriesAt.eq_def]
          exact List.mem_append_right _ he)

end Entries

def MergeDir.Fit : MergeDir → Prop
  | .nil => True
  | .cons name _ sub rest => name.length < nameLen ∧ sub.Fit ∧ rest.Fit

section Fit

variable {mode : RebuildDatamode} {dev : ℕ} {src : SrcDir} {m m' : MergeDir} {c : Name}
  {d : MergeInode} {dsub dsub' : MergeDir}

theorem MergeDir.Fit.sub : ∀ {m : MergeDir}, m.Fit → m.find c = some (d, dsub) → dsub.Fit
  | .nil, _, hfind => by cases hfind
  | .cons name inode sub rest, h, hfind => by
      rw [MergeDir.find] at hfind
      by_cases hc : name = c
      · rw [if_pos hc] at hfind
        cases hfind
        exact h.2.1
      · rw [if_neg hc] at hfind
        exact h.2.2.sub hfind

theorem MergeDir.Fit.setSub : ∀ {m : MergeDir}, m.Fit → dsub'.Fit → (m.setSub c dsub').Fit
  | .nil, h, _ => h
  | .cons name inode sub rest, h, hsub => by
      rw [MergeDir.setSub]
      split_ifs
      · exact ⟨h.1, hsub, h.2.2⟩
      · exact ⟨h.1, h.2.1, h.2.2.setSub hsub⟩

theorem MergeDir.Fit.dAlloc : ∀ {m : MergeDir}, m.Fit → dsub.Fit → (m.dAlloc c d dsub).Fit
  | .nil, _, hsub => by
      refine ⟨?_, hsub, trivial⟩
      rw [List.length_take]
      unfold nameLen
      omega
  | .cons name inode sub rest, h, hsub => ⟨h.1, h.2.1, h.2.2.dAlloc hsub⟩

theorem fit_iter (h : erofsRebuildDirentIter mode dev src m = .ok m') (hm : m.Fit) : m'.Fit := by
  induction src generalizing m m' with
  | nil =>
      cases h
      exact hm
  | cons name inode sub rest ihsub ihrest =>
      obtain ⟨m₁, hstep, hrest⟩ := erofsRebuildDirentIter_cons h
      apply ihrest hrest
      cases hstep with
      | kept hfind hd => exact hm
      | merged hfind hd hop hs hsub => exact hm.setSub (ihsub hsub (hm.sub hfind))
      | newDir hfind hs hsub => exact hm.dAlloc (ihsub hsub trivial)
      | newFile hfind hs => exact hm.dAlloc trivial

theorem MergeDir.Fit.names : ∀ {m : MergeDir} {path : List Name}, m.Fit → m.entriesAt path ≠ [] →
    ∀ s ∈ path, s.length < nameLen
  | .nil, [], _, h => absurd rfl h
  | .nil, c :: path, _, h => absurd rfl h
  | .cons name inode sub rest, [], _, h => absurd rfl h
  | .cons name inode sub rest, c :: path, hfit, h => by
      rw [entriesAt.eq_def] at h
      simp only at h
      rw [ne_eq, List.append_eq_nil_iff, not_and_or] at h
      rcases h with h | h
      · by_cases hc : name = c
        · rw [if_pos hc] at h
          subst hc
          cases path with
          | nil =>
              intro s hs
              rw [List.mem_singleton.mp hs]
              exact hfit.1
          | cons c' path =>
              have := hfit.2.1.names h
              rw [List.forall_mem_cons]
              exact ⟨hfit.1, this⟩
        · rw [if_neg hc] at h
          exact absurd rfl h
      · exact hfit.2.2.names h

end Fit

section Layers

variable {mode : RebuildDatamode} {layers : List Layer} {m m' : MergeDir} {K : Stacks}

theorem childStack_cons (c : Name) (l : Layer) (ns : List StackNode) :
    childStack c (l.node :: ns) = dirNodes l.dev l.root c ++ childStack c ns := by
  have := childStack_append c [l.node] ns
  rwa [Layer.node, childStack_singleton] at this

theorem uncut_of_layers (h : erofsMkfsRebuildLoadTrees mode layers m = .ok m') (hm : m'.Uncut) :
    m.Uncut := by
  induction layers generalizing m with
  | nil =>
      cases h
      exact hm
  | cons l layers ih =>
      rw [erofsMkfsRebuildLoadTrees] at h
      split at h
      · cases h
      · next m₁ hload => exact uncut_of_iter hload (ih h)

theorem fit_layers (h : erofsMkfsRebuildLoadTrees mode layers m = .ok m') (hm : m.Fit) :
    m'.Fit := by
  induction layers generalizing m with
  | nil =>
      cases h
      exact hm
  | cons l layers ih =>
      rw [erofsMkfsRebuildLoadTrees] at h
      split at h
      · cases h
      · next m₁ hload => exact ih h (fit_iter hload hm)

/-- After all images the tree stands for their stacks. -/
theorem represents_layers (hwf : ∀ l ∈ layers, l.root.Wf)
    (h : erofsMkfsRebuildLoadTrees mode layers m = .ok m') (hm : m.Represents K)
    (huncut : m.Uncut)
    (hfit : m'.Uncut ∨ Stacks.Fit fun c => K c ++ rootStacks layers c) :
    m'.Represents fun c => K c ++ rootStacks layers c := by
  induction layers generalizing m K with
  | nil =>
      cases h
      have hK : (fun c => K c ++ rootStacks [] c) = K := by
        funext c
        exact List.append_nil _
      rw [hK]
      exact hm
  | cons l layers ih =>
      rw [erofsMkfsRebuildLoadTrees] at h
      split at h
      · cases h
      next m₁ hload =>
      have hK : (fun c => K c ++ rootStacks (l :: layers) c) =
          fun c => (K c ++ dirNodes l.dev l.root c) ++ rootStacks layers c := by
        funext c
        unfold rootStacks
        rw [List.map_cons, childStack_cons, List.append_assoc]
      rw [hK] at hfit ⊢
      have hfit₁ : m₁.Uncut ∨ Stacks.Fit fun c => K c ++ dirNodes l.dev l.root c := by
        rcases hfit with hfit | hfit
        · exact Or.inl (uncut_of_layers h hfit)
        · exact Or.inr (hfit.of_prefix fun c => List.prefix_append _ _)
      obtain ⟨hrep, huncut₁⟩ := represents_iter hload (hwf l List.mem_cons_self) hm huncut hfit₁
      exact ih (fun l' hl' => hwf l' (List.mem_cons_of_mem _ hl')) h hrep huncut₁ hfit

theorem shownAt_prefix_rootStacks (layers : List Layer) (c : Name) (path : List Name) :
    shownAt (layers.map Layer.node) (c :: path) <+: loadedAt (rootStacks layers c) path := by
  change shownAt (childStack c (overlayDirs (layers.map Layer.node))) path <+: _
  apply shownAt_prefix_loadedAt
  apply isPrefix_childStack
  have hdirs : (layers.map Layer.node).filter StackNode.isDir = layers.map Layer.node := by
    apply List.filter_eq_self.mpr
    intro n hn
    obtain ⟨l, -, rfl⟩ := List.mem_map.mp hn
    rfl
  have hpre := isPrefix_overlayDirs (layers.map Layer.node)
  rw [hdirs] at hpre
  exact hpre

theorem name_of_mem_shownAt {ns : List StackNode} {c : Name} {path : List Name} {n : StackNode}
    (h : n ∈ shownAt ns (c :: path)) : some n.entry.name = (c :: path).getLast? := by
  induction path generalizing ns c with
  | nil => exact congrArg some (name_of_mem_childStack h)
  | cons c' path ih =>
      rw [List.getLast?_cons_cons]
      exact @ih (childStack c (overlayDirs ns)) c' h

/-- The tree merged from the images shows what overlayfs shows if and only if nothing is exposed
and the names fit. -/
theorem rebuild_showsOverlay_iff (hwf : ∀ l ∈ layers, l.root.Wf)
    (h : erofsMkfsRebuildLoadTrees mode layers .nil = .ok m) :
    ShowsOverlay m layers ↔ NothingExposed layers ∧ ShownNamesFit layers := by
  have hnil : (fun c => [] ++ rootStacks layers c) = rootStacks layers := by
    funext c
    rfl
  have hrep := represents_layers hwf h represents_nil trivial
  rw [hnil] at hrep
  constructor
  · intro hshows
    have huncut : m.Uncut := by
      apply uncut_of_entries
      intro c path e he
      rw [hshows c path, Option.mem_toList, overlayAt] at he
      obtain ⟨n, hn, rfl⟩ := Option.map_eq_some_iff.mp he
      exact name_of_mem_shownAt (List.mem_of_mem_head? hn)
    refine ⟨?_, ?_⟩
    · intro c path hne hempty
      have heq := hshows c path
      rw [(hrep (Or.inl huncut)).entriesAt_eq, overlayAt, hempty] at heq
      obtain ⟨n, ns, hns⟩ := List.exists_cons_of_ne_nil hne
      rw [hns] at heq
      cases heq
    · intro c path hne
      apply (fit_layers h trivial).names
      rw [hshows c path, overlayAt]
      obtain ⟨n, ns, hns⟩ := List.exists_cons_of_ne_nil hne
      rw [hns]
      exact List.cons_ne_nil _ _
  · rintro ⟨hexposed, hfit⟩ c path
    rw [(hrep (Or.inr fun c path hne => hfit c path (hexposed c path hne))).entriesAt_eq,
      overlayAt]
    by_cases hempty : loadedAt (rootStacks layers c) path = []
    · have hpre := shownAt_prefix_rootStacks layers c path
      rw [hempty, List.prefix_nil] at hpre
      rw [hempty, hpre]
    · obtain ⟨n, ns, hns⟩ := List.exists_cons_of_ne_nil (hexposed c path hempty)
      obtain ⟨ls, hls⟩ := shownAt_prefix_rootStacks layers c path
      rw [← hls, hns]
      rfl

end Layers

section MiddleLayer

def plainDir : SrcInode := ⟨1, .dir, 0, false, none⟩

def vacantFile : SrcInode := ⟨2, .regFile, 0, false, none⟩

/-- A layer whose root has only the directory `p` with one empty file in it. -/
def dirLayer (dev : ℕ) (file : Name) : Layer :=
  ⟨dev, false, .cons ['p'] plainDir (.cons file vacantFile .nil .nil) .nil⟩

def fileLayer (dev : ℕ) : Layer := ⟨dev, false, .cons ['p'] vacantFile .nil .nil⟩

theorem dirLayer_wf (dev : ℕ) (c : Char) (hc : c ≠ '/') (hdot : c ≠ '.') :
    (dirLayer dev [c]).root.Wf := by
  have hname : ([c] : Name) ≠ [] ∧ '/' ∉ [c] ∧ ¬ isDotDotdot [c] ∧ [c].length ≤ nameLen := by
    refine ⟨List.cons_ne_nil _ _, ?_, ?_, ?_⟩
    · rw [List.mem_singleton]
      exact Ne.symm hc
    · simp [isDotDotdot, dotName, dotdotName, hdot]
    · change 1 ≤ 255
      omega
  have hfile : (SrcDir.cons [c] vacantFile .nil .nil).Wf :=
    ⟨hname, by simp [SrcDir.names], fun _ => rfl, trivial, trivial⟩
  exact ⟨by decide, by simp [SrcDir.names], fun h => absurd h (by decide), hfile, trivial⟩

theorem fileLayer_wf (dev : ℕ) : (fileLayer dev).root.Wf :=
  ⟨by decide, by simp [SrcDir.names], fun _ => rfl, trivial, trivial⟩

def middleFile : List Layer := [dirLayer 1 ['a'], fileLayer 2, dirLayer 3 ['b']]

theorem middleFile_wf : ∀ l ∈ middleFile, l.root.Wf := by
  intro l hl
  simp only [middleFile, List.mem_cons, List.not_mem_nil, or_false] at hl
  obtain rfl | rfl | rfl := hl
  · exact dirLayer_wf 1 'a' (by decide) (by decide)
  · exact fileLayer_wf 2
  · exact dirLayer_wf 3 'b' (by decide) (by decide)

/-- The tree that is merged from them: it has both files. -/
def middleMerged : MergeDir :=
  .cons ['p'] ⟨⟨1, ['p'], plainDir⟩, false⟩
    (.cons ['a'] ⟨⟨1, ['a'], vacantFile⟩, false⟩ .nil
      (.cons ['b'] ⟨⟨3, ['b'], vacantFile⟩, false⟩ .nil .nil)) .nil

theorem middleFile_merged :
    erofsMkfsRebuildLoadTrees .full middleFile .nil = .ok middleMerged := by
  decide

theorem rebuild_showsOverlay_iff_middleFile :
    ShowsOverlay middleMerged middleFile ↔
      NothingExposed middleFile ∧ ShownNamesFit middleFile :=
  rebuild_showsOverlay_iff middleFile_wf middleFile_merged

/-- The file of the middle layer does not hide the directory below it. -/
theorem middleFile_exposes :
    ¬ ∀ (mode : RebuildDatamode) (layers : List Layer) (m : MergeDir),
      (∀ l ∈ layers, l.root.Wf) → erofsMkfsRebuildLoadTrees mode layers .nil = .ok m →
        ShowsOverlay m layers := by
  intro hall
  have heq := hall .full middleFile middleMerged middleFile_wf middleFile_merged ['p'] [['b']]
  have hshown : overlayAt middleFile [['p'], ['b']] = none := by decide
  rw [hshown] at heq
  exact absurd heq (by decide)

end MiddleLayer

end ErofsUtils
