import ErofsUtils.RebuildLoad

/-!
# What the merged tree consists of

The images are loaded one after the other. The merged tree keeps, for each path, the uppermost
entry, and below a directory that is not opaque it takes in every directory that a later image has
at that path, whatever lies between the two. This is stated for the stacks of the images, and
carried through the loading dirent by dirent.
-/

namespace ErofsUtils

def loadedDirs : List StackNode → List StackNode
  | [] => []
  | n :: ns =>
    if n.isDir then n :: (if n.isOpaque then [] else ns.filter StackNode.isDir) else []

def loadedAt : List StackNode → List Name → List StackNode
  | ns, [] => ns
  | ns, c :: path => loadedAt (childStack c (loadedDirs ns)) path

@[simp] theorem loadedAt_nil (path : List Name) : loadedAt [] path = [] := by
  induction path with
  | nil => rfl
  | cons c path ih => exact ih

theorem isPrefix_loadedDirs {ns ms : List StackNode} (h : ns <+: ms) :
    loadedDirs ns <+: loadedDirs ms := by
  cases ns with
  | nil => exact List.nil_prefix
  | cons n ns =>
      cases ms with
      | nil => exact absurd h.length_le (by simp)
      | cons m ms =>
          obtain ⟨rfl, hrest⟩ := List.cons_prefix_cons.mp h
          rw [loadedDirs, loadedDirs]
          cases n.isDir with
          | false => exact List.nil_prefix
          | true =>
              rw [if_pos rfl, if_pos rfl, List.prefix_cons_inj]
              cases n.isOpaque with
              | true => exact List.nil_prefix
              | false => exact hrest.filter _

theorem loadedAt_prefix {ns ms : List StackNode} (h : ns <+: ms) (path : List Name) :
    loadedAt ns path <+: loadedAt ms path := by
  induction path generalizing ns ms with
  | nil => exact h
  | cons c path ih => exact ih (isPrefix_childStack c (isPrefix_loadedDirs h))

theorem isPrefix_overlayDirs_loadedDirs {ns ms : List StackNode} (h : ns <+: ms) :
    overlayDirs ns <+: loadedDirs ms := by
  apply List.IsPrefix.trans _ (isPrefix_loadedDirs h)
  cases ns with
  | nil => exact List.nil_prefix
  | cons n ns =>
      rw [overlayDirs, loadedDirs]
      cases n.isDir with
      | false => exact List.nil_prefix
      | true =>
          rw [if_pos rfl, if_pos rfl, List.prefix_cons_inj]
          cases n.isOpaque with
          | true => exact List.nil_prefix
          | false => exact isPrefix_overlayDirs ns

theorem shownAt_prefix_loadedAt {ns ms : List StackNode} (h : ns <+: ms) (path : List Name) :
    shownAt ns path <+: loadedAt ms path := by
  induction path generalizing ns ms with
  | nil => exact h
  | cons c path ih => exact ih (isPrefix_childStack c (isPrefix_overlayDirs_loadedDirs h))

/-! ## One dirent -/

section Step

variable {mode : RebuildDatamode} {dev : ℕ} {name : Name} {src : SrcInode} {sub rest : SrcDir}
  {m m' : MergeDir}

inductive DirentStep (mode : RebuildDatamode) (dev : ℕ) (name : Name) (src : SrcInode)
    (sub : SrcDir) (m : MergeDir) : MergeDir → Prop
  | kept {d dsub} (hfind : m.find name = some (d, dsub))
      (hd : d.isDir = false ∨ d.isOpaque = true ∨ src.isDir = false) :
      DirentStep mode dev name src sub m m
  | merged {d dsub dsub'} (hfind : m.find name = some (d, dsub)) (hd : d.isDir = true)
      (hop : d.isOpaque = false) (hs : src.isDir = true)
      (hsub : erofsRebuildDirentIter mode dev sub dsub = .ok dsub') :
      DirentStep mode dev name src sub m (m.setSub name dsub')
  | newDir {dsub} (hfind : m.find name = none) (hs : src.isDir = true)
      (hsub : erofsRebuildDirentIter mode dev sub .nil = .ok dsub) :
      DirentStep mode dev name src sub m
        (m.dAlloc name ⟨⟨dev, name, src⟩, src.isOpaque⟩ dsub)
  | newFile (hfind : m.find name = none) (hs : src.isDir = false) :
      DirentStep mode dev name src sub m
        (m.dAlloc name ⟨⟨dev, name, src⟩, src.isOpaque⟩ .nil)

theorem readOpaque_ok {o : Bool} (h : readOpaque src = .ok o) : o = src.isOpaque := by
  unfold readOpaque at h
  split_ifs at h
  cases h
  rfl

theorem erofsRebuildDirentIter_cons
    (h : erofsRebuildDirentIter mode dev (.cons name src sub rest) m = .ok m') :
    ∃ m₁, DirentStep mode dev name src sub m m₁ ∧
      erofsRebuildDirentIter mode dev rest m₁ = .ok m' := by
  rw [erofsRebuildDirentIter] at h
  simp only at h
  split at h
  · cases h
  next m₁ hmerged =>
  refine ⟨m₁, ?_, h⟩
  split at hmerged
  · next d dsub hfind =>
      by_cases hkeep : d.isDir = false ∨ d.isOpaque = true
      · rw [if_pos (by simpa using hkeep)] at hmerged
        cases hmerged
        exact .kept hfind (hkeep.elim Or.inl fun ho => Or.inr (Or.inl ho))
      · obtain ⟨hd, hop⟩ := not_or.mp hkeep
        rw [if_neg (by simpa using hkeep)] at hmerged
        by_cases hs : src.isDir = true
        · rw [if_neg (not_not.mpr hs)] at hmerged
          split at hmerged
          · cases hmerged
          · next dsub' hsub =>
              cases hmerged
              exact .merged hfind (by simpa using hd) (by simpa using hop) hs hsub
        · rw [if_pos hs] at hmerged
          cases hmerged
          exact .kept hfind (Or.inr (Or.inr (by simpa using hs)))
  · next hfind =>
      split at hmerged
      · cases hmerged
      next isOpaque hop =>
      obtain rfl := readOpaque_ok hop
      split at hmerged
      · cases hmerged
      · by_cases hs : src.isDir = true
        · rw [if_pos hs] at hmerged
          split at hmerged
          · cases hmerged
          · next dsub hsub =>
              cases hmerged
              exact .newDir hfind hs hsub
        · rw [if_neg hs] at hmerged
          cases hmerged
          exact .newFile hfind (by simpa using hs)

end Step

namespace MergeDir

section Find

variable {m : MergeDir} {c name : Name} {d : MergeInode} {dsub dsub' : MergeDir}

theorem find_eq_none : ∀ {m : MergeDir}, m.find c = none → c ∉ m.names
  | nil, _ => List.not_mem_nil
  | cons name inode sub rest, h => by
      rw [find] at h
      rw [names, List.mem_cons, not_or]
      by_cases hc : name = c
      · rw [if_pos hc] at h
        cases h
      · rw [if_neg hc] at h
        exact ⟨Ne.symm hc, find_eq_none h⟩

theorem mem_names_of_find : ∀ {m : MergeDir}, m.find c = some (d, dsub) → c ∈ m.names
  | nil, h => by cases h
  | cons name inode sub rest, h => by
      rw [find] at h
      rw [names, List.mem_cons]
      by_cases hc : name = c
      · exact Or.inl hc.symm
      · rw [if_neg hc] at h
        exact Or.inr (mem_names_of_find h)

@[simp] theorem names_setSub : ∀ (m : MergeDir) (c : Name) (s : MergeDir),
    (m.setSub c s).names = m.names
  | nil, _, _ => rfl
  | cons name inode sub rest, c, s => by
      rw [setSub]
      split_ifs
      · rfl
      · rw [names, names, names_setSub rest c s]

@[simp] theorem names_dAlloc : ∀ (m : MergeDir) (c : Name) (i : MergeInode) (s : MergeDir),
    (m.dAlloc c i s).names = m.names ++ [c.take (nameLen - 1)]
  | nil, _, _, _ => rfl
  | cons name inode sub rest, c, i, s => by
      rw [dAlloc, names, names, names_dAlloc rest c i s, List.cons_append]

end Find

/-- No dentry has lost a part of the name that it was made for. -/
def Uncut : MergeDir → Prop
  | nil => True
  | cons name inode sub rest => inode.src.name = name ∧ sub.Uncut ∧ rest.Uncut

section Uncut

variable {c : Name} {d : MergeInode} {dsub dsub' : MergeDir}

theorem Uncut.sub : ∀ {m : MergeDir}, m.Uncut → m.find c = some (d, dsub) → dsub.Uncut
  | nil, _, hfind => by cases hfind
  | cons name inode sub rest, h, hfind => by
      rw [find] at hfind
      by_cases hc : name = c
      · rw [if_pos hc] at hfind
        cases hfind
        exact h.2.1
      · rw [if_neg hc] at hfind
        exact h.2.2.sub hfind

theorem Uncut.setSub : ∀ {m : MergeDir}, m.Uncut → dsub'.Uncut → (m.setSub c dsub').Uncut
  | nil, h, _ => h
  | cons name inode sub rest, h, hsub => by
      rw [MergeDir.setSub]
      split_ifs
      · exact ⟨h.1, hsub, h.2.2⟩
      · exact ⟨h.1, h.2.1, h.2.2.setSub hsub⟩

theorem Uncut.of_setSub : ∀ {m : MergeDir}, (m.setSub c dsub').Uncut →
    m.find c = some (d, dsub) → dsub'.Uncut ∧ (dsub.Uncut → m.Uncut)
  | nil, _, hfind => by cases hfind
  | cons name inode sub rest, h, hfind => by
      rw [find] at hfind
      rw [MergeDir.setSub] at h
      by_cases hc : name = c
      · rw [if_pos hc] at hfind h
        cases hfind
        exact ⟨h.2.1, fun hs => ⟨h.1, hs, h.2.2⟩⟩
      · rw [if_neg hc] at hfind h
        obtain ⟨hnew, hold⟩ := h.2.2.of_setSub hfind
        exact ⟨hnew, fun hs => ⟨h.1, h.2.1, hold hs⟩⟩

theorem uncut_dAlloc_iff : ∀ {m : MergeDir},
    (m.dAlloc c d dsub).Uncut ↔ m.Uncut ∧ d.src.name = c.take (nameLen - 1) ∧ dsub.Uncut
  | nil => by
      change _ ∧ _ ∧ True ↔ True ∧ _ ∧ _
      rw [and_true, true_and]
  | cons name inode sub rest => by
      rw [dAlloc, Uncut, Uncut, uncut_dAlloc_iff, and_assoc, and_assoc]

end Uncut

end MergeDir

open MergeDir

section Iter

variable {mode : RebuildDatamode} {dev : ℕ} {src : SrcDir} {m m' : MergeDir}

/-- A dentry with a name that was cut stays. -/
theorem uncut_of_iter (h : erofsRebuildDirentIter mode dev src m = .ok m') (hm : m'.Uncut) :
    m.Uncut := by
  induction src generalizing m m' with
  | nil =>
      cases h
      exact hm
  | cons name inode sub rest ihsub ihrest =>
      obtain ⟨m₁, hstep, hrest⟩ := erofsRebuildDirentIter_cons h
      have hm₁ := ihrest hrest hm
      cases hstep with
      | kept hfind hd => exact hm₁
      | merged hfind hd hop hs hsub =>
          obtain ⟨hnew, hold⟩ := hm₁.of_setSub hfind
          exact hold (ihsub hsub hnew)
      | newDir hfind hs hsub => exact (uncut_dAlloc_iff.mp hm₁).1
      | newFile hfind hs => exact (uncut_dAlloc_iff.mp hm₁).1

end Iter

/-! ## The stacks behind a merged directory -/

abbrev Stacks := Name → List StackNode

def stacksBelow (ns : List StackNode) : Stacks := fun c => childStack c (loadedDirs ns)

def Stacks.push (K : Stacks) (c : Name) (x : StackNode) : Stacks :=
  fun c' => if c' = c then K c' ++ [x] else K c'

def dirNodes (dev : ℕ) (dir : SrcDir) (c : Name) : List StackNode :=
  ((dir.lookup c).map fun found => (⟨⟨dev, c, found.1⟩, found.2⟩ : StackNode)).toList

namespace MergeDir

/-- One dentry for each name that something was loaded for. -/
structure Complete (m : MergeDir) (K : Stacks) : Prop where
  nodup : m.names.Nodup
  empty : ∀ c, c ∉ m.names → K c = []

/-- Each dentry is made from the uppermost dirent of its name, and what is below it is merged from
the stack of that name. -/
def Tracks : MergeDir → Stacks → Prop
  | nil, _ => True
  | cons name inode sub rest, K =>
    (∃ n ns, K name = n :: ns ∧ inode = ⟨n.entry, n.isOpaque⟩ ∧
      sub.Complete (stacksBelow (n :: ns)) ∧ sub.Tracks (stacksBelow (n :: ns))) ∧ rest.Tracks K

structure Represents (m : MergeDir) (K : Stacks) : Prop where
  complete : m.Complete K
  tracks : m.Tracks K

theorem represents_nil : nil.Represents fun _ => [] :=
  ⟨⟨List.nodup_nil, fun _ _ => rfl⟩, trivial⟩

section Tracks

variable {K K' : Stacks} {c : Name} {d : MergeInode} {dsub dsub' : MergeDir} {x : StackNode}

theorem Tracks.congr : ∀ {m : MergeDir}, m.Tracks K → (∀ c ∈ m.names, K' c = K c) → m.Tracks K'
  | nil, _, _ => trivial
  | cons name inode sub rest, h, hK => by
      rw [Tracks, hK name List.mem_cons_self]
      exact ⟨h.1, h.2.congr fun c hc => hK c (List.mem_cons_of_mem _ hc)⟩

theorem Tracks.find : ∀ {m : MergeDir}, m.Tracks K → m.find c = some (d, dsub) →
    ∃ n ns, K c = n :: ns ∧ d = ⟨n.entry, n.isOpaque⟩ ∧ dsub.Represents (stacksBelow (n :: ns))
  | nil, _, hfind => by cases hfind
  | cons name inode sub rest, h, hfind => by
      rw [MergeDir.find] at hfind
      by_cases hc : name = c
      · subst hc
        rw [if_pos rfl] at hfind
        cases hfind
        obtain ⟨n, ns, hK, hd, hcomplete, htracks⟩ := h.1
        exact ⟨n, ns, hK, hd, hcomplete, htracks⟩
      · rw [if_neg hc] at hfind
        exact h.2.find hfind

theorem Tracks.push : ∀ {m : MergeDir}, m.Tracks K →
    (∀ n ns, K c = n :: ns → loadedDirs (n :: (ns ++ [x])) = loadedDirs (n :: ns)) →
    m.Tracks (K.push c x)
  | nil, _, _ => trivial
  | cons name inode sub rest, h, hsame => by
      obtain ⟨⟨n, ns, hK, hd, hcomplete, htracks⟩, hrest⟩ := h
      refine ⟨?_, hrest.push hsame⟩
      by_cases hc : name = c
      · subst hc
        have hbelow : stacksBelow (n :: (ns ++ [x])) = stacksBelow (n :: ns) := by
          unfold stacksBelow
          rw [hsame n ns hK]
        refine ⟨n, ns ++ [x], ?_, hd, ?_, ?_⟩
        · rw [Stacks.push, if_pos rfl, hK, List.cons_append]
        · rwa [hbelow]
        · rwa [hbelow]
      · refine ⟨n, ns, ?_, hd, hcomplete, htracks⟩
        rw [Stacks.push, if_neg hc, hK]

theorem Tracks.setSub {n : StackNode} {ns : List StackNode} : ∀ {m : MergeDir}, m.Tracks K →
    m.names.Nodup → K c = n :: ns → dsub'.Represents (stacksBelow (n :: (ns ++ [x]))) →
    (m.setSub c dsub').Tracks (K.push c x)
  | nil, _, _, _, _ => trivial
  | cons name inode sub rest, h, hnodup, hKc, hsub => by
      obtain ⟨⟨n', ns', hK, hd, hcomplete, htracks⟩, hrest⟩ := h
      obtain ⟨hnot, hnodup'⟩ := List.nodup_cons.mp hnodup
      rw [MergeDir.setSub]
      by_cases hc : name = c
      · subst hc
        rw [hKc] at hK
        cases hK
        rw [if_pos rfl]
        refine ⟨⟨n, ns ++ [x], ?_, hd, hsub.complete, hsub.tracks⟩, hrest.congr ?_⟩
        · rw [Stacks.push, if_pos rfl, hKc, List.cons_append]
        · intro c hmem
          have hne : c ≠ name := fun hc => hnot (hc ▸ hmem)
          rw [Stacks.push, if_neg hne]
      · rw [if_neg hc]
        refine ⟨⟨n', ns', ?_, hd, hcomplete, htracks⟩, hrest.setSub hnodup' hKc hsub⟩
        rw [Stacks.push, if_neg hc, hK]

theorem Tracks.dAlloc (hfit : c.take (nameLen - 1) = c) (hKc : K c = [])
    (hd : d = ⟨x.entry, x.isOpaque⟩) (hsub : dsub.Represents (stacksBelow [x])) :
    ∀ {m : MergeDir}, m.Tracks K → c ∉ m.names → (m.dAlloc c d dsub).Tracks (K.push c x)
  | nil, _, _ => by
      refine ⟨⟨x, [], ?_, hd, hsub.complete, hsub.tracks⟩, trivial⟩
      rw [hfit, Stacks.push, if_pos rfl, hKc, List.nil_append]
  | cons name inode sub rest, h, hnot => by
      obtain ⟨⟨n', ns', hK, hd', hcomplete, htracks⟩, hrest⟩ := h
      rw [names, List.mem_cons, not_or] at hnot
      refine ⟨⟨n', ns', ?_, hd', hcomplete, htracks⟩,
        Tracks.dAlloc hfit hKc hd hsub hrest hnot.2⟩
      rw [Stacks.push, if_neg (Ne.symm hnot.1), hK]

end Tracks

end MergeDir

section Iter

variable {mode : RebuildDatamode} {dev : ℕ} {src : SrcDir} {m m' : MergeDir} {K : Stacks}

/-- Everything that is loaded has names that a dentry holds. -/
def Stacks.Fit (K : Stacks) : Prop :=
  ∀ c path, loadedAt (K c) path ≠ [] → ∀ s ∈ c :: path, s.length < nameLen

theorem Stacks.Fit.of_prefix {K' : Stacks} (h : K'.Fit) (hpre : ∀ c, K c <+: K' c) : K.Fit := by
  intro c path hne
  apply h c path
  intro hnil
  have := loadedAt_prefix (hpre c) path
  rw [hnil, List.prefix_nil] at this
  exact hne this

theorem Stacks.Fit.below {c : Name} {ns : List StackNode} (h : K.Fit) (hK : K c = ns) :
    (stacksBelow ns).Fit := by
  intro c' path hne s hs
  apply h c (c' :: path) _ s (List.mem_cons_of_mem _ hs)
  rwa [hK]

theorem stacksBelow_snoc {n : StackNode} {ns : List StackNode} {x : StackNode}
    (hn : n.isDir = true) (hop : n.isOpaque = false) (hx : x.isDir = true) :
    stacksBelow (n :: (ns ++ [x])) = fun c => stacksBelow (n :: ns) c ++ childStack c [x] := by
  funext c
  unfold stacksBelow
  have hdirs : loadedDirs (n :: (ns ++ [x])) = loadedDirs (n :: ns) ++ [x] := by
    rw [loadedDirs, loadedDirs, hn, hop]
    simp [List.filter_append, hx]
  rw [hdirs, childStack_append]

theorem childStack_singleton (c : Name) (e : SrcEntry) (sub : SrcDir) :
    childStack c [⟨e, sub⟩] = dirNodes e.dev sub c := by
  unfold childStack dirNodes StackNode.child
  rw [List.filterMap_cons]
  cases sub.lookup c <;> rfl

theorem represents_dAlloc {name : Name} {x : StackNode} {inode : MergeInode} {dsub : MergeDir}
    (hm : m.Represents K) (huncut : m.Uncut) (hfind : m.find name = none)
    (hname : name.take (nameLen - 1) = name) (hinode : inode = ⟨x.entry, x.isOpaque⟩)
    (hx : x.entry.name = name) (hsub : dsub.Represents (stacksBelow [x]))
    (hsubuncut : dsub.Uncut) :
    (m.dAlloc name inode dsub).Represents (K.push name x) ∧ (m.dAlloc name inode dsub).Uncut := by
  have hnot := find_eq_none hfind
  have hKn := hm.complete.empty name hnot
  refine ⟨⟨⟨?_, ?_⟩, Tracks.dAlloc hname hKn hinode hsub hm.tracks hnot⟩, ?_⟩
  · rw [names_dAlloc, hname]
    apply List.nodup_append.mpr ⟨hm.complete.nodup, by simp, ?_⟩
    rintro c hc c' hc' rfl
    exact hnot (List.mem_singleton.mp hc' ▸ hc)
  · intro c hc
    rw [names_dAlloc, hname, List.mem_append, not_or, List.mem_singleton] at hc
    rw [Stacks.push, if_neg hc.2]
    exact hm.complete.empty c hc.1
  · rw [uncut_dAlloc_iff, hname, hinode]
    exact ⟨huncut, hx, hsubuncut⟩

/-- After the dirents of a directory the tree stands for the stacks with them on top. Either the
names are known to fit, or it is known that none was cut. -/
theorem represents_iter (h : erofsRebuildDirentIter mode dev src m = .ok m') (hwf : src.Wf)
    (hm : m.Represents K) (huncut : m.Uncut)
    (hfit : m'.Uncut ∨ Stacks.Fit fun c => K c ++ dirNodes dev src c) :
    m'.Represents (fun c => K c ++ dirNodes dev src c) ∧ m'.Uncut := by
  induction src generalizing m m' K with
  | nil =>
      cases h
      have hK : (fun c => K c ++ dirNodes dev .nil c) = K := by
        funext c
        exact List.append_nil _
      rw [hK]
      exact ⟨hm, huncut⟩
  | cons name src sub rest ihsub ihrest =>
      obtain ⟨-, hnot, hfile, hwfsub, hwfrest⟩ := hwf
      obtain ⟨m₁, hstep, hrest⟩ := erofsRebuildDirentIter_cons h
      -- the dirent is pushed, then the rest of the directory is loaded
      generalize hx : (⟨⟨dev, name, src⟩, sub⟩ : StackNode) = x
      have hK : (fun c => K c ++ dirNodes dev (.cons name src sub rest) c) =
          fun c => K.push name x c ++ dirNodes dev rest c := by
        funext c
        unfold Stacks.push dirNodes
        rw [SrcDir.lookup]
        by_cases hc : name = c
        · subst hc
          rw [if_pos rfl, if_pos rfl, SrcDir.lookup_of_notMem hnot, ← hx]
          simp
        · rw [if_neg hc, if_neg (Ne.symm hc)]
      rw [hK] at hfit ⊢
      have hpush : m₁.Uncut ∨ (K.push name x).Fit := by
        rcases hfit with hfit | hfit
        · exact Or.inl (uncut_of_iter hrest hfit)
        · exact Or.inr (hfit.of_prefix fun c => List.prefix_append _ _)
      suffices hdone : m₁.Represents (K.push name x) ∧ m₁.Uncut from
        ihrest hrest hwfrest hdone.1 hdone.2 hfit
      have hxdir : x.isDir = src.isDir := by rw [← hx]; rfl
      have hname {inode : MergeInode} {dsub : MergeDir} (hfind : m.find name = none)
          (hpush : (m.dAlloc name inode dsub).Uncut ∨ (K.push name x).Fit)
          (hin : inode.src.name = name) : name.take (nameLen - 1) = name := by
        rcases hpush with hpush | hpush
        · exact ((uncut_dAlloc_iff.mp hpush).2.1.symm.trans hin)
        · apply List.take_of_length_le
          have hKn := hm.complete.empty name (find_eq_none hfind)
          have := hpush name [] (by simp [loadedAt, Stacks.push]) name List.mem_cons_self
          omega
      cases hstep with
      | @kept d dsub hfind hd =>
          obtain ⟨n, ns, hKn, hdn, -⟩ := hm.tracks.find hfind
          refine ⟨⟨⟨hm.complete.nodup, ?_⟩, hm.tracks.push ?_⟩, huncut⟩
          · intro c hc
            have hne : c ≠ name := fun hcn => hc (hcn ▸ mem_names_of_find hfind)
            rw [Stacks.push, if_neg hne]
            exact hm.complete.empty c hc
          · intro n' ns' hKn'
            rw [hKn] at hKn'
            cases hKn'
            subst hdn
            rw [loadedDirs, loadedDirs, List.filter_append]
            rcases hd with hd | hd | hd
            · have hn : n.isDir = false := hd
              rw [hn]
              rfl
            · have hn : n.isOpaque = true := hd
              rw [hn]
              rfl
            · simp [hxdir, hd]
      | @merged d dsub dsub' hfind hd hop hs hsub =>
          obtain ⟨n, ns, hKn, hdn, hrep⟩ := hm.tracks.find hfind
          subst hdn
          have hbelow := @stacksBelow_snoc n ns x hd hop (hxdir.trans hs)
          have hnodes : (fun c => stacksBelow (n :: ns) c ++ childStack c [x]) =
              fun c => stacksBelow (n :: ns) c ++ dirNodes dev sub c := by
            rw [← hx]
            funext c
            rw [childStack_singleton]
          have hpushn : K.push name x name = n :: (ns ++ [x]) := by
            rw [Stacks.push, if_pos rfl, hKn, List.cons_append]
          have hsubfit : dsub'.Uncut ∨
              Stacks.Fit fun c => stacksBelow (n :: ns) c ++ dirNodes dev sub c := by
            rcases hpush with hpush | hpush
            · exact Or.inl (hpush.of_setSub hfind).1
            · right
              rw [← hnodes, ← hbelow]
              exact hpush.below hpushn
          obtain ⟨hrep', huncut'⟩ := ihsub hsub hwfsub hrep (huncut.sub hfind) hsubfit
          rw [← hnodes, ← hbelow] at hrep'
          refine ⟨⟨⟨?_, ?_⟩, hm.tracks.setSub hm.complete.nodup hKn hrep'⟩,
            huncut.setSub huncut'⟩
          · rw [names_setSub]
            exact hm.complete.nodup
          · intro c hc
            rw [names_setSub] at hc
            have hne : c ≠ name := fun hcn => hc (hcn ▸ mem_names_of_find hfind)
            rw [Stacks.push, if_neg hne]
            exact hm.complete.empty c hc
      | @newDir dsub hfind hs hsub =>
          have hbelow : stacksBelow [x] = fun c => [] ++ dirNodes dev sub c := by
            funext c
            unfold stacksBelow
            have hdirs : loadedDirs [x] = [x] := by
              rw [loadedDirs, hxdir, hs]
              cases x.isOpaque <;> rfl
            rw [hdirs, ← hx, childStack_singleton]
            rfl
          have hsubfit : dsub.Uncut ∨ Stacks.Fit fun c => [] ++ dirNodes dev sub c := by
            rcases hpush with hpush | hpush
            · exact Or.inl (uncut_dAlloc_iff.mp hpush).2.2
            · right
              rw [← hbelow]
              apply @Stacks.Fit.below _ name _ hpush
              rw [Stacks.push, if_pos rfl, hm.complete.empty name (find_eq_none hfind)]
              rfl
          obtain ⟨hrep, huncut'⟩ := ihsub hsub hwfsub represents_nil trivial hsubfit
          rw [← hbelow] at hrep
          apply represents_dAlloc hm huncut hfind (hname hfind hpush rfl) _ _ hrep huncut'
          · rw [← hx]
            rfl
          · rw [← hx]
      | newFile hfind hs =>
          have hbelow : stacksBelow [x] = fun _ => [] := by
            funext c
            unfold stacksBelow
            rw [loadedDirs, hxdir, hs]
            rfl
          apply represents_dAlloc hm huncut hfind (hname hfind hpush rfl) _ _ _
            (show MergeDir.nil.Uncut from trivial)
          · rw [← hx]
            rfl
          · rw [← hx]
          · rw [hbelow]
            exact represents_nil

end Iter

end ErofsUtils
