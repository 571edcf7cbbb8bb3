import ErofsUtils.ExtractNodes
import ErofsUtils.ExtractPaths

/-!
# Groups of hard links

What is in the output directory after extraction, for every order of the nodes: which of them are
there, what they are, and which of them are names for one inode. A group of links comes out as it is
in the image when its inode is a regular file, when its slot of the table is not taken by another
group that comes later, and when none of its paths is a prefix of the one in the table.
-/

namespace ErofsUtils
open CString PathStrings

/-- The nodes of inodes with several links that have the slot of `nid`. -/
def slotNodes (nodes : List ErofsNode) (nid : ℕ) : List ErofsNode :=
  nodes.filter fun n => n.typeId ≠ .dir ∧ 1 < n.nlink ∧
    n.nid % nrHardlinkHashtable = nid % nrHardlinkHashtable

/-- The path that the table has for `nid` in the end, if any: that of the first of the nodes of
`nid` that come after all others of its slot. -/
def hardlinkSource (nodes : List ErofsNode) (nid : ℕ) : Option (List UInt8) :=
  ((slotNodes nodes nid).reverse.takeWhile (·.nid = nid)).getLast?.map (·.path)

section Table

theorem find_insert_self (map : HardlinkMap) (nid : ℕ) (path : List UInt8) :
    erofsHardlinkFind (erofsHardlinkInsert nid path map) nid = some path := by
  simp [erofsHardlinkFind, erofsHardlinkInsert]

theorem find_insert_of_slot {map : HardlinkMap} {nid m : ℕ} {path : List UInt8}
    (hslot : nid % nrHardlinkHashtable = m % nrHardlinkHashtable) (hne : nid ≠ m) :
    erofsHardlinkFind (erofsHardlinkInsert nid path map) m = none := by
  simp [erofsHardlinkFind, erofsHardlinkInsert, hslot, hne]

theorem find_insert_of_ne_slot {map : HardlinkMap} {nid m : ℕ} {path : List UInt8}
    (hslot : nid % nrHardlinkHashtable ≠ m % nrHardlinkHashtable) :
    erofsHardlinkFind (erofsHardlinkInsert nid path map) m = erofsHardlinkFind map m := by
  simp [erofsHardlinkFind, erofsHardlinkInsert, hslot.symm]

theorem find_of_find {map : HardlinkMap} {nid m : ℕ} {path : List UInt8}
    (hslot : nid % nrHardlinkHashtable = m % nrHardlinkHashtable) (hne : nid ≠ m)
    (h : erofsHardlinkFind map nid = some path) : erofsHardlinkFind map m = none := by
  unfold erofsHardlinkFind at h ⊢
  rw [← hslot]
  split at h
  · next e he =>
      split at h
      · next hnid => exact if_neg (hnid ▸ hne)
      · cases h
  · cases h

theorem classify_snoc (nodes : List ErofsNode) (n : ErofsNode) :
    erofsNodeClassification (nodes ++ [n]) = classifyNode (erofsNodeClassification nodes) n := by
  rw [erofsNodeClassification, List.foldl_append]
  rfl

theorem slotNodes_snoc (nodes : List ErofsNode) (n : ErofsNode) (nid : ℕ) :
    slotNodes (nodes ++ [n]) nid = slotNodes nodes nid ++
      if n.typeId ≠ .dir ∧ 1 < n.nlink ∧
        n.nid % nrHardlinkHashtable = nid % nrHardlinkHashtable then [n] else [] := by
  rw [slotNodes, List.filter_append, List.filter_singleton, slotNodes, Bool.cond_decide]

theorem hardlinkSource_snoc_of_nid {nodes : List ErofsNode} {n : ErofsNode}
    (hn : n.typeId ≠ .dir ∧ 1 < n.nlink) :
    hardlinkSource (nodes ++ [n]) n.nid =
      some ((hardlinkSource nodes n.nid).getD n.path) := by
  rw [hardlinkSource, slotNodes_snoc, if_pos ⟨hn.1, hn.2, rfl⟩, List.reverse_append,
    List.reverse_singleton, List.singleton_append, List.takeWhile_cons_of_pos (by simp),
    List.getLast?_cons, hardlinkSource]
  cases ((slotNodes nodes n.nid).reverse.takeWhile (·.nid = n.nid)).getLast? with
  | none => rfl
  | some m => rfl

theorem hardlinkSource_snoc_of_slot {nodes : List ErofsNode} {n : ErofsNode} {nid : ℕ}
    (hn : n.typeId ≠ .dir ∧ 1 < n.nlink)
    (hslot : n.nid % nrHardlinkHashtable = nid % nrHardlinkHashtable) (hne : n.nid ≠ nid) :
    hardlinkSource (nodes ++ [n]) nid = none := by
  rw [hardlinkSource, slotNodes_snoc, if_pos ⟨hn.1, hn.2, hslot⟩, List.reverse_append,
    List.reverse_singleton, List.singleton_append,
    List.takeWhile_cons_of_neg (by simpa using hne)]
  rfl

theorem hardlinkSource_snoc_of_not {nodes : List ErofsNode} {n : ErofsNode} {nid : ℕ}
    (hn : ¬ (n.typeId ≠ .dir ∧ 1 < n.nlink ∧
      n.nid % nrHardlinkHashtable = nid % nrHardlinkHashtable)) :
    hardlinkSource (nodes ++ [n]) nid = hardlinkSource nodes nid := by
  rw [hardlinkSource, slotNodes_snoc, if_neg hn, List.append_nil]
  rfl

theorem erofsHardlinkFind_classified (nodes : List ErofsNode) (nid : ℕ) :
    erofsHardlinkFind (erofsNodeClassification nodes).hardlinks nid =
      hardlinkSource nodes nid := by
  induction nodes using List.reverseRecOn generalizing nid with
  | nil => rfl
  | append_singleton nodes n ih =>
      rw [classify_snoc, classifyNode]
      by_cases hdir : n.typeId = .dir
      · rw [if_pos hdir, hardlinkSource_snoc_of_not fun h => h.1 hdir]
        exact ih nid
      rw [if_neg hdir]
      by_cases hlink : 1 < n.nlink
      swap
      · rw [if_neg fun h => hlink h.1, hardlinkSource_snoc_of_not fun h => hlink h.2.1]
        exact ih nid
      by_cases hslot : n.nid % nrHardlinkHashtable = nid % nrHardlinkHashtable
      swap
      · rw [hardlinkSource_snoc_of_not fun h => hslot h.2.2, ← ih nid]
        split
        · exact find_insert_of_ne_slot hslot
        · rfl
      by_cases hnid : n.nid = nid
      · subst hnid
        rw [hardlinkSource_snoc_of_nid ⟨hdir, hlink⟩]
        cases hfind : erofsHardlinkFind (erofsNodeClassification nodes).hardlinks n.nid with
        | none =>
            rw [if_pos ⟨hlink, rfl⟩, ← ih, hfind]
            exact find_insert_self _ _ _
        | some path =>
            rw [if_neg (fun h => nomatch h.2), ← ih, hfind]
            rfl
      · -- the node takes the slot, whether it is in the table already or not
        rw [hardlinkSource_snoc_of_slot ⟨hdir, hlink⟩ hslot hnid]
        cases hfind : erofsHardlinkFind (erofsNodeClassification nodes).hardlinks n.nid with
        | none =>
            rw [if_pos ⟨hlink, rfl⟩]
            exact find_insert_of_slot hslot hnid
        | some path =>
            rw [if_neg (fun h => nomatch h.2)]
            exact find_of_find hslot hnid hfind

theorem classified_nodes (nodes : List ErofsNode) :
    (erofsNodeClassification nodes).nodeDirs = nodes.filter (·.typeId = .dir) ∧
      (erofsNodeClassification nodes).nodeOther = nodes.filter (·.typeId ≠ .dir) := by
  induction nodes using List.reverseRecOn with
  | nil => exact ⟨rfl, rfl⟩
  | append_singleton nodes n ih =>
      rw [classify_snoc, classifyNode, List.filter_append, List.filter_append,
        List.filter_singleton, List.filter_singleton, ← ih.1, ← ih.2]
      by_cases hdir : n.typeId = .dir
      · simp [hdir]
      · rw [if_neg hdir]
        split
        · simp [hdir]
        · simp [hdir]

theorem hardlinkSource_node {nodes : List ErofsNode} {nid : ℕ} {src : List UInt8}
    (h : hardlinkSource nodes nid = some src) :
    ∃ n ∈ nodes, n.typeId ≠ .dir ∧ n.nid = nid ∧ n.path = src := by
  obtain ⟨n, hn, rfl⟩ := Option.map_eq_some_iff.mp h
  have hmem := List.mem_of_getLast? hn
  have hnid := List.mem_takeWhile_imp hmem
  have hslot : n ∈ slotNodes nodes nid :=
    List.mem_reverse.mp ((List.takeWhile_sublist _).subset hmem)
  have hfilter := List.mem_filter.mp hslot
  exact ⟨n, hfilter.1, (of_decide_eq_true hfilter.2).1, of_decide_eq_true hnid, rfl⟩

end Table

/-- Nodes for a tree below the output directory, where only directories have something below them.
The nodes that are no directories are processed in the order `order`. -/
structure NodeTree (nodes order : List ErofsNode) : Prop where
  inside : ∀ n ∈ nodes, Inside n.path ∨ (n.typeId = .dir ∧ n.path = [47])
  named : ∀ n ∈ nodes, n.typeId ≠ .dir → n.path ≠ []
  leaf : ∀ n ∈ nodes, ∀ m ∈ nodes, n.typeId ≠ .dir →
    pathComponents n.path <+: pathComponents m.path → n = m
  nodup : nodes.Nodup
  perm : order.Perm (nodes.filter (·.typeId ≠ .dir))

/-- Such nodes, each for an entry of an image: the number of an inode says which inode it is. -/
structure NodeSet where
  nodes : List ErofsNode
  order : List ErofsNode
  typed : ∀ n ∈ nodes, n.typeId = nodeTypeId n.inode ∧ n.typeId ≠ .unknown
  same : ∀ n ∈ nodes, ∀ m ∈ nodes, n.nid = m.nid → n.inode = m.inode
  tree : NodeTree nodes order

/-- The nodes that a walk has made, if they are for a tree: that each is for an inode of the image
is what the walk keeps. -/
def NodeSet.ofWalk {env : ExtractEnv} {s : ExtractState} (hread : s.NodesRead env)
    {order : List ErofsNode} (tree : NodeTree (s.nodes.map (·.2)) order) : NodeSet where
  nodes := s.nodes.map (·.2)
  order := order
  typed := by
    intro n hn
    obtain ⟨p, hp, rfl⟩ := List.mem_map.mp hn
    exact ⟨(hread p hp).1, (hread p hp).2.1⟩
  same := by
    intro n hn m hm hnid
    obtain ⟨p, hp, rfl⟩ := List.mem_map.mp hn
    obtain ⟨q, hq, rfl⟩ := List.mem_map.mp hm
    have hp' := (hread p hp).2.2
    change p.2.inode.dir.nid = q.2.inode.dir.nid at hnid
    rw [hnid, (hread q hq).2.2] at hp'
    exact (Except.ok.inj hp').symm
  tree := tree

def ErofsNode.name (n : ErofsNode) : List FileName := pathComponents n.path

section Made

variable (env : OutEnv) (nodes : List ErofsNode)

/-- The directory of a path is the output directory or one that is made for a node. -/
def HasDir (path : List UInt8) : Prop :=
  (pathComponents path).dropLast = [] ∨
    ∃ d ∈ nodes, d.typeId = .dir ∧ (pathComponents path).dropLast <+: d.name

/-- What a node is by its type, with `data` for a regular file. -/
def kindOf (data : Option (List UInt8)) (n : ErofsNode) : Option OutKind :=
  match n.typeId with
  | .dir => some .dir
  | .regFile => data.map .file
  | .symlink =>
    match env.pread n.inode with
    | some (.ok text) => some (.symlink (upToNul text))
    | _ => none
  | .chrdev | .blkdev | .fifo | .sock => some (.special n.inode.mode (env.rdev n.inode))
  | .unknown => none

/-- The bytes that `erofs_verify_inode_data` leaves in a file. -/
def extracted (n : ErofsNode) : Option (List UInt8) := (env.verifyInodeData n.inode).map (·.2)

/-- The content of a file of the image: `i_size` bytes, each of them the one that `erofs_pread`
returns at its offset. -/
def IsContent (n : ErofsNode) (data : List UInt8) : Prop :=
  data.length = (env.fields n.inode).iSize ∧ ∀ k < (env.fields n.inode).iSize, ∃ b,
    data[k]? = some b ∧ erofsPreadData env.image (env.fields n.inode) 1 k = some (.ok [b])

def IsOwnKind (n : ErofsNode) (kind : OutKind) : Prop :=
  ∃ data, (n.typeId = .regFile → IsContent env n data) ∧ kindOf env (some data) n = some kind

def HasText (n : ErofsNode) : Prop :=
  n.typeId = .symlink → ∃ text, env.pread n.inode = some (.ok text) ∧ upToNul text ≠ []

def madeKind (n : ErofsNode) : Option OutKind :=
  match hardlinkSource nodes n.nid with
  | some _ => (extracted env n).map .file
  | none => kindOf env (extracted env n) n

def Makeable (n : ErofsNode) : Prop :=
  HasDir nodes n.path ∧
    match hardlinkSource nodes n.nid with
    | some src => HasDir nodes src ∧ (n.path = src ∨ ¬ n.path <+: src)
    | none => HasText env n

/-- Nodes with the same key are made as names for one inode. -/
def linkKey (n : ErofsNode) : ℕ ⊕ List UInt8 :=
  match hardlinkSource nodes n.nid with
  | some _ => .inl n.nid
  | none => .inr n.path

end Made

section Calls

variable {env : OutEnv} {path : List UInt8} {t : OutTree}

theorem stat_of_look {p : List FileName} (hp : pathComponents path = p) (hne : p ≠ []) :
    stat env t path = match t.look p with
      | some (.symlink text) => env.follow t text
      | kind => kind := by
  subst hp
  exact if_neg hne

theorem sysCreate_of_absent (hp : pathComponents path ≠ [])
    (h : t.find (pathComponents path) = none) (kind : OutKind) : sysCreate path kind t =
      if parentIsDir t (pathComponents path) then .ok (t.create (pathComponents path) kind)
      else .error eNoEnt := by
  unfold sysCreate
  dsimp only
  rw [if_neg (by simp [hp, h])]

theorem createAgain_of_ne {call : OutTree → Except ℤ OutTree} {e : ℤ} (h : call t = .error e)
    (he : e ≠ eExist) : createAgain env path call t = (e, t) := by
  unfold createAgain
  rw [h]
  dsimp only
  rw [if_neg fun hand => he hand.1]

theorem createAgain_of_ok {call : OutTree → Except ℤ OutTree} {t' : OutTree}
    (h : call t = .ok t') : createAgain env path call t = (0, t') := by
  unfold createAgain
  rw [h]

/-- A new file is made with what `erofs_verify_inode_data` writes, if that returns. -/
theorem erofsExtractFile_of_absent (inode : FsckInode) (hp : pathComponents path ≠ [])
    (h : t.find (pathComponents path) = none) :
    (erofsExtractFile env inode path t).map (·.2) =
      if parentIsDir t (pathComponents path) then (env.verifyInodeData inode).map fun r =>
        t.create (pathComponents path) (.file r.2)
      else some t := by
  have hopen : sysOpen env.overwrite path t = if parentIsDir t (pathComponents path) then
      .ok (t.next, t.create (pathComponents path) (.file [])) else .error eNoEnt := by
    unfold sysOpen
    dsimp only
    rw [if_neg hp, h]
  by_cases hdir : parentIsDir t (pathComponents path) = true
  · rw [if_pos hdir] at hopen ⊢
    unfold erofsExtractFile fillFile
    rw [hopen]
    dsimp only
    cases env.verifyInodeData inode with
    | none => rfl
    | some r => exact congrArg some (FileNames.write_create _ _ _ _)
  · rw [if_neg hdir] at hopen ⊢
    unfold erofsExtractFile
    rw [hopen]
    dsimp only
    rw [if_neg (by decide : ¬ eNoEnt = eIsDir)]
    dsimp only
    rw [hopen]
    split
    · rfl
    · rfl

theorem erofsExtractSymlink_of_absent {inode : FsckInode} {text : List UInt8}
    (hp : pathComponents path ≠ []) (h : t.find (pathComponents path) = none)
    (hread : env.pread inode = some (.ok text)) (htext : upToNul text ≠ []) :
    (erofsExtractSymlink env inode path t).map (·.2) =
      some (if parentIsDir t (pathComponents path) then
        t.create (pathComponents path) (.symlink (upToNul text))
      else t) := by
  have hcall := sysCreate_of_absent hp h (.symlink (upToNul text))
  unfold erofsExtractSymlink
  rw [hread]
  dsimp only
  by_cases hdir : parentIsDir t (pathComponents path) = true
  · rw [if_pos hdir] at hcall ⊢
    rw [createAgain_of_ok (by rw [if_neg htext]; exact hcall)]
    rfl
  · rw [if_neg hdir] at hcall ⊢
    rw [createAgain_of_ne (by rw [if_neg htext]; exact hcall) (by decide)]
    rfl

theorem erofsExtractSymlink_of_no_text {inode : FsckInode} {r : ℤ × OutTree}
    (h : ∀ text, env.pread inode = some (.ok text) → upToNul text = [])
    (hrun : erofsExtractSymlink env inode path t = some r) : r.2 = t := by
  unfold erofsExtractSymlink at hrun
  split at hrun
  · cases hrun
  · cases hrun
    rfl
  · next text hread =>
      dsimp only at hrun
      rw [createAgain_of_ne (if_pos (h text hread)) (by decide)] at hrun
      cases hrun
      rfl

theorem erofsExtractSpecial_of_absent (inode : FsckInode) (hp : pathComponents path ≠ [])
    (h : t.find (pathComponents path) = none) : (erofsExtractSpecial env inode path t).2 =
      if parentIsDir t (pathComponents path) then
        t.create (pathComponents path) (.special inode.mode (env.rdev inode))
      else t := by
  have hcall := sysCreate_of_absent hp h (.special inode.mode (env.rdev inode))
  unfold erofsExtractSpecial
  by_cases hdir : parentIsDir t (pathComponents path) = true
  · rw [if_pos hdir] at hcall ⊢
    rw [createAgain_of_ok hcall]
  · rw [if_neg hdir] at hcall ⊢
    rw [createAgain_of_ne hcall (by decide)]

theorem sysLink_of_absent {src : List UInt8} {i : ℕ} (hsrc : t.find (pathComponents src) = some i)
    (hp : pathComponents path ≠ []) (h : t.find (pathComponents path) = none)
    (hkind : t.kind i ≠ .dir) : sysLink src path t =
      if parentIsDir t (pathComponents path) then .ok (t.addName (pathComponents path) i)
      else .error eNoEnt := by
  unfold sysLink
  rw [hsrc]
  dsimp only
  rw [if_neg (by simp [hp, h]), if_neg hkind]

/-- The second half of `erofs_extract_hardlink`, with the file at `src` there or not. -/
theorem createAgain_link {src : List UInt8} (hp : pathComponents path ≠ [])
    (h : t.find (pathComponents path) = none)
    (hkind : ∀ i, t.find (pathComponents src) = some i → t.kind i ≠ .dir) :
    (createAgain env path (sysLink src path) t).2 =
      match t.find (pathComponents src) with
      | none => t
      | some i =>
        if parentIsDir t (pathComponents path) then t.addName (pathComponents path) i else t := by
  cases hsrc : t.find (pathComponents src) with
  | none =>
      have hcall : sysLink src path t = .error eNoEnt := by
        unfold sysLink
        rw [hsrc]
      rw [createAgain_of_ne hcall (by decide)]
  | some i =>
      have hcall := sysLink_of_absent hsrc hp h (hkind i hsrc)
      dsimp only
      by_cases hdir : parentIsDir t (pathComponents path) = true
      · rw [if_pos hdir] at hcall ⊢
        rw [createAgain_of_ok hcall]
      · rw [if_neg hdir] at hcall ⊢
        rw [createAgain_of_ne hcall (by decide)]

end Calls

namespace NodeSet

variable {N : NodeSet} {n m : ErofsNode}

def Other (N : NodeSet) (n : ErofsNode) : Prop := n ∈ N.nodes ∧ n.typeId ≠ .dir

theorem Other.name_ne_nil (h : N.Other n) : n.name ≠ [] := by
  rcases N.tree.inside n h.1 with ⟨cs, hcs, hpath⟩ | hroot
  · rw [ErofsNode.name, hpath, pathComponents_flatMap hcs]
    intro hnil
    apply N.tree.named n h.1 h.2
    rw [hpath, hnil]
    rfl
  · exact absurd hroot.1 h.2

theorem Other.eq_of_name (h : N.Other n) (hm : m ∈ N.nodes) (he : n.name = m.name) : n = m := by
  apply N.tree.leaf n h.1 m hm h.2
  exact ⟨[], (List.append_nil n.name).trans he⟩

theorem Other.eq_of_path (h : N.Other n) (hm : m ∈ N.nodes) (he : n.path = m.path) : n = m :=
  h.eq_of_name hm (congrArg pathComponents he)

theorem Other.not_above_dir (h : N.Other n) :
    ¬ ∃ d ∈ N.nodes, d.typeId = .dir ∧ n.name <+: d.name := by
  rintro ⟨d, hd, hdir, hpre⟩
  have he := N.tree.leaf n h.1 d hd h.2 hpre
  exact h.2 (he ▸ hdir)

theorem typeId_eq (hn : n ∈ N.nodes) (hm : m ∈ N.nodes) (h : n.nid = m.nid) :
    n.typeId = m.typeId := by
  rw [(N.typed n hn).1, (N.typed m hm).1, N.same n hn m hm h]

theorem source_node {nid : ℕ} {src : List UInt8} (h : hardlinkSource N.nodes nid = some src) :
    ∃ s, N.Other s ∧ s.nid = nid ∧ s.path = src := by
  obtain ⟨s, hs, hdir, hnid, hpath⟩ := hardlinkSource_node h
  exact ⟨s, ⟨hs, hdir⟩, hnid, hpath⟩

variable {env : OutEnv}

theorem kindOf_ne_dir {data : Option (List UInt8)} (h : n.typeId ≠ .dir) :
    kindOf env data n ≠ some .dir := by
  unfold kindOf
  split
  · next htype => exact absurd htype h
  · cases data with
    | none => simp
    | some data => simp
  · split
    · simp
    · simp
  · simp
  · simp
  · simp
  · simp
  · simp

theorem madeKind_ne_dir (h : n.typeId ≠ .dir) : madeKind env N.nodes n ≠ some .dir := by
  unfold madeKind
  split
  · cases extracted env n with
    | none => simp
    | some data => simp
  · exact kindOf_ne_dir h

theorem madeKind_of_nid (hn : n ∈ N.nodes) (hm : m ∈ N.nodes) (h : n.nid = m.nid)
    {src : List UInt8} (hsrc : hardlinkSource N.nodes n.nid = some src) :
    madeKind env N.nodes n = madeKind env N.nodes m := by
  unfold madeKind extracted
  rw [← h, hsrc, N.same n hn m hm h]

end NodeSet

/-- How far extraction has got: the directories are there, and of the nodes with `P` those that can
be made, each as what it is made as; nodes have one inode where their keys are equal. -/
structure Progress (env : OutEnv) (N : NodeSet) (P : ErofsNode → Prop) (t : OutTree) : Prop where
  fresh : t.Fresh
  dirs : ∀ p, t.look p = some .dir ↔
    p ≠ [] ∧ ∃ d ∈ N.nodes, d.typeId = .dir ∧ p <+: d.name
  made : ∀ n, N.Other n → P n → Makeable env N.nodes n →
    ∃ k, madeKind env N.nodes n = some k ∧ t.look n.name = some k
  absent : ∀ n, N.Other n → ¬ (P n ∧ Makeable env N.nodes n) → t.find n.name = none
  keys : ∀ n m, N.Other n → N.Other m → ∀ i j, t.find n.name = some i →
    t.find m.name = some j → (i = j ↔ linkKey N.nodes n = linkKey N.nodes m)

namespace Progress

variable {env : OutEnv} {N : NodeSet} {P Q : ErofsNode → Prop} {t : OutTree} {n m : ErofsNode}

theorem congr (h : Progress env N P t) (hPQ : ∀ n, N.Other n → (Q n ↔ P n)) :
    Progress env N Q t where
  fresh := h.fresh
  dirs := h.dirs
  made := fun n hn hQ => h.made n hn ((hPQ n hn).mp hQ)
  absent := fun n hn hQ => h.absent n hn fun hP => hQ ⟨(hPQ n hn).mpr hP.1, hP.2⟩
  keys := h.keys

theorem parentIsDir_iff (h : Progress env N P t) {path : List UInt8} :
    parentIsDir t (pathComponents path) = true ↔ HasDir N.nodes path := by
  rw [parentIsDir, decide_eq_true_eq, HasDir, h.dirs]
  by_cases hnil : (pathComponents path).dropLast = []
  · simp [hnil]
  · rw [or_iff_right hnil, or_iff_right hnil, and_iff_right hnil]

theorem of_find (h : Progress env N P t) (hn : N.Other n) {i : ℕ}
    (hi : t.find n.name = some i) : P n ∧ Makeable env N.nodes n := by
  by_contra hnot
  rw [h.absent n hn hnot] at hi
  cases hi

theorem skip (h : Progress env N P t) (hmake : ¬ Makeable env N.nodes n) :
    Progress env N (fun m => P m ∨ m = n) t where
  fresh := h.fresh
  dirs := h.dirs
  made := by
    intro m hm hP hm'
    rcases hP with hP | rfl
    · exact h.made m hm hP hm'
    · exact absurd hm' hmake
  absent := fun m hm hnot => h.absent m hm fun hP => hnot ⟨Or.inl hP.1, hP.2⟩
  keys := h.keys

theorem create (h : Progress env N P t) (hn : N.Other n) (hP : ¬ P n)
    (hmake : Makeable env N.nodes n) {k : OutKind} (hk : madeKind env N.nodes n = some k)
    (hkey : ∀ m, N.Other m → P m → linkKey N.nodes m ≠ linkKey N.nodes n) :
    Progress env N (fun m => P m ∨ m = n) (t.create n.name k) where
  fresh := h.fresh.create
  dirs := by
    intro p
    rw [FileNames.look_create h.fresh]
    by_cases hp : p = n.name
    · rw [if_pos hp, hp]
      have hkd : some k ≠ some .dir := hk ▸ NodeSet.madeKind_ne_dir hn.2
      exact iff_of_false hkd fun hd => hn.not_above_dir hd.2
    · rw [if_neg hp]
      exact h.dirs p
  made := by
    intro m hm hPm hm'
    rw [FileNames.look_create h.fresh]
    by_cases hmn : m = n
    · rw [if_pos (congrArg ErofsNode.name hmn), hmn]
      exact ⟨k, hk, rfl⟩
    · rw [if_neg fun he => hmn (hm.eq_of_name hn.1 he)]
      exact h.made m hm (hPm.resolve_right hmn) hm'
  absent := by
    intro m hm hnot
    have hmn : m ≠ n := fun he => hnot ⟨Or.inr he, he ▸ hmake⟩
    rw [FileNames.find_create, if_neg fun he => hmn (hm.eq_of_name hn.1 he)]
    exact h.absent m hm fun hPm => hnot ⟨Or.inl hPm.1, hPm.2⟩
  keys := by
    have hnew : ∀ m j, N.Other m → m ≠ n → (t.create n.name k).find m.name = some j →
        j < t.next ∧ linkKey N.nodes m ≠ linkKey N.nodes n := by
      intro m j hm hmn hj
      rw [FileNames.find_create, if_neg fun he => hmn (hm.eq_of_name hn.1 he)] at hj
      exact ⟨h.fresh _ _ hj, hkey m hm (h.of_find hm hj).1⟩
    have hself : ∀ i, (t.create n.name k).find n.name = some i → i = t.next := by
      intro i hi
      rw [FileNames.find_create, if_pos rfl] at hi
      exact (Option.some.inj hi).symm
    intro m m' hm hm' i j hi hj
    by_cases hmn : m = n
    · subst hmn
      rw [hself i hi]
      by_cases hmn' : m' = m
      · subst hmn'
        rw [hself j hj]
        exact iff_of_true rfl rfl
      · have hj' := hnew m' j hm' hmn' hj
        exact iff_of_false (by omega) hj'.2.symm
    · by_cases hmn' : m' = n
      · subst hmn'
        rw [hself j hj]
        have hi' := hnew m i hm hmn hi
        exact iff_of_false (by omega) hi'.2
      · rw [FileNames.find_create, if_neg fun he => hmn (hm.eq_of_name hn.1 he)] at hi
        rw [FileNames.find_create, if_neg fun he => hmn' (hm'.eq_of_name hn.1 he)] at hj
        exact h.keys m m' hm hm' i j hi hj

theorem link (h : Progress env N P t) (hn : N.Other n) (hmake : Makeable env N.nodes n)
    {s : ErofsNode} (hs : N.Other s) {i : ℕ} (hi : t.find s.name = some i)
    (hkey : linkKey N.nodes s = linkKey N.nodes n)
    (hkind : madeKind env N.nodes s = madeKind env N.nodes n) :
    Progress env N (fun m => P m ∨ m = n) (t.addName n.name i) := by
  have hsP := h.of_find hs hi
  have hki : madeKind env N.nodes n = some (t.kind i) := by
    obtain ⟨k, hk, hlook⟩ := h.made s hs hsP.1 hsP.2
    rw [← hkind, hk, ← hlook]
    exact congrArg (Option.map t.kind) hi
  constructor
  · exact h.fresh.addName (h.fresh _ _ hi)
  · intro p
    rw [FileNames.look_addName]
    by_cases hp : p = n.name
    · rw [if_pos hp, hp, ← hki]
      exact iff_of_false (NodeSet.madeKind_ne_dir hn.2) fun hd => hn.not_above_dir hd.2
    · rw [if_neg hp]
      exact h.dirs p
  · intro m hm hPm hm'
    rw [FileNames.look_addName]
    by_cases hmn : m = n
    · rw [if_pos (congrArg ErofsNode.name hmn), hmn]
      exact ⟨_, hki, rfl⟩
    · rw [if_neg fun he => hmn (hm.eq_of_name hn.1 he)]
      exact h.made m hm (hPm.resolve_right hmn) hm'
  · intro m hm hnot
    have hmn : m ≠ n := fun he => hnot ⟨Or.inr he, he ▸ hmake⟩
    rw [FileNames.find_addName, if_neg fun he => hmn (hm.eq_of_name hn.1 he)]
    exact h.absent m hm fun hPm => hnot ⟨Or.inl hPm.1, hPm.2⟩
  · -- the inode of `n` is that of `s`
    have hrep : ∀ m, N.Other m → ∀ j, (t.addName n.name i).find m.name = some j →
        ∃ r, N.Other r ∧ t.find r.name = some j ∧ linkKey N.nodes r = linkKey N.nodes m := by
      intro m hm j hj
      rw [FileNames.find_addName] at hj
      split at hj
      · next he =>
          cases hj
          exact ⟨s, hs, hi, hm.eq_of_name hn.1 he ▸ hkey⟩
      · exact ⟨m, hm, hj, rfl⟩
    intro m m' hm hm' j j' hj hj'
    obtain ⟨r, hr, hrj, hrk⟩ := hrep m hm j hj
    obtain ⟨r', hr', hrj', hrk'⟩ := hrep m' hm' j' hj'
    rw [← hrk, ← hrk']
    exact h.keys r r' hr hr' j j' hrj hrj'

end Progress

end ErofsUtils
