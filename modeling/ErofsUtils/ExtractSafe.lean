import ErofsUtils.ExtractFiles
import ErofsUtils.ExtractLinks

/-!
# Groups of hard links that come out whole

When every path of every group is there, with the type and the content that it has in the image,
and the paths of one group are names for one inode: what extraction comes to says when that is so.
The content of a file is what `erofs_pread` returns, and which files are copied as they are is what
the copy loop of `extract.erofs` does with their pieces.
-/

namespace ErofsUtils
open PathStrings

section Groups

variable {env : OutEnv} {Encodes : ℕ → List UInt8 → List UInt8 → Prop} {N : NodeSet}
  {t : OutTree} {n : ErofsNode}

/-- The groups of the image are the groups in the output directory: every node that is no
directory is there and is what it is in the image, and two of them are names for one inode exactly
when they are in the image. -/
structure GroupsKept (env : OutEnv) (N : NodeSet) (t : OutTree) : Prop where
  made : ∀ n, N.Other n → ∃ kind, IsOwnKind env n kind ∧ t.look n.name = some kind
  linked_iff : ∀ n m, N.Other n → N.Other m →
    (t.find n.name = t.find m.name ↔ n.nid = m.nid)

/-- A regular file of the image: it is in pieces, or it has a byte that cannot be read. -/
inductive FileData (env : OutEnv) (Encodes : ℕ → List UInt8 → List UInt8 → Prop)
    (inode : FsckInode) : Prop
  | pieces {pieces data}
      (h : RegularFile env.image Encodes (env.fields inode) pieces data) :
      FileData env Encodes inode
  | unreadable {k} (hk : k < (env.fields inode).iSize)
      (h : ∀ b, erofsPreadData env.image (env.fields inode) 1 k ≠ some (.ok [b])) :
      FileData env Encodes inode

/-- A file without holes, each extent of which one `write` takes. -/
def Copyable (env : OutEnv) (Encodes : ℕ → List UInt8 → List UInt8 → Prop)
    (inode : FsckInode) : Prop :=
  ∃ pieces data, RegularFile env.image Encodes (env.fields inode) pieces data ∧
    ∀ p ∈ pieces, p.mapped = true ∧ p.Writable (env.fields inode).datalayout.compressed

/-- Every regular file can be copied and every path has its directory; a group with a path in the
table is one of regular files, none of which has a path that is a proper prefix of that one, and a
group without one has a single node, with a text if that is a symlink. -/
structure GroupsSafe (env : OutEnv) (Encodes : ℕ → List UInt8 → List UInt8 → Prop)
    (N : NodeSet) : Prop where
  copyable : ∀ n, N.Other n → n.typeId = .regFile → Copyable env Encodes n.inode
  hasDir : ∀ n, N.Other n → HasDir N.nodes n.path
  inTable : ∀ n, N.Other n → ∀ src, hardlinkSource N.nodes n.nid = some src →
    n.typeId = .regFile ∧ (n.path = src ∨ ¬ n.path <+: src)
  alone : ∀ n, N.Other n → hardlinkSource N.nodes n.nid = none →
    HasText env n ∧ ∀ m, N.Other m → m.nid = n.nid → m = n

/-- What `erofs_verify_inode_data` leaves is the content of the file when nothing of it is a hole
or is cut. -/
theorem extracted_of_copyable (h : Copyable env Encodes n.inode) :
    ∃ data, IsContent env n data ∧ env.verifyInodeData n.inode = some (0, data) := by
  obtain ⟨pieces, data, hfile, hcopy⟩ := h
  obtain ⟨filled, htiled⟩ := hfile.tiledBy
  obtain ⟨out, hrun, hcontent⟩ := (htiled.extract_extracts_iff env.outfd).mpr
    ((copied_extents_iff _ _ _ _).mpr fun p hp =>
      ⟨(hcopy p hp).1, decide_eq_true env.outfd_pos, (hcopy p hp).2⟩)
  refine ⟨out.bytes, hcontent, ?_⟩
  rw [OutEnv.verifyInodeData, hrun]

theorem copyable_of_extracted (hfile : FileData env Encodes n.inode) {data : List UInt8}
    (hcontent : IsContent env n data) (hdata : extracted env n = some data) :
    Copyable env Encodes n.inode := by
  cases hfile with
  | unreadable hk hnot =>
      obtain ⟨b, -, hread⟩ := hcontent.2 _ hk
      exact absurd hread (hnot b)
  | pieces hfile =>
      obtain ⟨filled, htiled⟩ := hfile.tiledBy
      refine ⟨_, _, hfile, ?_⟩
      have hextracts : Extracts env.image (env.fields n.inode)
          (extractVerifyInodeData env.image (env.fields n.inode) true env.outfd) := by
        obtain ⟨r, hr, rfl⟩ := Option.map_eq_some_iff.mp hdata
        unfold OutEnv.verifyInodeData at hr
        split at hr
        · cases hr
        · next out hrun =>
            cases hr
            exact ⟨out, hrun, hcontent⟩
        · next e out hrun =>
            exact absurd hrun (@TiledBy.extract_ne_error _ _ filled _ _ [] _ _ _ _ _ _ _ out
              htiled rfl (Or.inl rfl) (Or.inl (Nat.zero_le _)) OutFile.appending_empty e)
      have hcopied := (htiled.extract_extracts_iff env.outfd).mp hextracts
      rw [copied_extents_iff] at hcopied
      exact fun p hp => ⟨(hcopied p hp).1, (hcopied p hp).2.2⟩

theorem regFile_of_kindOf {data : Option (List UInt8)} {bs : List UInt8}
    (h : kindOf env data n = some (.file bs)) : n.typeId = .regFile := by
  unfold kindOf at h
  cases htype : n.typeId with
  | regFile => rfl
  | symlink =>
      rw [htype] at h
      dsimp only at h
      split at h
      · cases h
      · cases h
  | dir | chrdev | blkdev | fifo | sock | unknown =>
      rw [htype] at h
      cases h

theorem kindOf_congr {data data' : Option (List UInt8)} (h : n.typeId ≠ .regFile) :
    kindOf env data n = kindOf env data' n := by
  unfold kindOf
  cases htype : n.typeId with
  | regFile => exact absurd htype h
  | dir | symlink | chrdev | blkdev | fifo | sock | unknown => rfl

theorem kindOf_regFile {data : Option (List UInt8)} (h : n.typeId = .regFile) :
    kindOf env data n = data.map .file := by
  rw [kindOf, h]

theorem madeKind_regFile (h : n.typeId = .regFile) :
    madeKind env N.nodes n = (extracted env n).map .file := by
  unfold madeKind
  split
  · rfl
  · exact kindOf_regFile h

theorem groupsSafe_of_kept (hfiles : ∀ n, N.Other n → n.typeId = .regFile →
      FileData env Encodes n.inode) (h : Progress env N (fun _ => True) t)
    (hkept : GroupsKept env N t) : GroupsSafe env Encodes N := by
  have hmake : ∀ n, N.Other n → Makeable env N.nodes n := by
    intro n hn
    obtain ⟨kind, -, hlook⟩ := hkept.made n hn
    obtain ⟨i, hi, -⟩ := FileNames.look_eq_some.mp hlook
    exact (h.of_find hn hi).2
  have hkind : ∀ n, N.Other n → ∃ kind, IsOwnKind env n kind ∧
      madeKind env N.nodes n = some kind := by
    intro n hn
    obtain ⟨kind, hown, hlook⟩ := hkept.made n hn
    obtain ⟨k, hk, hlook'⟩ := h.made n hn trivial (hmake n hn)
    rw [hlook] at hlook'
    exact ⟨kind, hown, Option.some.inj hlook' ▸ hk⟩
  constructor
  · intro n hn htype
    obtain ⟨kind, ⟨data, hcontent, hown⟩, hmade⟩ := hkind n hn
    rw [kindOf_regFile htype] at hown
    rw [madeKind_regFile htype, ← hown] at hmade
    obtain ⟨data', hdata, he⟩ := Option.map_eq_some_iff.mp hmade
    cases he
    exact copyable_of_extracted (hfiles n hn htype) (hcontent htype) hdata
  · exact fun n hn => (hmake n hn).1
  · intro n hn src hsrc
    have hmake' := (hmake n hn).2
    rw [hsrc] at hmake'
    refine ⟨?_, hmake'.2⟩
    obtain ⟨kind, ⟨data, -, hown⟩, hmade⟩ := hkind n hn
    rw [madeKind, hsrc] at hmade
    obtain ⟨data', -, rfl⟩ := Option.map_eq_some_iff.mp hmade
    exact regFile_of_kindOf hown
  · intro n hn hsrc
    have hmake' := (hmake n hn).2
    rw [hsrc] at hmake'
    refine ⟨hmake', fun m hm hnid => ?_⟩
    have hfind := (hkept.linked_iff m n hm hn).mpr hnid
    obtain ⟨kind, -, hlook⟩ := hkept.made n hn
    obtain ⟨i, hi, -⟩ := FileNames.look_eq_some.mp hlook
    have hkey := (h.keys m n hm hn i i (hfind.trans hi) hi).mp rfl
    rw [linkKey, linkKey, hnid, hsrc] at hkey
    exact hm.eq_of_path hn.1 (Sum.inr.inj hkey)

theorem GroupsSafe.returns (hsafe : GroupsSafe env Encodes N) (hn : N.Other n) :
    Returns env N n := by
  constructor
  · intro hfile
    have htype : n.typeId = .regFile := by
      rcases hfile with htype | hsrc
      · exact htype
      · obtain ⟨src, hsrc⟩ := Option.ne_none_iff_exists'.mp hsrc
        exact (hsafe.inTable n hn src hsrc).1
    obtain ⟨data, -, hdata⟩ := extracted_of_copyable (hsafe.copyable n hn htype)
    simp [hdata]
  · intro htype
    cases hsrc : hardlinkSource N.nodes n.nid with
    | some src =>
        have := (hsafe.inTable n hn src hsrc).1
        rw [htype] at this
        cases this
    | none =>
        obtain ⟨text, hread, -⟩ := (hsafe.alone n hn hsrc).1 htype
        simp [hread]

theorem groupsKept_of_safe (h : Progress env N (fun _ => True) t)
    (hsafe : GroupsSafe env Encodes N) : GroupsKept env N t := by
  have hmake : ∀ n, N.Other n → Makeable env N.nodes n := by
    intro n hn
    refine ⟨hsafe.hasDir n hn, ?_⟩
    split
    · next src hsrc =>
        obtain ⟨s, hs, -, rfl⟩ := NodeSet.source_node hsrc
        exact ⟨hsafe.hasDir s hs, (hsafe.inTable n hn _ hsrc).2⟩
    · next hsrc => exact (hsafe.alone n hn hsrc).1
  have hmade : ∀ n, N.Other n → ∃ kind, IsOwnKind env n kind ∧ t.look n.name = some kind := by
    intro n hn
    obtain ⟨kind, hk, hlook⟩ := h.made n hn trivial (hmake n hn)
    refine ⟨kind, ?_, hlook⟩
    by_cases htype : n.typeId = .regFile
    · obtain ⟨data, hcontent, hdata⟩ := extracted_of_copyable (hsafe.copyable n hn htype)
      rw [madeKind_regFile htype, extracted, hdata] at hk
      exact ⟨data, fun _ => hcontent, (kindOf_regFile htype).trans hk⟩
    · refine ⟨[], fun he => absurd he htype, ?_⟩
      rw [kindOf_congr htype, ← hk, madeKind]
      split
      · next src hsrc => exact absurd (hsafe.inTable n hn src hsrc).1 htype
      · rfl
  refine ⟨hmade, fun n m hn hm => ?_⟩
  obtain ⟨kind, -, hlook⟩ := hmade n hn
  obtain ⟨i, hi, -⟩ := FileNames.look_eq_some.mp hlook
  obtain ⟨kind', -, hlook'⟩ := hmade m hm
  obtain ⟨j, hj, -⟩ := FileNames.look_eq_some.mp hlook'
  rw [hi, hj, Option.some.injEq, h.keys n m hn hm i j hi hj, linkKey, linkKey]
  constructor
  · intro hkey
    split at hkey
    · split at hkey
      · exact Sum.inl.inj hkey
      · cases hkey
    · split at hkey
      · cases hkey
      · rw [hn.eq_of_path hm.1 (Sum.inr.inj hkey)]
  · intro hnid
    cases hsrc : hardlinkSource N.nodes n.nid with
    | none => rw [(hsafe.alone n hn hsrc).2 m hm hnid.symm, hsrc]
    | some src => rw [← hnid, hsrc]

def KeepsGroups (env : OutEnv) (N : NodeSet) : Prop :=
  ∃ t, extractErofsNode env N.nodes N.order OutTree.empty = some t ∧ GroupsKept env N t

theorem keepsGroups_of_safe (hsafe : GroupsSafe env Encodes N) : KeepsGroups env N := by
  obtain ⟨t, hrun⟩ := extractErofsNode_returns fun n hn => hsafe.returns hn
  exact ⟨t, hrun, groupsKept_of_safe (extractErofsNode_progress N hrun) hsafe⟩

theorem groupsSafe_of_keeps (hfiles : ∀ n, N.Other n → n.typeId = .regFile →
      FileData env Encodes n.inode) (hkeeps : KeepsGroups env N) : GroupsSafe env Encodes N := by
  obtain ⟨t, hrun, hkept⟩ := hkeeps
  exact groupsSafe_of_kept hfiles (extractErofsNode_progress N hrun) hkept

/-- Whatever the order of the nodes, the groups come out as in the image exactly when it is safe
to extract them. -/
theorem hardlinks_extracted_iff (env : OutEnv) (N : NodeSet)
    (hfiles : ∀ n, N.Other n → n.typeId = .regFile → FileData env Encodes n.inode) :
    KeepsGroups env N ↔ GroupsSafe env Encodes N :=
  ⟨groupsSafe_of_keeps hfiles, keepsGroups_of_safe⟩

theorem walkNodes_extracted_iff (env : OutEnv) {ext : ExtractEnv} {fuel : ℕ}
    {starts : List ExtractStart} {buf : ByteMemory.Mem} {s : ExtractState}
    (hwalk : initErofsNodes ext (pathMax + 1 + fuel) starts (.empty buf) = some s)
    {order : List ErofsNode} (htree : NodeTree (s.nodes.map (·.2)) order)
    (hfiles : ∀ n ∈ s.nodes, n.2.typeId = .regFile → FileData env Encodes n.2.inode) :
    KeepsGroups env (.ofWalk (initErofsNodes_read hwalk) htree) ↔
      GroupsSafe env Encodes (.ofWalk (initErofsNodes_read hwalk) htree) := by
  refine ⟨groupsSafe_of_keeps fun n hn htype => ?_, keepsGroups_of_safe⟩
  obtain ⟨p, hp, rfl⟩ := List.mem_map.mp hn.1
  exact hfiles p hp htype

end Groups

def linkedSymlink : FsckInode where
  dir := ⟨40, false, 1, fun _ _ => .ok fun _ => 120, fun h => nomatch h⟩
  mode := .symlink
  nlink := 2
  isPacked := false
  isDir_eq := rfl

def symlinkNodes : NodeSet where
  nodes := [⟨[47, 97], .symlink, linkedSymlink⟩, ⟨[47, 98], .symlink, linkedSymlink⟩]
  order := [⟨[47, 97], .symlink, linkedSymlink⟩, ⟨[47, 98], .symlink, linkedSymlink⟩]
  typed := by simp [linkedSymlink, nodeTypeId]
  same := by simp
  tree := {
    inside := by
      intro n hn
      left
      rcases List.mem_cons.mp hn with rfl | hn
      · exact inside_cons_iff.mpr (by decide)
      · rw [List.mem_singleton.mp hn]
        exact inside_cons_iff.mpr (by decide)
    named := by simp
    leaf := by
      have hnot : ¬ pathComponents [47, 97] <+: pathComponents [47, 98] := by decide
      have hnot' : ¬ pathComponents [47, 98] <+: pathComponents [47, 97] := by decide
      simp [hnot, hnot']
    nodup := by simp
    perm := by simp }

/-- An image with one block of data, which starts with `xy`. -/
def plainOutEnv : OutEnv where
  overwrite := false
  superuser := true
  image := { holeEnv with primary := [120, 121] }
  fields := fun inode =>
    { holeInode with nid := inode.dir.nid, iSize := inode.dir.iSize, datalayout := .flatPlain }
  rdev := fun _ => 0
  follow := fun _ _ => none
  outfd := 4
  outfd_pos := by decide

/-- Two names for a symlink come out as names for a regular file. -/
theorem symlinkNodes_files :
    ¬ ∀ (env : OutEnv) (Encodes : ℕ → List UInt8 → List UInt8 → Prop) (N : NodeSet),
      (∀ n, N.Other n → n.typeId = .regFile → FileData env Encodes n.inode) →
        KeepsGroups env N := by
  intro h
  have hother : symlinkNodes.Other ⟨[47, 97], .symlink, linkedSymlink⟩ :=
    ⟨List.mem_cons_self, by decide⟩
  obtain ⟨t, hrun, hkept⟩ := h plainOutEnv (fun _ _ _ => False) symlinkNodes (by
    intro n hn htype
    rcases List.mem_cons.mp hn.1 with rfl | hn
    · cases htype
    · rw [List.mem_singleton.mp hn] at htype
      cases htype)
  obtain ⟨kind, ⟨data, -, hown⟩, hlook⟩ := hkept.made _ hother
  have hfile : (extractErofsNode plainOutEnv symlinkNodes.nodes symlinkNodes.order
      OutTree.empty).map (FileNames.look · (pathComponents [47, 97])) =
        some (some (.file [120])) := by
    decide +kernel
  have hsym : kindOf plainOutEnv none ⟨[47, 97], .symlink, linkedSymlink⟩ =
      some (.symlink [120]) := by
    decide +kernel
  rw [@kindOf_congr _ _ data none (by decide), hsym] at hown
  change FileNames.look t (pathComponents [47, 97]) = some kind at hlook
  rw [hrun, Option.map_some, hlook, ← hown] at hfile
  cases hfile

def linkedFile : FsckInode where
  dir := ⟨36, false, 2, fun _ _ => .ok fun _ => 0, fun h => nomatch h⟩
  mode := .regFile
  nlink := 2
  isPacked := false
  isDir_eq := rfl

def outerDir : FsckInode where
  dir := ⟨38, true, 0, fun _ _ => .ok fun _ => 0, fun h => nomatch h⟩
  mode := .dir
  nlink := 2
  isPacked := false
  isDir_eq := rfl

def dirNode : ErofsNode := ⟨[47, 100], .dir, outerDir⟩
def topFileNode : ErofsNode := ⟨[47, 97], .regFile, linkedFile⟩
def innerFileNode : ErofsNode := ⟨[47, 100, 47, 98], .regFile, linkedFile⟩

/-- A file with the names `/a` and `/d/b`, of which the second is extracted first. -/
def fileNodes : NodeSet where
  nodes := [topFileNode, dirNode, innerFileNode]
  order := [innerFileNode, topFileNode]
  typed := by simp [topFileNode, dirNode, innerFileNode, linkedFile, outerDir, nodeTypeId]
  same := by simp [topFileNode, dirNode, innerFileNode, ErofsNode.nid, linkedFile, outerDir]
  tree := {
    inside := by
      intro n hn
      left
      simp only [List.mem_cons, List.not_mem_nil, or_false] at hn
      rcases hn with rfl | rfl | rfl
      · exact inside_cons_iff.mpr (by decide)
      · exact inside_cons_iff.mpr (by decide)
      · exact inside_cons_iff.mpr (by decide)
    named := by simp [topFileNode, dirNode, innerFileNode]
    leaf := by
      intro n hn m hm
      simp only [List.mem_cons, List.not_mem_nil, or_false] at hn hm
      rcases hn with rfl | rfl | rfl
      · rcases hm with rfl | rfl | rfl
        · exact fun _ _ => rfl
        · exact fun _ h => absurd h (by decide)
        · exact fun _ h => absurd h (by decide)
      · exact fun h => absurd rfl h
      · rcases hm with rfl | rfl | rfl
        · exact fun _ h => absurd h (by decide)
        · exact fun _ h => absurd h (by decide)
        · exact fun _ _ => rfl
    nodup := by simp [topFileNode, dirNode, innerFileNode]
    perm := by
      simp [topFileNode, dirNode, innerFileNode]
      exact List.Perm.swap _ _ _ }

theorem flatPa_linkedFile {i : ℕ} (h : i < 2) :
    flatPa (plainOutEnv.fields linkedFile) i = i := by
  have hlt : i < flatTail (plainOutEnv.fields linkedFile) := Nat.lt_trans h (by decide)
  have hpos : (plainOutEnv.fields linkedFile).sbi.pos
      (plainOutEnv.fields linkedFile).iBlkaddr = 0 := by decide
  rw [flatPa, if_pos hlt, hpos, Nat.zero_add]

theorem flatFile_linkedFile :
    FlatFile plainOutEnv.image (plainOutEnv.fields linkedFile) [120, 121] where
  layout := Or.inl rfl
  bits_le := by decide
  size := rfl
  size_lt := by decide
  blocks_lt := by decide
  device := by
    intro i j hlt _
    have hsum : i + j < 2 := hlt
    rw [flatPa_linkedFile hsum, flatPa_linkedFile (by omega)]
    rfl
  bytes := by
    intro i hi
    rw [flatPa_linkedFile hi]
    rfl
  tail_le := fun h => absurd h (by decide)

theorem fileNodes_cases {n : ErofsNode} (h : fileNodes.Other n) :
    n = topFileNode ∨ n = innerFileNode := by
  obtain ⟨hmem, hdir⟩ := h
  simp only [fileNodes, List.mem_cons, List.not_mem_nil, or_false] at hmem
  rcases hmem with rfl | rfl | rfl
  · exact Or.inl rfl
  · exact absurd rfl hdir
  · exact Or.inr rfl

theorem fileNodes_source : hardlinkSource fileNodes.nodes 36 = some [47, 97] := by decide

theorem fileNodes_safe : GroupsSafe plainOutEnv (fun _ _ _ => False) fileNodes where
  copyable := by
    have hcopy : Copyable plainOutEnv (fun _ _ _ => False) linkedFile :=
      ⟨_, _, .flat flatFile_linkedFile, by
        intro p hp
        have hpieces : flatPieces (plainOutEnv.fields linkedFile) = [⟨2, true⟩] := by decide
        rw [hpieces, List.mem_singleton] at hp
        exact hp ▸ ⟨rfl, fun h => absurd h (by decide)⟩⟩
    intro n hn _
    rcases fileNodes_cases hn with rfl | rfl
    · exact hcopy
    · exact hcopy
  hasDir := by
    intro n hn
    rcases fileNodes_cases hn with rfl | rfl
    · exact Or.inl (by decide)
    · exact Or.inr ⟨dirNode, by simp [fileNodes], rfl, by decide⟩
  inTable := by
    intro n hn src hsrc
    rcases fileNodes_cases hn with rfl | rfl
    · rw [← Option.some.inj (fileNodes_source.symm.trans hsrc)]
      exact ⟨rfl, Or.inl rfl⟩
    · rw [← Option.some.inj (fileNodes_source.symm.trans hsrc)]
      exact ⟨rfl, Or.inr (by decide)⟩
  alone := by
    intro n hn hsrc
    have hnid : n.nid = 36 := by
      rcases fileNodes_cases hn with rfl | rfl
      · rfl
      · rfl
    rw [hnid, fileNodes_source] at hsrc
    cases hsrc

theorem hardlinks_extracted_iff_fileNodes : KeepsGroups plainOutEnv fileNodes :=
  (hardlinks_extracted_iff plainOutEnv fileNodes fun n hn _ => by
    rcases fileNodes_cases hn with rfl | rfl
    · exact .pieces (.flat flatFile_linkedFile)
    · exact .pieces (.flat flatFile_linkedFile)).mpr fileNodes_safe

end ErofsUtils
