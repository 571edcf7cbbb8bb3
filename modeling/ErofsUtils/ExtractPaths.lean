import ErofsUtils.PathBuffer

/-!
# The paths that are extracted to

The path of a node is what the walk started from with the names of the entries followed behind it.
Nothing looks at these names: a path leaves the output directory exactly when one of them has a
part that does, or when the walk has started outside.
-/

namespace ErofsUtils
open ByteMemory CString PathStrings

namespace WalkPlace

def string (p : WalkPlace) : List UInt8 :=
  if p.names = [] then p.path else upToNul (grown p.base p.names)

/-- A walk that has started inside, and names that keep it there. -/
def Safe (p : WalkPlace) : Prop :=
  if p.names = [] then p.path = [47] ∨ Inside p.path
  else Inside (upToNul p.base) ∧ (0 ∉ p.base → SafeNames p.names)

/-- The walk of a start begins at the root, or at the pathname of the inode that the target names,
as `snprintf` leaves it in `iter_path`. -/
def BeginsAt (env : ExtractEnv) (fuel : ℕ) (p : WalkPlace) : ExtractStart → Prop
  | .root => p.path = [47] ∧ p.base = []
  | .target path _ => ∃ vi buf, erofsIlookup env.pathEnv path = .ok vi ∧
      erofsGetPathname env.pathEnv vi.nid pathMax fuel ⟨fun _ => 0, []⟩ = some (0, buf) ∧
      p.path = upToNul ((env.snprintf (cString pathMax buf.mem)).take (pathMax - 1)) ∧
      p.base = env.snprintf (cString pathMax buf.mem)

end WalkPlace

/-- A path below the output directory, which itself is the path of the root. -/
def PathStaysInside (n : WalkPlace × ErofsNode) : Prop :=
  (n.1.names = [] ∧ n.2.path = [47]) ∨ Inside n.2.path

namespace ExtractState

/-- The buffer holds what the walk has written up to `iter_pos`. -/
structure BufferAt (s : ExtractState) : Prop where
  held : s.iterPos < pathMax → Holds s.iterPath.mem 0 (grown s.place.base s.place.names)
  length : s.iterPos < pathMax → (grown s.place.base s.place.names).length = s.iterPos

structure StringAt (s : ExtractState) : Prop where
  buffer : s.BufferAt
  string : cString (pathMax + 1) s.iterPath.mem = s.place.string

def NodesAt (s : ExtractState) : Prop := ∀ n ∈ s.nodes, n.2.path = n.1.string

theorem BufferAt.restored {s t : ExtractState} (h : s.BufferAt) (hr : s.Restored t) :
    t.BufferAt where
  held := by
    intro hlt
    rw [hr.pos] at hlt
    rw [hr.place]
    apply holds_congr _ (h.held hlt)
    intro k _ hk
    rw [Nat.zero_add, h.length hlt] at hk
    exact hr.path.below k hk
  length := by
    intro hlt
    rw [hr.pos] at hlt ⊢
    rw [hr.place]
    exact h.length hlt

theorem BufferAt.follow {s : ExtractState} {name : FileName} (h : s.BufferAt)
    (hlong : s.iterPos + name.length < pathMax) : (s.follow name).StringAt := by
  have hlt : s.iterPos < pathMax := by omega
  have hlen : (grown s.place.base (s.place.names ++ [name])).length =
      s.iterPos + 1 + name.length := by
    rw [grown_snoc, List.length_append, List.length_cons, length_strncpy, h.length hlt]
    omega
  have hheld : Holds (s.follow name).iterPath.mem 0
      (grown s.place.base (s.place.names ++ [name]) ++ [0]) := by
    rw [grown_snoc, List.append_assoc, holds_append, Nat.zero_add, h.length hlt]
    constructor
    · apply holds_congr _ (h.held hlt)
      intro k _ hk
      rw [Nat.zero_add, h.length hlt] at hk
      exact store_of_lt _ hk
    · exact holds_store _ _ _
  constructor
  · exact ⟨fun _ => (holds_append.mp hheld).1, fun _ => hlen⟩
  · rw [cString_of_holds hheld (by omega)]
    exact (if_neg (by simp [ExtractState.follow])).symm

/-- Each node is for an inode of the image, and has the type of that inode. -/
def NodesRead (env : ExtractEnv) (s : ExtractState) : Prop :=
  ∀ n ∈ s.nodes, n.2.typeId = nodeTypeId n.2.inode ∧ n.2.typeId ≠ .unknown ∧
    env.readInode n.2.inode.dir.nid = .ok n.2.inode

theorem forall_nodes_create {P : WalkPlace × ErofsNode → Prop} {s : ExtractState}
    (h : ∀ n ∈ s.nodes, P n) {inode : FsckInode}
    (hnew : nodeTypeId inode ≠ .unknown →
      P (s.place, ⟨cString (pathMax + 1) s.iterPath.mem, nodeTypeId inode, inode⟩)) :
    ∀ n ∈ (createErofsNode inode s).nodes, P n := by
  unfold createErofsNode
  split
  · exact h
  · next htype =>
      intro n hn
      rcases List.mem_append.mp hn with hn | hn
      · exact h n hn
      · rw [List.mem_singleton.mp hn]
        exact hnew htype

end ExtractState

def ExtractState.BeganAt (s : ExtractState) (p : WalkPlace) : Prop :=
  s.place.path = p.path ∧ s.place.base = p.base

/-- `P` holds of the nodes that a walk makes which has begun at `p`. -/
def HoldsOfNew (env : ExtractEnv) (p : WalkPlace) (P : WalkPlace × ErofsNode → Prop) : Prop :=
  ∀ {s : ExtractState} {nid inode}, s.StringAt → s.BeganAt p → env.readInode nid = .ok inode →
    nodeTypeId inode ≠ .unknown →
    P (s.place, ⟨cString (pathMax + 1) s.iterPath.mem, nodeTypeId inode, inode⟩)

theorem extractRule_nodes {env : ExtractEnv} {p : WalkPlace} {P : WalkPlace × ErofsNode → Prop}
    (hnew : HoldsOfNew env p P) :
    ExtractRule env (fun s => s.StringAt ∧ s.BeganAt p) (fun s => s.BufferAt ∧ s.BeganAt p)
      (fun s t => s.Restored t ∧ ((∀ n ∈ s.nodes, P n) → ∀ n ∈ t.nodes, P n)) where
  refl := fun s => ⟨ExtractState.Restored.refl s, id⟩
  trans := fun h h' => ⟨h.1.trans h'.1, fun hs => h'.2 (h.2 hs)⟩
  pos := fun h => h.1.pos
  keeps := by
    rintro s t ⟨hr, -⟩ ⟨hs, hp⟩
    refine ⟨hs.restored hr, ?_⟩
    unfold ExtractState.BeganAt
    rw [hr.place]
    exact hp
  create := fun hs hread => ⟨ExtractState.Restored.create _ _,
    fun h => ExtractState.forall_nodes_create h (hnew hs.1 hs.2 hread)⟩
  enter := fun hs => ⟨hs.1.buffer, hs.2⟩
  follow := fun hs _ hlong => ⟨hs.1.follow hlong, hs.2⟩
  comeBack := fun _ _ hlong h => ⟨h.1.comeBack hlong, h.2⟩

theorem startAt_stringAt (s : ExtractState) {text : List UInt8} {pos : ℕ}
    (hpos : pos ≤ text.length) : (s.startAt text pos).StringAt where
  buffer := by
    have hbase : pos < pathMax → text.take pos = (text.take (pathMax - 1)).take pos := by
      intro hlt
      rw [List.take_take, Nat.min_eq_left (by omega)]
    constructor
    · intro hlt
      have hheld : Holds (s.startAt text pos).iterPath.mem 0 (text.take (pathMax - 1)) :=
        (holds_append.mp (holds_store s.iterPath.mem 0 _)).1
      change Holds _ 0 (grown (text.take pos) [])
      rw [grown_nil, hbase hlt]
      rw [← List.take_append_drop pos (text.take (pathMax - 1)), holds_append] at hheld
      exact hheld.1
    · intro _
      change (grown (text.take pos) []).length = pos
      rw [grown_nil, List.length_take, Nat.min_eq_left hpos]
  string := rfl

theorem startAt_path (s : ExtractState) (text : List UInt8) (pos : ℕ) :
    (s.startAt text pos).place.path = upToNul (text.take (pathMax - 1)) := by
  have hheld : Holds (s.startAt text pos).iterPath.mem 0 (text.take (pathMax - 1) ++ [0]) :=
    holds_store s.iterPath.mem 0 _
  apply cString_of_holds hheld
  rw [List.length_take]
  omega

section Run

variable {env : ExtractEnv} {fuel : ℕ} {P : WalkPlace × ErofsNode → Prop}

theorem doInitNodeRecursive_nodes {p : WalkPlace} (hnew : HoldsOfNew env p P) (nid : ℕ)
    {s : ExtractState} (hs : s.StringAt) (hp : s.BeganAt p) : ∃ ret t,
      doInitNodeRecursive env (pathMax + 1 + fuel) nid s = some (ret, t) ∧
        ((∀ n ∈ s.nodes, P n) → ∀ n ∈ t.nodes, P n) := by
  obtain ⟨ret, t, hrun, ht⟩ := @ExtractRule.doInitNodeRecursive _ _ _ _ (extractRule_nodes hnew)
    (pathMax + 1 + fuel) nid _ ⟨hs, hp⟩ (by omega) (by omega)
  exact ⟨ret, t, hrun, ht.2⟩

theorem startAt_root (s : ExtractState) (fuel : ℕ) :
    (s.startAt [47] 0).place.BeginsAt env fuel .root :=
  ⟨startAt_path s [47] 0, rfl⟩

theorem initErofsNode_nodes {start : ExtractStart}
    (hnew : ∀ p : WalkPlace, p.BeginsAt env (pathMax + 1 + fuel) start → HoldsOfNew env p P)
    {s t : ExtractState} {ret : ℤ}
    (h : initErofsNode env (pathMax + 1 + fuel) start s = some (ret, t))
    (hs : ∀ n ∈ s.nodes, P n) : ∀ n ∈ t.nodes, P n := by
  cases start with
  | root =>
      have hstart := @startAt_stringAt s [47] _ (Nat.zero_le _)
      obtain ⟨ret', t', hrun, ht⟩ := @doInitNodeRecursive_nodes _ fuel _ _
        (hnew _ (startAt_root s _)) env.sbi.rootNid _ hstart ⟨rfl, rfl⟩
      change doInitNodeRecursive env (pathMax + 1 + fuel) env.sbi.rootNid (s.startAt [47] 0) = _
        at h
      rw [hrun] at h
      cases h
      exact ht hs
  | target path recursive =>
      change doInitNode env (pathMax + 1 + fuel) path recursive s = _ at h
      unfold doInitNode at h
      split at h
      · cases h
        exact hs
      next vi hlookup =>
      split at h
      · cases h
      next ret' pathnameBuf hpathname =>
      split at h
      · cases h
        exact hs
      next hret =>
      rw [not_not] at hret
      rw [hret] at hpathname
      have hstart : (s.startAt (env.snprintf (cString pathMax pathnameBuf.mem))
          (env.snprintf (cString pathMax pathnameBuf.mem)).length).StringAt :=
        startAt_stringAt s (le_refl _)
      have hbegins : (s.startAt (env.snprintf (cString pathMax pathnameBuf.mem))
          (env.snprintf (cString pathMax pathnameBuf.mem)).length).place.BeginsAt env
            (pathMax + 1 + fuel) (.target path recursive) :=
        ⟨vi, pathnameBuf, hlookup, hpathname, startAt_path _ _ _, List.take_length⟩
      dsimp only at h
      split at h
      · obtain ⟨ret', t', hrun, ht⟩ := doInitNodeRecursive_nodes (hnew _ hbegins) vi.nid hstart
          ⟨rfl, rfl⟩
        rw [hrun] at h
        cases h
        exact ht hs
      · split at h
        · cases h
          exact hs
        · next inode hread =>
            cases h
            exact ExtractState.forall_nodes_create (s := s.startAt _ _) hs
              (hnew _ hbegins hstart ⟨rfl, rfl⟩ hread)

theorem initErofsNodes_nodes {starts : List ExtractStart}
    (hnew : ∀ start ∈ starts, ∀ p : WalkPlace, p.BeginsAt env (pathMax + 1 + fuel) start →
      HoldsOfNew env p P)
    {s t : ExtractState} (h : initErofsNodes env (pathMax + 1 + fuel) starts s = some t)
    (hs : ∀ n ∈ s.nodes, P n) : ∀ n ∈ t.nodes, P n := by
  induction starts generalizing s with
  | nil =>
      cases h
      exact hs
  | cons start starts ih =>
      rw [initErofsNodes] at h
      split at h
      · cases h
      next _ s1 hrun =>
      exact ih (fun start' hmem => hnew start' (List.mem_cons_of_mem _ hmem)) h
        (initErofsNode_nodes (hnew start List.mem_cons_self) hrun hs)

/-- The state in which `extract.erofs` starts, with a buffer that holds `buf`. -/
def ExtractState.empty (buf : Mem) : ExtractState := ⟨⟨buf, []⟩, 0, [], ⟨[], [], []⟩, []⟩

theorem initErofsNodes_nodesAt {starts : List ExtractStart} {buf : Mem} {t : ExtractState}
    (h : initErofsNodes env (pathMax + 1 + fuel) starts (.empty buf) = some t) : t.NodesAt :=
  initErofsNodes_nodes (fun _ _ _ _ _ _ _ hs _ _ _ => hs.string) h fun _ hn => nomatch hn

/-- Every node is where one of the starts has led to. -/
theorem initErofsNodes_begin {starts : List ExtractStart} {buf : Mem} {t : ExtractState}
    (h : initErofsNodes env (pathMax + 1 + fuel) starts (.empty buf) = some t) :
    ∀ n ∈ t.nodes, ∃ start ∈ starts, n.1.BeginsAt env (pathMax + 1 + fuel) start := by
  apply initErofsNodes_nodes (P := fun n => ∃ start ∈ starts,
    n.1.BeginsAt env (pathMax + 1 + fuel) start) _ h fun _ hn => nomatch hn
  intro start hmem p hp s nid inode _ hbegan _ _
  refine ⟨start, hmem, ?_⟩
  cases start with
  | root => exact ⟨hbegan.1.trans hp.1, hbegan.2.trans hp.2⟩
  | target path recursive =>
      obtain ⟨vi, pathnameBuf, hlookup, hpathname, hpath, hbase⟩ := hp
      exact ⟨vi, pathnameBuf, hlookup, hpathname, hbegan.1.trans hpath, hbegan.2.trans hbase⟩

theorem initErofsNodes_read {starts : List ExtractStart} {buf : Mem} {t : ExtractState}
    (h : initErofsNodes env (pathMax + 1 + fuel) starts (.empty buf) = some t) :
    t.NodesRead env := by
  apply initErofsNodes_nodes (P := fun n => n.2.typeId = nodeTypeId n.2.inode ∧
    n.2.typeId ≠ .unknown ∧ env.readInode n.2.inode.dir.nid = .ok n.2.inode) _ h
    fun _ hn => nomatch hn
  intro start _ p _ s nid inode _ _ hread htype
  refine ⟨rfl, htype, ?_⟩
  rw [env.readInode_nid hread]
  exact hread

theorem staysInside_iff {n : WalkPlace × ErofsNode} (h : n.2.path = n.1.string) :
    PathStaysInside n ↔ n.1.Safe := by
  unfold PathStaysInside WalkPlace.Safe
  rw [h, WalkPlace.string]
  by_cases hn : n.1.names = []
  · rw [if_pos hn, if_pos hn]
    exact or_congr_left (and_iff_right hn)
  · rw [if_neg hn, if_neg hn, ← inside_grown_iff]
    exact or_iff_right fun hand => hn hand.1

theorem initErofsNodes_root (starts : List ExtractStart) (s : ExtractState) :
    initErofsNodes env fuel (.root :: starts) s =
      match doInitNodeRecursive env fuel env.sbi.rootNid (s.startAt [47] 0) with
      | none => none
      | some (_, s) => initErofsNodes env fuel starts s := rfl

/-- The walk from the root returns for every image. Whatever `extract.erofs` starts from, the place
of a node is what one of the starts begins with, and the names followed; all nodes stay inside the
output directory exactly when each walk has begun inside and no name followed, up to its first NUL,
has a part between slashes that is empty, `.` or `..`. -/
theorem nodesStayInside_iff (env : ExtractEnv) (buf : Mem) :
    (∃ t, initErofsNodes env (pathMax + 1) [.root] (.empty buf) = some t) ∧
      ∀ fuel starts t, initErofsNodes env (pathMax + 1 + fuel) starts (.empty buf) = some t →
        (∀ n ∈ t.nodes, ∃ start ∈ starts, n.1.BeginsAt env (pathMax + 1 + fuel) start) ∧
          ((∀ n ∈ t.nodes, PathStaysInside n) ↔ ∀ n ∈ t.nodes, n.1.Safe) := by
  constructor
  · have hstart := @startAt_stringAt (.empty buf) [47] _ (Nat.zero_le _)
    obtain ⟨ret, t, hrun, -⟩ := @doInitNodeRecursive_nodes env 0 (fun _ => True) _
      (fun _ _ _ _ => trivial) env.sbi.rootNid _ hstart ⟨rfl, rfl⟩
    refine ⟨t, ?_⟩
    rw [Nat.add_zero] at hrun
    rw [initErofsNodes_root, hrun]
    rfl
  · intro fuel starts t hrun
    have hnodes : t.NodesAt := initErofsNodes_nodesAt hrun
    refine ⟨initErofsNodes_begin hrun, ?_⟩
    exact forall₂_congr fun n hn => staysInside_iff (hnodes n hn)

end Run

/-- A root with one entry, the file 40 with the name `../a`. -/
def parentDir : DirInode := imageDir 36 (dotEntries ++ [(40, 1, [46, 46, 47, 97])]) []

def readParentInode (nid : ℕ) : Except ℤ FsckInode :=
  if nid = 36 then .ok ⟨parentDir, .dir, 2, false, FsckInode.isDir_dir⟩
  else if nid = 40 then
    .ok ⟨{ parentDir with nid := 40, isDir := false }, .regFile, 1, false,
      FsckInode.isDir_regFile⟩
  else .error eIo

theorem readParentInode_neg {nid : ℕ} {e : ℤ} (h : readParentInode nid = .error e) : e < 0 := by
  unfold readParentInode at h
  split at h
  · cases h
  · split at h
    · cases h
    · cases h
      decide

theorem readParentInode_nid {nid : ℕ} {inode : FsckInode} (h : readParentInode nid = .ok inode) :
    inode.dir.nid = nid := by
  unfold readParentInode at h
  split at h
  · next hn =>
      cases h
      exact hn.symm
  · split at h
    · next hn =>
        cases h
        exact hn.symm
    · cases h

theorem id_plain {format : List UInt8} (_ : 37 ∉ format) : id format = format := rfl

def parentEnv : ExtractEnv where
  sbi := rootSb
  readInode := readParentInode
  stack := fun _ _ => 0
  nameiStack := fun _ _ => 0
  snprintf := id
  readInode_neg := readParentInode_neg
  readInode_nid := readParentInode_nid
  snprintf_plain := id_plain

theorem nodesStayInside_parent : ∃ t,
    initErofsNodes parentEnv (pathMax + 1) [.root] (.empty fun _ => 0) = some t ∧
      (∀ n ∈ t.nodes, ∃ start ∈ [.root], n.1.BeginsAt parentEnv (pathMax + 1) start) ∧
      ((∀ n ∈ t.nodes, PathStaysInside n) ↔ ∀ n ∈ t.nodes, n.1.Safe) := by
  obtain ⟨⟨t, hrun⟩, hiff⟩ := nodesStayInside_iff parentEnv fun _ => 0
  exact ⟨t, hrun, hiff 0 [.root] t hrun⟩

theorem parentEnv_leaves :
    ¬ ∀ (env : ExtractEnv) (buf : Mem) (fuel : ℕ) (starts : List ExtractStart)
      (t : ExtractState), initErofsNodes env fuel starts (.empty buf) = some t →
        ∀ n ∈ t.nodes, PathStaysInside n := by
  intro h
  have hpaths : (initErofsNodes parentEnv 3 [.root] (.empty fun _ => 0)).map
      (fun t => t.nodes.map (·.2.path)) = some [[47], [47, 46, 46, 47, 97]] := by
    decide +kernel
  obtain ⟨t, hrun, ht⟩ := Option.map_eq_some_iff.mp hpaths
  have hmem : [47, 46, 46, 47, 97] ∈ t.nodes.map (·.2.path) := by
    rw [ht]
    decide
  obtain ⟨n, hn, hpath⟩ := List.mem_map.mp hmem
  rcases h parentEnv (fun _ => 0) 3 [.root] t hrun n hn with hroot | hin
  · rw [hpath] at hroot
    exact absurd hroot.2 (by decide)
  · rw [hpath, inside_cons_iff] at hin
    exact absurd hin (by decide)

end ErofsUtils
