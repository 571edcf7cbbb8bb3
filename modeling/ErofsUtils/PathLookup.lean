import ErofsUtils.Namei
import Mathlib.Data.List.Permutation

/-!
# Pathnames of well-formed images

On an image whose directories are a finite tree of well-formed blocks `erofs_get_pathname` ends,
writes nothing beyond the size it is given, and leaves a path that `erofs_ilookup` resolves to the
inode; it finds no path only where there is none.
-/

namespace ErofsUtils
open ByteMemory CString DepthFirst

section Tree

variable (env : PathEnv)

/-- An entry of the directory `nid` other than `.` and `..`. -/
def HasEntry (nid : ℕ) (v : DirVisit) : Prop :=
  ∃ dir, env.readInode nid = .ok dir ∧ dir.isDir = true ∧
    v ∈ (dirEntries env.sbi dir (env.stack dir.nid)).1 ∧ v.dotDotdot = false

inductive PathTo : ℕ → List FileName → ℕ → Prop
  | here (nid : ℕ) : PathTo nid [] nid
  | down {nid m : ℕ} {v : DirVisit} {cs : List FileName} (hv : HasEntry env nid v)
      (hcs : PathTo v.nid cs m) : PathTo nid (v.dname :: cs) m

def InTree (nid : ℕ) : Prop := ∃ cs, PathTo env env.sbi.rootNid cs nid

/-- A directory that reads as the entries `es`, whatever was in the buffer before, with distinct
names that have neither a NUL nor a slash in them. -/
structure DirWellFormed (sbi : DirSb) (dir : DirInode) (es : List DirVisit) : Prop where
  reads : ∀ buf, dirEntries sbi dir buf = (es, 0)
  distinct : (es.map DirVisit.dname).Nodup
  names : ∀ v ∈ es, 0 ∉ v.dname ∧ 47 ∉ v.dname

/-- The inodes of the tree can be read and its directories are well-formed, the type of an entry
does not hide a directory, and no way down the tree is endless. -/
structure ImageWellFormed : Prop where
  root : ∃ dir, env.readInode env.sbi.rootNid = .ok dir ∧ dir.isDir = true
  inodes : ∀ nid, InTree env nid → ∃ dir, env.readInode nid = .ok dir
  dirs : ∀ nid dir, InTree env nid → env.readInode nid = .ok dir → dir.isDir = true →
    ∃ es, DirWellFormed env.sbi dir es
  types : ∀ nid v dir, InTree env nid → HasEntry env nid v → env.readInode v.nid = .ok dir →
    dir.isDir = true → v.ftype = ftDir ∨ v.ftype = ftUnknown
  finite : ¬ ∃ way : ℕ → ℕ, way 0 = env.sbi.rootNid ∧
    ∀ n, ∃ v, HasEntry env (way n) v ∧ v.nid = way (n + 1)

def pathBytes (cs : List FileName) : List UInt8 := cs.flatMap (47 :: ·)

end Tree

section Names

variable {sbi : DirSb} {dir : DirInode}

theorem blockEntries_dname {mem : Mem} {stop maxsize fuel k next : ℕ} {v : DirVisit}
    (h : v ∈ (blockEntries mem stop maxsize fuel k next).1) : v.dname ≠ [] := by
  induction fuel generalizing k next with
  | zero => cases h
  | succ fuel ih =>
      rw [blockEntries] at h
      split at h
      · cases h
      · split at h
        · next hp =>
            rw [List.mem_cons] at h
            cases h with
            | inl hv =>
                intro he
                have hlen : (visitAt mem stop maxsize k).dname.length =
                    Dirent.namelen mem stop maxsize k := Dirent.length_dname
                rw [← hv, he] at hlen
                exact hp.2.2 hlen.symm
            | inr hv => exact ih hv
        · cases h

theorem dirEntriesLoop_dname {fuel pos : ℕ} {buf : Mem} {v : DirVisit}
    (h : v ∈ (dirEntriesLoop sbi dir fuel pos buf).1) : v.dname ≠ [] := by
  induction fuel generalizing pos buf with
  | zero => cases h
  | succ fuel ih =>
      rw [dirEntriesLoop] at h
      split at h
      · cases h
      dsimp only at h
      split at h
      · cases h
      split at h
      · cases h
      split at h
      · next vs hb =>
          rw [← congrArg Prod.fst hb] at h
          exact blockEntries_dname h
      · next vs hb =>
          rw [List.mem_append] at h
          cases h with
          | inl h =>
              have hvs := congrArg Prod.fst hb
              dsimp only at hvs
              rw [← hvs] at h
              exact blockEntries_dname h
          | inr h => exact ih h

theorem dirEntries_dname {buf : Mem} {v : DirVisit} (h : v ∈ (dirEntries sbi dir buf).1) :
    v.dname ≠ [] := by
  unfold dirEntries at h
  split at h
  · cases h
  · exact dirEntriesLoop_dname h

end Names

section Resolve

variable {env : PathEnv}

theorem PathTo.snoc {nid m : ℕ} {cs : List FileName} {v : DirVisit} (h : PathTo env nid cs m)
    (hv : HasEntry env m v) : PathTo env nid (cs ++ [v.dname]) v.nid := by
  induction h with
  | here nid => exact .down hv (.here _)
  | down hw _ ih => exact .down hw (ih hv)

theorem InTree.entry {nid : ℕ} {v : DirVisit} (h : InTree env nid) (hv : HasEntry env nid v) :
    InTree env v.nid := by
  obtain ⟨cs, hcs⟩ := h
  exact ⟨_, hcs.snoc hv⟩

theorem ImageWellFormed.entry (h : ImageWellFormed env) {nid : ℕ} {v : DirVisit}
    (hnid : InTree env nid) (hv : HasEntry env nid v) :
    v.dname ≠ [] ∧ 0 ∉ v.dname ∧ 47 ∉ v.dname ∧ erofsNamei env nid v.dname = .ok v.nid := by
  obtain ⟨dir, hread, hdir, hmem, -⟩ := hv
  obtain ⟨es, hes⟩ := h.dirs nid dir hnid hread hdir
  have hne := dirEntries_dname hmem
  rw [hes.reads] at hmem
  have hnames := hes.names v hmem
  refine ⟨hne, hnames.1, hnames.2, ?_⟩
  have hloop := hes.reads (env.nameiStack nid)
  rw [dirEntries, if_neg (not_not.mpr hdir)] at hloop
  rw [erofsNamei, hread]
  dsimp only
  rw [nameiLoop_find hloop]
  have hfind : es.find? (·.dname = v.dname) = some v := by
    cases hf : es.find? (·.dname = v.dname) with
    | none =>
        rw [List.find?_eq_none] at hf
        exact absurd (by simp) (hf v hmem)
    | some w =>
        have hw : w.dname = v.dname := by simpa using List.find?_some hf
        rw [List.inj_on_of_nodup_map hes.distinct (List.mem_of_find?_eq_some hf) hmem hw]
  rw [hfind]

theorem takeWhile_component {c : FileName} (hc : 47 ∉ c) (cs : List FileName) :
    (c ++ pathBytes cs).takeWhile (· ≠ 47) = c ∧
      (c ++ pathBytes cs).dropWhile (· ≠ 47) = pathBytes cs := by
  induction c with
  | nil =>
      cases cs with
      | nil => exact ⟨rfl, rfl⟩
      | cons d cs =>
          rw [List.nil_append, pathBytes, List.flatMap_cons, List.cons_append]
          exact ⟨by simp, by simp⟩
  | cons b c ih =>
      rw [List.mem_cons, not_or] at hc
      have hb : b ≠ 47 := Ne.symm hc.1
      rw [List.cons_append, List.takeWhile_cons_of_pos (by simpa using hb),
        List.dropWhile_cons_of_pos (by simpa using hb)]
      exact ⟨by rw [(ih hc.2).1], (ih hc.2).2⟩

theorem dropWhile_pathBytes {c : FileName} (hne : c ≠ []) (hc : 47 ∉ c) (cs : List FileName) :
    (pathBytes (c :: cs)).dropWhile (· = 47) = c ++ pathBytes cs := by
  cases c with
  | nil => exact absurd rfl hne
  | cons b c =>
      rw [List.mem_cons, not_or] at hc
      rw [pathBytes, List.flatMap_cons, List.cons_append, List.dropWhile_cons_of_pos (by simp),
        List.cons_append, List.dropWhile_cons_of_neg (by simpa using Ne.symm hc.1)]
      rfl

theorem linkPathWalkLoop_pathTo (hwf : ImageWellFormed env) {nid m fuel : ℕ} {cs : List FileName}
    (hnid : InTree env nid) (h : PathTo env nid cs m) (hfuel : cs.length ≤ fuel) :
    linkPathWalkLoop env fuel ((pathBytes cs).dropWhile (· = 47)) nid = .ok m := by
  induction h generalizing fuel with
  | here nid =>
      cases fuel with
      | zero => rfl
      | succ fuel => rfl
  | @down nid m v cs hv _ ih =>
      obtain ⟨hne, -, hslash, hnamei⟩ := hwf.entry hnid hv
      rw [dropWhile_pathBytes hne hslash]
      cases fuel with
      | zero => simp at hfuel
      | succ fuel =>
          have hcons : v.dname ++ pathBytes cs ≠ [] := by
            intro he
            exact hne (List.append_eq_nil_iff.mp he).1
          obtain ⟨htake, hdrop⟩ := takeWhile_component hslash cs
          rw [linkPathWalkLoop, if_neg hcons, htake, hnamei, hdrop]
          exact ih (hnid.entry hv) (by simpa using hfuel)

theorem length_le_pathBytes (cs : List FileName) : cs.length ≤ (pathBytes cs).length := by
  induction cs with
  | nil => exact Nat.le_refl _
  | cons c cs ih =>
      rw [pathBytes, List.flatMap_cons, List.length_append, List.length_cons, List.length_cons]
      rw [pathBytes] at ih
      omega

theorem erofsIlookup_pathTo (hwf : ImageWellFormed env) {cs : List FileName} {nid : ℕ}
    (h : PathTo env env.sbi.rootNid cs nid) :
    ∃ inode, erofsIlookup env (pathBytes cs) = .ok inode ∧ inode.nid = nid := by
  obtain ⟨inode, hread⟩ := hwf.inodes nid ⟨cs, h⟩
  refine ⟨inode, ?_, env.readInode_nid hread⟩
  rw [erofsIlookup, linkPathWalk, linkPathWalkLoop_pathTo hwf ⟨[], .here _⟩ h
    (length_le_pathBytes cs)]
  exact hread

end Resolve

section Search

variable {env : PathEnv} {target size : ℕ}

/-- A walk over entries that gives the result `r` after none of the entries has given it at one of
them, with the state it came with. -/
theorem visitAll_found {σ : Type*} {cb : DirVisit → σ → Option (ℤ × σ)}
    (hkeep : ∀ v st st', cb v st = some (0, st') → st' = st) {vs : List DirVisit} {ret r : ℤ}
    {st st' : σ} (hr : r ≠ 0) (hret : ret ≠ r) (h : visitAll cb vs ret st = some (r, st')) :
    ∃ v ∈ vs, cb v st = some (r, st') := by
  induction vs with
  | nil =>
      rw [visitAll, Option.some.injEq, Prod.mk.injEq] at h
      exact absurd h.1 hret
  | cons v vs ih =>
      rw [visitAll] at h
      cases hcb : cb v st with
      | none => simp [hcb] at h
      | some q =>
          obtain ⟨q, st1⟩ := q
          rw [hcb] at h
          dsimp only at h
          by_cases hq : q ≠ 0
          · rw [if_pos hq, Option.some.injEq, Prod.mk.injEq] at h
            obtain ⟨rfl, rfl⟩ := h
            exact ⟨v, List.mem_cons_self, hcb⟩
          · rw [if_neg hq] at h
            have hq0 : q = 0 := not_not.mp hq
            subst hq0
            rw [hkeep v st st1 hcb] at h
            obtain ⟨w, hw, hwr⟩ := ih h
            exact ⟨w, List.mem_cons_of_mem _ hw, hwr⟩

theorem iter_keeps {descend : DirInode → ℕ → PathBuf → Option (ℤ × PathBuf)}
    (hdescend : ∀ dir pos b ret b', descend dir pos b = some (ret, b') → ret ≠ pathnameFound →
      b' = b) {pos : ℕ} {v : DirVisit} {b b' : PathBuf} {ret : ℤ}
    (h : erofsGetPathnameIter env target size descend pos v b = some (ret, b'))
    (hret : ret ≠ pathnameFound) : b' = b := by
  unfold erofsGetPathnameIter at h
  dsimp only at h
  split at h
  · cases h
    rfl
  split at h
  · split at h
    · cases h
      rfl
    · rw [Option.some.injEq, Prod.mk.injEq] at h
      exact absurd h.1.symm hret
  split at h
  · split at h
    · cases h
      rfl
    · split at h
      · split at h
        · cases h
        · next r b1 hd =>
            rw [Option.some.injEq, Prod.mk.injEq] at h
            obtain ⟨rfl, rfl⟩ := h
            rw [if_neg hret]
            exact hdescend _ _ _ _ _ hd hret
      · cases h
        rfl
  · cases h
    rfl

theorem visitAll_keeps {σ : Type*} {cb : DirVisit → σ → Option (ℤ × σ)} {r : ℤ}
    (hr : r ≠ 0)
    (hkeep : ∀ v st ret st', cb v st = some (ret, st') → ret ≠ r → st' = st)
    {vs : List DirVisit} {ret ret' : ℤ} {st st' : σ}
    (h : visitAll cb vs ret st = some (ret', st')) (hret : ret' ≠ r) : st' = st := by
  induction vs with
  | nil =>
      rw [visitAll, Option.some.injEq, Prod.mk.injEq] at h
      exact h.2.symm
  | cons v vs ih =>
      rw [visitAll] at h
      cases hcb : cb v st with
      | none => simp [hcb] at h
      | some q =>
          obtain ⟨q, st1⟩ := q
          rw [hcb] at h
          dsimp only at h
          by_cases hq : q ≠ 0
          · rw [if_pos hq, Option.some.injEq, Prod.mk.injEq] at h
            obtain ⟨rfl, rfl⟩ := h
            exact hkeep v st q st1 hcb hret
          · rw [if_neg hq] at h
            have hst := hkeep v st q st1 hcb (fun he => hq (he ▸ hr))
            rw [hst] at h
            exact ih h

theorem searchDir_keeps {fuel : ℕ} {dir : DirInode} {pos : ℕ} {b b' : PathBuf} {ret : ℤ}
    (h : searchDir env target size fuel dir pos b = some (ret, b')) (hret : ret ≠ pathnameFound) :
    b' = b := by
  induction fuel generalizing dir pos b ret b' with
  | zero => cases h
  | succ fuel ih =>
      rw [searchDir, erofsIterateDir_visitAll] at h
      exact visitAll_keeps (by decide)
        (fun v st r st' hr hne => iter_keeps (fun _ _ _ _ _ hd hn => ih hd hn) hr hne) h hret

/-- What the buffer holds from `pos` on when the inode has been found below a directory. -/
structure PathWritten (size pos : ℕ) (cs : List FileName) (b b' : PathBuf) : Prop where
  holds : Holds b'.mem pos (pathBytes cs ++ [0])
  fits : pos + (pathBytes cs).length + 1 ≤ size
  written : ∀ p ∈ b'.written, p ∈ b.written ∨ p < size

theorem put_written {b : PathBuf} {pos : ℕ} {bytes : List UInt8} {p : ℕ}
    (h : p ∈ (b.put pos bytes).written) : p ∈ b.written ∨ p < pos + bytes.length := by
  rw [PathBuf.put, List.mem_append, List.mem_range'_1] at h
  exact h.imp id And.right

theorem PathWritten.cons {pos : ℕ} {cs : List FileName} {c : FileName} {b b' : PathBuf}
    (h : PathWritten size (pos + c.length + 1) cs b b') :
    PathWritten size pos (c :: cs) b (b'.put pos (47 :: c)) := by
  have hfits := h.fits
  have hlen : (pathBytes (c :: cs)).length = c.length + 1 + (pathBytes cs).length := by
    rw [pathBytes, List.flatMap_cons, List.length_append, List.length_cons]
    rfl
  constructor
  · have hsplit : pathBytes (c :: cs) ++ [0] = (47 :: c) ++ (pathBytes cs ++ [0]) := by
      rw [← List.append_assoc]
      rfl
    rw [hsplit, holds_append]
    constructor
    · exact holds_store _ _ _
    · have hpos : pos + (47 :: c).length = pos + c.length + 1 := by
        rw [List.length_cons]
        omega
      rw [hpos]
      apply holds_congr _ h.holds
      intro k hk _
      exact store_of_ge _ (by rw [hpos]; exact hk)
  · omega
  · intro p hp
    cases put_written hp with
    | inl hp => exact h.written p hp
    | inr hp =>
        rw [List.length_cons] at hp
        omega

/-- The leaf that has the inode: its name and a NUL are written. -/
theorem pathWritten_leaf {pos : ℕ} {c : FileName} {b : PathBuf}
    (hfits : pos + c.length + 2 ≤ size) :
    PathWritten size pos [c] b (b.put pos (47 :: c ++ [0])) := by
  have hbytes : pathBytes [c] = 47 :: c := by
    rw [pathBytes, List.flatMap_cons, List.flatMap_nil, List.append_nil]
  constructor
  · rw [hbytes]
    exact holds_store _ _ _
  · rw [hbytes, List.length_cons]
    omega
  · intro p hp
    cases put_written hp with
    | inl hp => exact Or.inl hp
    | inr hp =>
        rw [List.length_append, List.length_cons, List.length_singleton] at hp
        omega

theorem iter_found {descend : DirInode → ℕ → PathBuf → Option (ℤ × PathBuf)} {pos : ℕ}
    {v : DirVisit} {b b' : PathBuf}
    (h : erofsGetPathnameIter env target size descend pos v b = some (pathnameFound, b')) :
    v.dotDotdot = false ∧
      (v.nid = target ∧ pos + v.dname.length + 2 ≤ size ∧
          b' = b.put pos (47 :: strncpy v.dname ++ [0]) ∨
        ∃ dir b₁, env.readInode v.nid = .ok dir ∧ dir.isDir = true ∧
          descend dir (pos + v.dname.length + 1) b = some (pathnameFound, b₁) ∧
          b' = b₁.put pos (47 :: strncpy v.dname)) := by
  cases hc : searchChild env target v with
  | skip =>
      rw [iter_skip hc, Option.some.injEq, Prod.mk.injEq, pathnameFound] at h
      exact absurd h.1 (by decide)
  | enter dir =>
      obtain ⟨hdot, -, -, hread, hdir⟩ := searchChild_enter hc
      rw [iter_enter hc, Option.map_eq_some_iff] at h
      obtain ⟨⟨r, b₁⟩, hd, he⟩ := h
      rw [Prod.mk.injEq] at he
      obtain ⟨rfl, rfl⟩ := he
      exact ⟨hdot, Or.inr ⟨dir, b₁, hread, hdir, hd, if_pos rfl⟩⟩
  | stop =>
      unfold searchChild at hc
      unfold erofsGetPathnameIter at h
      dsimp only at h
      split at hc
      · cases hc
      next hdot =>
      refine ⟨Bool.eq_false_iff.mpr hdot, ?_⟩
      rw [if_neg hdot] at h
      split at hc
      · next hnid =>
          rw [if_pos hnid] at h
          split at h
          · rw [Option.some.injEq, Prod.mk.injEq] at h
            exact absurd h.1 (by decide)
          · next hfits =>
              rw [Option.some.injEq, Prod.mk.injEq] at h
              exact Or.inl ⟨hnid, by omega, h.2.symm⟩
      next hnid =>
      rw [if_neg hnid] at h
      split at hc
      · next hft =>
          rw [if_pos hft] at h
          split at hc
          · next e hread =>
              have hneg := env.readInode_neg hread
              rw [hread, Option.some.injEq, Prod.mk.injEq, pathnameFound] at h
              have he := h.1
              omega
          · split at hc <;> cases hc
      · cases hc

theorem searchDir_found (hwf : ImageWellFormed env) {fuel nid : ℕ} {dir : DirInode} {pos : ℕ}
    {b b' : PathBuf} (hnid : InTree env nid) (hread : env.readInode nid = .ok dir)
    (h : searchDir env target size fuel dir pos b = some (pathnameFound, b')) :
    ∃ cs, PathTo env nid cs target ∧ PathWritten size pos cs b b' := by
  induction fuel generalizing nid dir pos b b' with
  | zero => cases h
  | succ fuel ih =>
      rw [searchDir, erofsIterateDir_visitAll] at h
      have hret : (dirEntries env.sbi dir (env.stack dir.nid)).2 ≠ pathnameFound := by
        by_cases hdir : dir.isDir = true
        · obtain ⟨es, hes⟩ := hwf.dirs nid dir hnid hread hdir
          rw [hes.reads]
          change (0 : ℤ) ≠ pathnameFound
          decide
        · rw [dirEntries, if_pos hdir]
          change eNotDir ≠ pathnameFound
          decide
      have hkeep : ∀ v st st', erofsGetPathnameIter env target size (searchDir env target size fuel)
          pos v st = some (0, st') → st' = st :=
        fun v st st' hr => iter_keeps (fun _ _ _ _ _ hd hn => searchDir_keeps hd hn) hr (by decide)
      obtain ⟨v, hv, hfound⟩ := visitAll_found hkeep (by decide) hret h
      obtain ⟨hdot, hcases⟩ := iter_found hfound
      have hdir : dir.isDir = true := by
        by_contra hn
        rw [dirEntries, if_pos hn] at hv
        cases hv
      have hentry : HasEntry env nid v := ⟨dir, hread, hdir, hv, hdot⟩
      have hcopy : strncpy v.dname = v.dname :=
        strncpy_of_zero_notMem (hwf.entry hnid hentry).2.1
      rw [hcopy] at hcases
      rcases hcases with ⟨hnid', hfits, rfl⟩ | ⟨dir', b₁, hread', -, hd, rfl⟩
      · refine ⟨[v.dname], ?_, pathWritten_leaf hfits⟩
        have hpath : PathTo env nid [v.dname] v.nid := .down hentry (.here _)
        rwa [hnid'] at hpath
      · obtain ⟨cs, hcs, hwritten⟩ := ih (hnid.entry hentry) hread' hd
        exact ⟨v.dname :: cs, .down hentry hcs, hwritten.cons⟩

theorem enter_mem_searchChildren {dir sub : DirInode}
    (h : .enter sub ∈ searchChildren env target dir) :
    ∃ v ∈ (dirEntries env.sbi dir (env.stack dir.nid)).1, searchChild env target v = .enter sub := by
  rw [searchChildren, List.mem_append, List.mem_map] at h
  cases h with
  | inl h => exact h
  | inr h =>
      split at h
      · cases h
      · simp at h

theorem visitAll_ret {σ : Type*} {cb : DirVisit → σ → Option (ℤ × σ)} {P : ℤ → Prop}
    {vs : List DirVisit} {ret ret' : ℤ} {st st' : σ} (hret : P ret)
    (hcb : ∀ v ∈ vs, ∀ st r st', cb v st = some (r, st') → P r)
    (h : visitAll cb vs ret st = some (ret', st')) : P ret' := by
  induction vs generalizing st with
  | nil =>
      rw [visitAll, Option.some.injEq, Prod.mk.injEq] at h
      rwa [← h.1]
  | cons v vs ih =>
      rw [List.forall_mem_cons] at hcb
      rw [visitAll] at h
      split at h
      · cases h
      · next r st₁ hr =>
          split at h
          · rw [Option.some.injEq, Prod.mk.injEq] at h
            rw [← h.1]
            exact hcb.1 _ _ _ hr
          · exact ih hcb.2 h

/-- The results of a search in a well-formed tree. -/
def SearchRet (ret : ℤ) : Prop := ret = 0 ∨ ret = pathnameFound ∨ ret = eRange

theorem iter_ret (hwf : ImageWellFormed env)
    {descend : DirInode → ℕ → PathBuf → Option (ℤ × PathBuf)} {pos nid : ℕ}
    (hdescend : ∀ nid dir pos b ret b', InTree env nid → env.readInode nid = .ok dir →
      dir.isDir = true → descend dir pos b = some (ret, b') → SearchRet ret)
    {v : DirVisit} {b b' : PathBuf} {ret : ℤ} (hnid : InTree env nid)
    (hv : v.dotDotdot = false → HasEntry env nid v)
    (h : erofsGetPathnameIter env target size descend pos v b = some (ret, b')) :
    SearchRet ret := by
  unfold erofsGetPathnameIter at h
  dsimp only at h
  split at h
  · cases h
    exact Or.inl rfl
  next hdot =>
  have hentry := hv (Bool.eq_false_iff.mpr hdot)
  have hin := hnid.entry hentry
  split at h
  · split at h
    · cases h
      exact Or.inr (Or.inr rfl)
    · cases h
      exact Or.inr (Or.inl rfl)
  split at h
  · split at h
    · next e hread =>
        obtain ⟨dir, hdir⟩ := hwf.inodes _ hin
        rw [hread] at hdir
        cases hdir
    · next dir hread =>
        split at h
        · next hdir =>
            split at h
            · cases h
            · next r b₁ hd =>
                rw [Option.some.injEq, Prod.mk.injEq] at h
                rw [← h.1]
                exact hdescend _ _ _ _ _ _ hin hread hdir hd
        · cases h
          exact Or.inl rfl
  · cases h
    exact Or.inl rfl

theorem searchDir_ret (hwf : ImageWellFormed env) {fuel nid : ℕ} {dir : DirInode} {pos : ℕ}
    {b b' : PathBuf} {ret : ℤ} (hnid : InTree env nid) (hread : env.readInode nid = .ok dir)
    (hdir : dir.isDir = true) (h : searchDir env target size fuel dir pos b = some (ret, b')) :
    SearchRet ret := by
  induction fuel generalizing nid dir pos b ret b' with
  | zero => cases h
  | succ fuel ih =>
      rw [searchDir, erofsIterateDir_visitAll] at h
      obtain ⟨es, hes⟩ := hwf.dirs nid dir hnid hread hdir
      apply visitAll_ret _ _ h
      · rw [hes.reads]
        exact Or.inl rfl
      · intro v hv st r st' hr
        exact iter_ret hwf (fun nid dir pos b ret b' hn hrd hd hs => ih hn hrd hd hs) hnid
          (fun hdot => ⟨dir, hread, hdir, hv, hdot⟩) hr

theorem not_endless_of_wellFormed (hwf : ImageWellFormed env) : ¬ EndlessSearch env target := by
  rintro ⟨-, way, h0, hway⟩
  apply hwf.finite
  refine ⟨fun n => (way n).nid, env.readInode_nid h0, ?_⟩
  have hread : ∀ n, env.readInode (way n).nid = .ok (way n) := by
    intro n
    induction n with
    | zero => rwa [env.readInode_nid h0]
    | succ n ih =>
        obtain ⟨before, after, hcs, -⟩ := hway n
        have hmem : Child.enter (way (n + 1)) ∈ searchChildren env target (way n) := by
          rw [hcs]
          simp
        obtain ⟨v, -, hv⟩ := enter_mem_searchChildren hmem
        obtain ⟨-, -, -, hrd, -⟩ := searchChild_enter hv
        rwa [env.readInode_nid hrd]
  intro n
  obtain ⟨before, after, hcs, -⟩ := hway n
  have hmem : Child.enter (way (n + 1)) ∈ searchChildren env target (way n) := by
    rw [hcs]
    simp
  obtain ⟨v, hv, henter⟩ := enter_mem_searchChildren hmem
  obtain ⟨hdot, -, -, hrd, -⟩ := searchChild_enter henter
  have hdir : (way n).isDir = true := by
    by_contra hn
    rw [dirEntries, if_pos hn] at hv
    cases hv
  exact ⟨v, ⟨way n, hread n, hdir, hv, hdot⟩, (env.readInode_nid hrd).symm⟩

theorem stops_of_pathTo (hwf : ImageWellFormed env) {nid : ℕ} {dir : DirInode} {cs : List FileName}
    (hnid : InTree env nid) (hread : env.readInode nid = .ok dir) (hne : nid ≠ target)
    (h : PathTo env nid cs target) : Stops (searchChildren env target) dir := by
  induction h generalizing dir with
  | here nid => exact absurd rfl hne
  | @down nid m v cs hv hcs ih =>
      obtain ⟨dir', hread', hdir, hmem, hdot⟩ := hv
      rw [hread, Except.ok.injEq] at hread'
      subst hread'
      have hentry : HasEntry env nid v := ⟨dir, hread, hdir, hmem, hdot⟩
      have hchild : searchChild env m v ∈ searchChildren env m dir :=
        List.mem_append_left _ (List.mem_map_of_mem hmem)
      by_cases hv : v.nid = m
      · have hstop : searchChild env m v = .stop := by
          rw [searchChild, if_neg (by simp [hdot]), if_pos hv]
        rw [hstop] at hchild
        exact Child.stops_of_mem hchild trivial
      · obtain ⟨sub, hsub⟩ := hwf.inodes v.nid (hnid.entry hentry)
        have hstops := ih (hnid.entry hentry) hsub hv
        have hsubdir : sub.isDir = true := by
          cases hcs with
          | here => exact absurd rfl hv
          | down hw _ =>
              obtain ⟨d, hd, hdd, -⟩ := hw
              rw [hsub, Except.ok.injEq] at hd
              rwa [hd]
        have hft := hwf.types nid v sub hnid hentry hsub hsubdir
        have henter : searchChild env m v = .enter sub := by
          rw [searchChild, if_neg (by simp [hdot]), if_neg hv, if_pos hft, hsub]
          exact if_pos hsubdir
        rw [henter] at hchild
        exact Child.stops_of_mem hchild hstops

theorem pathTo_bytes (hwf : ImageWellFormed env) {nid m : ℕ} {cs : List FileName}
    (hnid : InTree env nid) (h : PathTo env nid cs m) : 0 ∉ pathBytes cs := by
  induction h with
  | here nid => exact List.not_mem_nil
  | @down nid m v cs hv _ ih =>
      rw [pathBytes, List.flatMap_cons, List.mem_append, List.mem_cons, not_or, not_or]
      exact ⟨⟨by decide, (hwf.entry hnid hv).2.1⟩, ih (hnid.entry hv)⟩

theorem pathTo_head {nid m : ℕ} {cs : List FileName} (hne : nid ≠ m) (h : PathTo env nid cs m) :
    (pathBytes cs).head? = some 47 := by
  cases h with
  | here => exact absurd rfl hne
  | down _ _ => rfl

/-- The buffer holds a NUL-terminated absolute path within its size that resolves to the inode. -/
def HoldsPath (env : PathEnv) (target size : ℕ) (mem : Mem) : Prop :=
  ∃ p : List UInt8, p.head? = some 47 ∧ 0 ∉ p ∧ Holds mem 0 (p ++ [0]) ∧ p.length + 1 ≤ size ∧
    ∃ inode, erofsIlookup env p = .ok inode ∧ inode.nid = target

theorem getPathname_root (hwf : ImageWellFormed env) {b b' : PathBuf} {ret : ℤ}
    (hroot : target = env.sbi.rootNid)
    (h : (if size < 2 then some (eRange, b) else some (0, b.put 0 [47, 0])) = some (ret, b')) :
    (ret = 0 → HoldsPath env target size b'.mem) ∧
      (∀ p ∈ b'.written, p ∈ b.written ∨ p < size) ∧ (ret = eNoEnt → ¬ InTree env target) := by
  split at h
  · cases h
    exact ⟨fun he => absurd he (by decide), fun p hp => Or.inl hp,
      fun he => absurd he (by decide)⟩
  · next hsize =>
      cases h
      refine ⟨fun _ => ?_, ?_, fun he => absurd he (by decide)⟩
      · obtain ⟨inode, hread, -⟩ := hwf.root
        have hmem : Holds (b.put 0 [47, 0]).mem 0 [47, 0] := holds_store b.mem 0 [47, 0]
        refine ⟨[47], rfl, by decide, hmem, ?_, inode, ?_, ?_⟩
        · rw [List.length_singleton]
          omega
        · exact hread
        · rw [hroot]
          exact env.readInode_nid hread
      · intro p hp
        cases put_written hp with
        | inl hp => exact Or.inl hp
        | inr hp =>
            rw [List.length_cons, List.length_singleton] at hp
            omega

/-- `erofs_get_pathname` on a well-formed image, for every inode and size of the buffer: it ends;
a path that it gives resolves to the inode; it writes nothing beyond the size; and when it finds
no entry for the inode there is no path to it. -/
theorem getPathname_wellFormed (env : PathEnv) (hwf : ImageWellFormed env) (target size : ℕ)
    (b : PathBuf) :
    (∃ fuel, erofsGetPathname env target size fuel b ≠ none) ∧
      ∀ fuel ret b', erofsGetPathname env target size fuel b = some (ret, b') →
        (ret = 0 → HoldsPath env target size b'.mem) ∧
        (∀ p ∈ b'.written, p ∈ b.written ∨ p < size) ∧
        (ret = eNoEnt → ¬ InTree env target) := by
  refine ⟨getPathname_of_not_endless (not_endless_of_wellFormed hwf) b, ?_⟩
  intro fuel ret b' h
  rw [erofsGetPathname] at h
  by_cases hroot : target = env.sbi.rootNid
  · rw [if_pos hroot] at h
    exact getPathname_root hwf hroot h
  rw [if_neg hroot] at h
  obtain ⟨root, hread, hdir⟩ := hwf.root
  rw [hread] at h
  dsimp only at h
  have hin : InTree env env.sbi.rootNid := ⟨[], .here _⟩
  cases hs : searchDir env target size fuel root 0 b with
  | none => simp [hs] at h
  | some r =>
      obtain ⟨r, b₁⟩ := r
      rw [hs] at h
      dsimp only at h
      rcases searchDir_ret hwf hin hread hdir hs with rfl | rfl | rfl
      · rw [if_neg (by decide), if_pos rfl, Option.some.injEq, Prod.mk.injEq] at h
        obtain ⟨rfl, rfl⟩ := h
        have hsame := searchDir_keeps hs (by decide)
        refine ⟨fun he => absurd he (by decide), fun p hp => Or.inl (hsame ▸ hp), ?_⟩
        rintro - ⟨cs, hcs⟩
        have hwalk : walk (searchChildren env target) fuel root = some true := by
          rw [← walkRet_searchDir size fuel root 0 b, hs]
          rfl
        exact not_stops_of_walk hwalk (stops_of_pathTo hwf hin hread (Ne.symm hroot) hcs)
      · rw [if_pos rfl, Option.some.injEq, Prod.mk.injEq] at h
        obtain ⟨rfl, rfl⟩ := h
        obtain ⟨cs, hcs, hwritten⟩ := searchDir_found hwf hin hread hs
        refine ⟨fun _ => ?_, hwritten.written, fun he => absurd he (by decide)⟩
        refine ⟨pathBytes cs, pathTo_head (Ne.symm hroot) hcs, pathTo_bytes hwf hin hcs,
          hwritten.holds, ?_, erofsIlookup_pathTo hwf hcs⟩
        have hfits := hwritten.fits
        omega
      · rw [if_neg (by decide), if_neg (by decide), Option.some.injEq, Prod.mk.injEq] at h
        obtain ⟨rfl, rfl⟩ := h
        have hsame := searchDir_keeps hs (by decide)
        exact ⟨fun he => absurd he (by decide), fun p hp => Or.inl (hsame ▸ hp),
          fun he => absurd he (by decide)⟩

end Search

/-- The root of the tree, with a directory `a` and a file `b`. -/
def nestedRoot : DirInode := imageDir 36 (dotEntries ++ [(40, 2, [97]), (44, 1, [98])]) []

def nestedDir : DirInode := imageDir 40 [(40, 2, [46]), (36, 2, [46, 46]), (48, 1, [99, 100])] []

def nestedInode (nid : ℕ) : Option DirInode :=
  if nid = 36 then some nestedRoot
  else if nid = 40 then some nestedDir
  else if nid = 44 ∨ nid = 48 then some { nestedDir with nid := nid, isDir := false }
  else none

theorem nestedInode_nid {nid : ℕ} {dir : DirInode} (h : nestedInode nid = some dir) :
    dir.nid = nid := by
  unfold nestedInode at h
  split_ifs at h with h36 h40
  · cases h
    exact h36.symm
  · cases h
    exact h40.symm
  · cases h
    rfl

def nestedEnv : PathEnv where
  sbi := rootSb
  readInode := fun nid => (nestedInode nid).elim (.error eIo) .ok
  stack := fun _ _ => 0
  nameiStack := fun _ _ => 0
  readInode_neg := by
    intro nid e h
    cases hi : nestedInode nid with
    | none =>
        rw [hi] at h
        cases h
        decide
    | some dir =>
        rw [hi] at h
        cases h
  readInode_nid := by
    intro nid dir h
    cases hi : nestedInode nid with
    | none =>
        rw [hi] at h
        cases h
    | some dir' =>
        rw [hi] at h
        cases h
        exact nestedInode_nid hi

def nestedEntry (nid : ℕ) : List DirVisit :=
  if nid = 36 then [⟨40, 2, 51, [97], false⟩, ⟨44, 1, 52, [98], false⟩]
  else [⟨48, 1, 39, [99, 100], false⟩]

def nestedDots (nid : ℕ) : List DirVisit :=
  if nid = 36 then [⟨36, 2, 48, [46], true⟩, ⟨36, 2, 49, [46, 46], true⟩]
  else [⟨40, 2, 36, [46], true⟩, ⟨36, 2, 37, [46, 46], true⟩]

theorem nestedRoot_entries (buf : Mem) :
    dirEntries rootSb nestedRoot buf = (nestedDots 36 ++ nestedEntry 36, 0) := by
  have hsize : nestedRoot.iSize = 53 := by decide
  rw [dirEntries, if_neg (by decide), hsize]
  cbv

theorem nestedDir_entries (buf : Mem) :
    dirEntries rootSb nestedDir buf = (nestedDots 40 ++ nestedEntry 40, 0) := by
  have hsize : nestedDir.iSize = 41 := by decide
  rw [dirEntries, if_neg (by decide), hsize]
  cbv

theorem nestedEnv_dir {nid : ℕ} {dir : DirInode} (h : nestedEnv.readInode nid = .ok dir)
    (hdir : dir.isDir = true) : (nid = 36 ∨ nid = 40) ∧
      ∀ buf, dirEntries rootSb dir buf = (nestedDots nid ++ nestedEntry nid, 0) := by
  change (nestedInode nid).elim (Except.error eIo) Except.ok = Except.ok dir at h
  unfold nestedInode at h
  split_ifs at h with h36 h40
  · cases h
    exact ⟨.inl h36, h36 ▸ nestedRoot_entries⟩
  · cases h
    exact ⟨.inr h40, h40 ▸ nestedDir_entries⟩
  · cases h
    cases hdir
  · cases h

theorem nestedEnv_entry {nid : ℕ} {v : DirVisit} (h : HasEntry nestedEnv nid v) :
    (nid = 36 ∨ nid = 40) ∧ v ∈ nestedEntry nid := by
  obtain ⟨dir, hread, hdir, hv, hdot⟩ := h
  obtain ⟨hnid, hentries⟩ := nestedEnv_dir hread hdir
  change v ∈ (dirEntries rootSb dir _).1 at hv
  rw [hentries, List.mem_append] at hv
  refine ⟨hnid, hv.resolve_left fun hdots => ?_⟩
  have hall : ∀ nid, nid = 36 ∨ nid = 40 → ∀ w ∈ nestedDots nid, w.dotDotdot = true := by
    rintro _ (rfl | rfl) <;> decide
  rw [hall nid hnid v hdots] at hdot
  cases hdot

/-- What is below a directory is a file, or the directory `a` below the root. -/
theorem nestedEntry_below {nid : ℕ} {v : DirVisit} (hnid : nid = 36 ∨ nid = 40)
    (h : v ∈ nestedEntry nid) :
    nid < v.nid ∧ (v.nid = 44 ∨ v.nid = 48 ∨ v.nid = 40 ∧ v.ftype = ftDir) := by
  have hall : ∀ nid, nid = 36 ∨ nid = 40 → ∀ w ∈ nestedEntry nid,
      nid < w.nid ∧ (w.nid = 44 ∨ w.nid = 48 ∨ w.nid = 40 ∧ w.ftype = ftDir) := by
    rintro _ (rfl | rfl) <;> decide
  exact hall nid hnid v h

theorem nestedEnv_tree {nid m : ℕ} {cs : List FileName} (h : PathTo nestedEnv nid cs m)
    (hnid : nid = 36 ∨ nid = 40 ∨ nid = 44 ∨ nid = 48) : m = 36 ∨ m = 40 ∨ m = 44 ∨ m = 48 := by
  induction h with
  | here nid => exact hnid
  | down hv _ ih =>
      obtain ⟨hdir, hmem⟩ := nestedEnv_entry hv
      have hbelow := (nestedEntry_below hdir hmem).2
      exact ih (by omega)

theorem nestedEnv_wellFormed : ImageWellFormed nestedEnv where
  root := ⟨nestedRoot, rfl, rfl⟩
  inodes := by
    rintro nid ⟨cs, hcs⟩
    rcases nestedEnv_tree hcs (Or.inl rfl) with rfl | rfl | rfl | rfl <;> exact ⟨_, rfl⟩
  dirs := by
    intro nid dir _ hread hdir
    obtain ⟨hnid, hentries⟩ := nestedEnv_dir hread hdir
    refine ⟨_, hentries, ?_, ?_⟩
    · rcases hnid with rfl | rfl <;> decide
    · rcases hnid with rfl | rfl <;> decide
  types := by
    intro nid v dir _ hv hread hdir
    obtain ⟨hnid, hmem⟩ := nestedEnv_entry hv
    have hbelow := (nestedEntry_below hnid hmem).2
    have hvnid := (nestedEnv_dir hread hdir).1
    rcases hbelow with h | h | ⟨-, htype⟩
    · omega
    · omega
    · exact Or.inl htype
  finite := by
    rintro ⟨way, -, hway⟩
    -- the numbers grow on every way down
    have hgrows : ∀ n, 36 + n ≤ way n := by
      intro n
      induction n with
      | zero =>
          obtain ⟨v, hv, -⟩ := hway 0
          have hnid := (nestedEnv_entry hv).1
          omega
      | succ n ih =>
          obtain ⟨v, hv, hnext⟩ := hway n
          obtain ⟨hnid, hmem⟩ := nestedEnv_entry hv
          have hlt := (nestedEntry_below hnid hmem).1
          omega
    obtain ⟨v, hv, -⟩ := hway 5
    have hnid := (nestedEnv_entry hv).1
    have hge := hgrows 5
    omega

/-- The file `/a/cd`. -/
theorem getPathname_nested :
    (∃ fuel, erofsGetPathname nestedEnv 48 16 fuel ⟨fun _ => 0, []⟩ ≠ none) ∧
      ∀ fuel ret b', erofsGetPathname nestedEnv 48 16 fuel ⟨fun _ => 0, []⟩ = some (ret, b') →
        (ret = 0 → HoldsPath nestedEnv 48 16 b'.mem) ∧
        (∀ p ∈ b'.written, p ∈ ([] : List ℕ) ∨ p < 16) ∧ (ret = eNoEnt → ¬ InTree nestedEnv 48) :=
  getPathname_wellFormed nestedEnv nestedEnv_wellFormed 48 16 ⟨fun _ => 0, []⟩

end ErofsUtils
