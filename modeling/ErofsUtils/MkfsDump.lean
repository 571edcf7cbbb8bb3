import Mathlib.Data.List.Nodup
import Mathlib.Data.List.Pairwise
import Mathlib.Data.List.Perm.Basic
import ErofsUtils.MkfsTree

/-!
# What the walk over the source tree covers

The walk of `erofs_mkfs_dump_tree` as long as nothing fails: the worklist together with the
directories that were written is always the whole tree, and everything that was marked has been
handled. The results are stated for a log without errors, so they serve the threaded and the
other build, and both the order of the jobs and the fate of errors.
-/

namespace ErofsUtils

def subDirs (parent : ℕ) (ds : List Dentry) : List Dir := ds.filterMap fun e =>
  match e with
  | .dir ino subdirs => some ⟨ino, parent, subdirs⟩
  | _ => none

def subFiles (ds : List Dentry) : List ℕ := ds.filterMap fun e =>
  match e with
  | .file ino => some ino
  | _ => none

theorem dirsBelow_eq (parent : ℕ) (ds : List Dentry) :
    dirsBelow parent ds = (subDirs parent ds).flatMap Dir.dirs := by
  induction ds with
  | nil => simp [dirsBelow, subDirs]
  | cons d ds ih =>
    rw [dirsBelow, ih]
    cases d <;> simp [Dentry.dirs, subDirs, Dir.dirs]

theorem mem_filesBelow {x : ℕ} (parent : ℕ) {ds : List Dentry} :
    x ∈ filesBelow ds ↔
      x ∈ subFiles ds ∨ ∃ d ∈ subDirs parent ds, x ∈ filesBelow d.subdirs := by
  induction ds with
  | nil => simp [filesBelow, subFiles, subDirs]
  | cons d ds ih =>
    rw [filesBelow, List.mem_append, ih]
    cases d with
    | dot | dotdot | valid nid => simp [Dentry.files, subFiles, subDirs]
    | file ino =>
      simp only [Dentry.files, subFiles, subDirs, List.filterMap_cons, List.mem_cons,
        List.not_mem_nil, or_false]
      tauto
    | dir ino kids =>
      simp only [Dentry.files, subFiles, subDirs, List.filterMap_cons, List.mem_cons,
        exists_eq_or_imp]
      tauto

theorem Dir.dirs_eq (d : Dir) : d.dirs = d :: (subDirs d.ino d.subdirs).flatMap Dir.dirs := by
  rw [Dir.dirs, dirsBelow_eq]

mutual
theorem Dentry.mem_files {parent x : ℕ} {d : Dir} (hx : x ∈ filesBelow d.subdirs) :
    ∀ e : Dentry, d ∈ e.dirs parent → x ∈ e.files
  | .dot, hd => by simp [Dentry.dirs] at hd
  | .dotdot, hd => by simp [Dentry.dirs] at hd
  | .valid _, hd => by simp [Dentry.dirs] at hd
  | .file _, hd => by simp [Dentry.dirs] at hd
  | .dir ino kids, hd => by
    rw [Dentry.dirs, List.mem_cons] at hd
    rw [Dentry.files]
    rcases hd with rfl | hd
    · exact hx
    · exact mem_filesBelow_of_dir hx kids hd

theorem mem_filesBelow_of_dir {parent x : ℕ} {d : Dir} (hx : x ∈ filesBelow d.subdirs) :
    ∀ ds : List Dentry, d ∈ dirsBelow parent ds → x ∈ filesBelow ds
  | [], hd => by simp [dirsBelow] at hd
  | e :: ds, hd => by
    rw [dirsBelow, List.mem_append] at hd
    rw [filesBelow, List.mem_append]
    rcases hd with hd | hd
    · exact .inl (Dentry.mem_files hx e hd)
    · exact .inr (mem_filesBelow_of_dir hx ds hd)
end

structure SourceTree where
  root : Dir
  parent : root.parent = root.ino
  nodup : (root.dirs.map Dir.ino).Nodup
  disjoint : ∀ x ∈ filesBelow root.subdirs, x ∉ root.dirs.map Dir.ino

namespace SourceTree

def files (t : SourceTree) : List ℕ := filesBelow t.root.subdirs

def dirs (t : SourceTree) : List Dir := t.root.dirs

theorem mem_files (t : SourceTree) {d : Dir} (hd : d ∈ t.dirs) {x : ℕ}
    (hx : x ∈ filesBelow d.subdirs) : x ∈ t.files := by
  rcases List.mem_cons.mp hd with rfl | hd
  · exact hx
  · exact mem_filesBelow_of_dir hx _ hd

end SourceTree

namespace MkfsAct

def err : MkfsAct → ℤ
  | .handled _ err => err
  | .go _ err => err
  | _ => 0

end MkfsAct

def Clean (log : List MkfsAct) : Prop := ∀ a ∈ log, a.err = 0

theorem Clean.suffix {l l' : List MkfsAct} (h : Clean l') (hsuf : l <:+ l') : Clean l :=
  fun a ha => h a (hsuf.mem ha)

def bhDirs (log : List MkfsAct) : List Dir := log.filterMap fun a =>
  match a with
  | .go (.dirBh d) _ => some d
  | _ => none

section Dump

variable (go : MkfsJob → ℤ) (env : MkfsEnv)

def handleRet (ino : ℕ) (isdir : Bool) : ℤ :=
  match env.handleInode ino isdir with
  | .error err => err
  | .ok job => go job

/-- The inode was handled without an error, and its job, if there is one, was issued. -/
def Handled (log : List MkfsAct) (ino : ℕ) (isdir : Bool) : Prop :=
  handleRet go env ino isdir = 0 ∧
    ∀ job, env.handleInode ino isdir = .ok job → .go job 0 ∈ log

variable {go env}

theorem Handled.suffix {l l' : List MkfsAct} {ino : ℕ} {isdir : Bool}
    (h : Handled go env l ino isdir) (hsuf : l <:+ l') : Handled go env l' ino isdir :=
  ⟨h.1, fun job hjob => hsuf.mem (h.2 job hjob)⟩

variable (go env) in
theorem handleOne_spec (ino : ℕ) (isdir : Bool) (loads : List MkfsAct) (s : DumpState) :
    (handleOne go env ino isdir loads s).2 = handleRet go env ino isdir ∧
      (handleOne go env ino isdir loads s).1.visited = s.visited ∧
      s.log <:+ (handleOne go env ino isdir loads s).1.log ∧
      .handled ino (handleRet go env ino isdir) ∈ (handleOne go env ino isdir loads s).1.log := by
  rw [handleOne, handleRet]
  cases env.handleInode ino isdir with
  | error err => exact ⟨rfl, rfl, List.suffix_cons _ _, List.mem_cons_self⟩
  | ok job =>
    refine ⟨rfl, rfl, ?_, List.mem_cons_self⟩
    exact (List.suffix_append loads s.log).trans
      ((List.suffix_cons _ _).trans (List.suffix_cons _ _))

theorem handleOne_handled (ino : ℕ) (isdir : Bool) (loads : List MkfsAct) (s : DumpState)
    (h : handleRet go env ino isdir = 0) :
    Handled go env (handleOne go env ino isdir loads s).1.log ino isdir := by
  refine ⟨h, fun job hjob => ?_⟩
  rw [handleRet, hjob] at h
  simp only at h
  simp [handleOne, hjob, h, DumpState.push]

theorem suffix_push (s : DumpState) (a : MkfsAct) : s.log <:+ (s.push a).log :=
  List.suffix_cons a s.log

section Equations

variable {dir ino : ℕ} {subdirs ds : List Dentry} {s : DumpState}

theorem dumpSubdirs_file_seen (h : ino ∈ s.visited) :
    dumpSubdirs go env dir (.file ino :: ds) s = dumpSubdirs go env dir ds (s.push (.link ino)) :=
  by rw [dumpSubdirs, if_pos h]

theorem dumpSubdirs_dir_seen (h : ino ∈ s.visited) :
    dumpSubdirs go env dir (.dir ino subdirs :: ds) s =
      dumpSubdirs go env dir ds (s.push (.link ino)) := by
  rw [dumpSubdirs, if_pos h]

theorem dumpSubdirs_file_new (h : ino ∉ s.visited) :
    dumpSubdirs go env dir (.file ino :: ds) s =
      if handleRet go env ino false ≠ 0 then ((handleOne go env ino false [] (s.mark ino)).1, [])
      else dumpSubdirs go env dir ds (handleOne go env ino false [] (s.mark ino)).1 := by
  rw [dumpSubdirs, if_neg h]
  simp only [(handleOne_spec go env ino false [] (s.mark ino)).1]

theorem dumpSubdirs_dir_new (h : ino ∉ s.visited) :
    dumpSubdirs go env dir (.dir ino subdirs :: ds) s =
      let r := handleOne go env ino true (loadDir env ⟨ino, dir, subdirs⟩) (s.mark ino)
      if handleRet go env ino true ≠ 0 then (r.1, [])
      else
        ((dumpSubdirs go env dir ds (r.1.push (.grab ino))).1,
          ⟨ino, dir, subdirs⟩ :: (dumpSubdirs go env dir ds (r.1.push (.grab ino))).2) := by
  rw [dumpSubdirs, if_neg h]
  simp only [(handleOne_spec go env ino true (loadDir env ⟨ino, dir, subdirs⟩) (s.mark ino)).1]

end Equations

theorem suffix_dumpSubdirs (dir : ℕ) (ds : List Dentry) (s : DumpState) :
    s.log <:+ (dumpSubdirs go env dir ds s).1.log := by
  induction ds generalizing s with
  | nil => exact List.suffix_refl _
  | cons d ds ih =>
    cases d with
    | dot | dotdot | valid nid => exact ih s
    | file ino =>
      have hone := (handleOne_spec go env ino false [] (s.mark ino)).2.2.1
      by_cases hseen : ino ∈ s.visited
      · rw [dumpSubdirs_file_seen hseen]
        exact (suffix_push s _).trans (ih _)
      · rw [dumpSubdirs_file_new hseen]
        split_ifs
        · exact hone
        · exact List.IsSuffix.trans hone (ih _)
    | dir ino subdirs =>
      have hone := (handleOne_spec go env ino true
        (loadDir env ⟨ino, dir, subdirs⟩) (s.mark ino)).2.2.1
      by_cases hseen : ino ∈ s.visited
      · rw [dumpSubdirs_dir_seen hseen]
        exact (suffix_push s _).trans (ih _)
      · rw [dumpSubdirs_dir_new hseen]
        simp only
        split_ifs
        · exact hone
        · exact List.IsSuffix.trans hone ((suffix_push _ _).trans (ih _))

theorem suffix_dumpLoop (work : List Dir) (s : DumpState) :
    s.log <:+ (dumpLoop go env work s).1.log := by
  fun_induction dumpLoop go env work s with
  | case1 s => exact List.suffix_refl _
  | case2 s dir rest r err s' herr =>
    exact (suffix_dumpSubdirs dir.ino dir.subdirs s).trans (List.suffix_cons _ _)
  | case3 s dir rest r err s' herr ih =>
    exact (suffix_dumpSubdirs dir.ino dir.subdirs s).trans ((List.suffix_cons _ _).trans ih)

/-- The job of an inode is about that inode and never writes a directory. -/
theorem handleInode_job {ino : ℕ} {isdir : Bool} {job : MkfsJob}
    (h : env.handleInode ino isdir = .ok job) :
    (isdir = false ∧ ∃ fd ictx, job = .ndir ino fd ictx) ∨ (isdir = true ∧ job = .dir ino) := by
  rw [MkfsEnv.handleInode] at h
  cases isdir <;>
    simp only [MkfsEnv.rebuildHandleInode, MkfsEnv.mkfsHandleInode, MkfsEnv.handleDirectory,
      Bool.false_eq_true, if_false, if_true] at h
  · refine .inl ⟨rfl, ?_⟩
    split_ifs at h <;> cases h <;> exact ⟨_, _, rfl⟩
  · refine .inr ⟨rfl, ?_⟩
    split_ifs at h <;> cases h <;> rfl

variable (go env) in
theorem bhDirs_handleOne (ino : ℕ) (isdir : Bool) {loads : List MkfsAct} (s : DumpState)
    (hloads : bhDirs loads = []) :
    bhDirs (handleOne go env ino isdir loads s).1.log = bhDirs s.log := by
  rw [handleOne]
  cases hjob : env.handleInode ino isdir with
  | error err => simp [DumpState.push, bhDirs]
  | ok job =>
    have happ : bhDirs (loads ++ s.log) = bhDirs s.log := by
      rw [bhDirs, List.filterMap_append]
      exact congrArg (· ++ bhDirs s.log) hloads
    rcases handleInode_job hjob with ⟨-, fd, ictx, rfl⟩ | ⟨-, rfl⟩ <;> exact happ

variable (env) in
theorem bhDirs_loadDir (d : Dir) : bhDirs (loadDir env d) = [] := by
  rw [loadDir]
  split_ifs <;> rfl

theorem bhDirs_dumpSubdirs (dir : ℕ) (ds : List Dentry) (s : DumpState) :
    bhDirs (dumpSubdirs go env dir ds s).1.log = bhDirs s.log := by
  induction ds generalizing s with
  | nil => rfl
  | cons d ds ih =>
    cases d with
    | dot | dotdot | valid nid => exact ih s
    | file ino =>
      have hone := @bhDirs_handleOne go env ino false [] (s.mark ino) rfl
      by_cases hseen : ino ∈ s.visited
      · rw [dumpSubdirs_file_seen hseen]
        exact ih _
      · rw [dumpSubdirs_file_new hseen]
        split_ifs
        · exact hone
        · exact (ih _).trans hone
    | dir ino kids =>
      have hone := bhDirs_handleOne go env ino true (s.mark ino)
        (bhDirs_loadDir env ⟨ino, dir, kids⟩)
      by_cases hseen : ino ∈ s.visited
      · rw [dumpSubdirs_dir_seen hseen]
        exact ih _
      · rw [dumpSubdirs_dir_new hseen]
        simp only
        split_ifs
        · exact hone
        · exact (ih _).trans hone

/-- What a pass over the dentries of a directory has done when nothing failed: it has found all
subdirectories, and everything in the directory is handled. -/
structure SubdirsDone (go : MkfsJob → ℤ) (env : MkfsEnv) (dir : ℕ) (ds : List Dentry)
    (s : DumpState) (r : DumpState × List Dir) : Prop where
  subs : r.2 = subDirs dir ds
  visited : ∀ x, x ∈ r.1.visited ↔
    x ∈ s.visited ∨ x ∈ subFiles ds ∨ x ∈ (subDirs dir ds).map Dir.ino
  files : ∀ x ∈ subFiles ds, x ∉ s.visited → Handled go env r.1.log x false
  dirs : ∀ d ∈ subDirs dir ds, Handled go env r.1.log d.ino true

theorem dumpSubdirs_done {dir : ℕ} {ds : List Dentry} {s : DumpState}
    (hnodup : ((subDirs dir ds).map Dir.ino).Nodup)
    (hunseen : ∀ d ∈ subDirs dir ds, d.ino ∉ s.visited)
    (hdisj : ∀ x ∈ subFiles ds, x ∉ (subDirs dir ds).map Dir.ino)
    (hclean : Clean (dumpSubdirs go env dir ds s).1.log) :
    SubdirsDone go env dir ds s (dumpSubdirs go env dir ds s) := by
  induction ds generalizing s with
  | nil => exact ⟨rfl, by simp [dumpSubdirs, subFiles, subDirs], by simp [subFiles], by simp [subDirs]⟩
  | cons d ds ih =>
    cases d with
    | dot | dotdot | valid nid =>
      obtain ⟨h1, h2, h3, h4⟩ := ih hnodup hunseen hdisj hclean
      exact ⟨h1, h2, h3, h4⟩
    | file ino =>
      have hdisj' : ∀ x ∈ subFiles ds, x ∉ (subDirs dir ds).map Dir.ino :=
        fun x hx => hdisj x (List.mem_cons_of_mem ino hx)
      have hmem : ∀ x, x ∈ subFiles (.file ino :: ds) ↔ x = ino ∨ x ∈ subFiles ds :=
        fun x => List.mem_cons
      by_cases hseen : ino ∈ s.visited
      · rw [dumpSubdirs_file_seen hseen] at hclean ⊢
        obtain ⟨h1, h2, h3, h4⟩ := ih (s := s.push (.link ino)) hnodup hunseen hdisj' hclean
        refine ⟨h1, fun x => ?_, fun x hx hnew => ?_, h4⟩
        · rw [h2 x, hmem x]
          change x ∈ s.visited ∨ _ ↔ _
          constructor
          · tauto
          · rintro (hx | (rfl | hx) | hx)
            · exact .inl hx
            · exact .inl hseen
            · exact .inr (.inl hx)
            · exact .inr (.inr hx)
        · rcases (hmem x).mp hx with rfl | hx
          · exact absurd hseen hnew
          · exact h3 x hx hnew
      · obtain ⟨-, hvis, -, hin⟩ := handleOne_spec go env ino false [] (s.mark ino)
        rw [dumpSubdirs_file_new hseen] at hclean ⊢
        split_ifs at hclean ⊢ with hret
        · exact absurd (hclean _ hin) hret
        · rw [not_not] at hret
          have hunseen' : ∀ d ∈ subDirs dir ds,
              d.ino ∉ (handleOne go env ino false [] (s.mark ino)).1.visited := by
            intro d hd hv
            rw [hvis] at hv
            rcases List.mem_cons.mp hv with heq | hv
            · exact hdisj ino List.mem_cons_self (heq ▸ List.mem_map_of_mem hd)
            · exact hunseen d hd hv
          obtain ⟨h1, h2, h3, h4⟩ := ih hnodup hunseen' hdisj' hclean
          refine ⟨h1, fun x => ?_, fun x hx hnew => ?_, h4⟩
          · rw [h2 x, hmem x, hvis]
            change x ∈ ino :: s.visited ∨ _ ↔ _
            rw [List.mem_cons]
            tauto
          · by_cases hxi : x = ino
            · rw [hxi]
              exact (handleOne_handled ino false [] (s.mark ino) hret).suffix
                (suffix_dumpSubdirs dir ds _)
            · refine h3 x (((hmem x).mp hx).resolve_left hxi) fun hv => ?_
              rw [hvis] at hv
              exact (List.mem_cons.mp hv).elim hxi hnew
    | dir ino kids =>
      have hmem : ∀ d, d ∈ subDirs dir (.dir ino kids :: ds) ↔
          d = ⟨ino, dir, kids⟩ ∨ d ∈ subDirs dir ds := fun d => List.mem_cons
      have hnew : ino ∉ s.visited := hunseen ⟨ino, dir, kids⟩ List.mem_cons_self
      obtain ⟨hfresh, hnodup'⟩ := List.nodup_cons.mp hnodup
      obtain ⟨-, hvis, -, hin⟩ := handleOne_spec go env ino true (loadDir env ⟨ino, dir, kids⟩)
        (s.mark ino)
      rw [dumpSubdirs_dir_new hnew] at hclean ⊢
      simp only at hclean ⊢
      split_ifs at hclean ⊢ with hret
      · exact absurd (hclean _ hin) hret
      · rw [not_not] at hret
        have hdisj' : ∀ x ∈ subFiles ds, x ∉ (subDirs dir ds).map Dir.ino :=
          fun x hx => (List.not_mem_of_not_mem_cons (hdisj x hx))
        have hunseen' : ∀ d ∈ subDirs dir ds,
            d.ino ∉ (handleOne go env ino true (loadDir env ⟨ino, dir, kids⟩)
              (s.mark ino)).1.visited := by
          intro d hd hv
          rw [hvis] at hv
          rcases List.mem_cons.mp hv with heq | hv
          · have hd' := List.mem_map_of_mem (f := Dir.ino) hd
            rw [heq] at hd'
            exact hfresh hd'
          · exact hunseen d (List.mem_cons_of_mem _ hd) hv
        obtain ⟨h1, h2, h3, h4⟩ := ih (s := (handleOne go env ino true
          (loadDir env ⟨ino, dir, kids⟩) (s.mark ino)).1.push (.grab ino))
          hnodup' hunseen' hdisj' hclean
        refine ⟨?_, fun x => ?_, fun x hx hxnew => ?_, fun d hd => ?_⟩
        · exact congrArg (List.cons _) h1
        · rw [h2 x]
          change x ∈ (handleOne go env ino true (loadDir env ⟨ino, dir, kids⟩)
            (s.mark ino)).1.visited ∨ _ ↔ _ ∨ x ∈ subFiles ds ∨ x ∈ ino :: (subDirs dir ds).map Dir.ino
          rw [hvis, List.mem_cons]
          change x ∈ ino :: s.visited ∨ _ ↔ _
          rw [List.mem_cons]
          tauto
        · refine h3 x hx fun hv => ?_
          have hv : x ∈ (handleOne go env ino true (loadDir env ⟨ino, dir, kids⟩)
            (s.mark ino)).1.visited := hv
          rw [hvis] at hv
          rcases List.mem_cons.mp hv with heq | hv
          · exact hdisj x hx (heq ▸ List.mem_cons_self)
          · exact hxnew hv
        · rcases (hmem d).mp hd with rfl | hd
          · exact (handleOne_handled ino true _ (s.mark ino) hret).suffix
              ((suffix_push _ _).trans (suffix_dumpSubdirs dir ds _))
          · exact h4 d hd

/-- The state of the walk between two directories, as long as nothing failed. -/
structure Walk (t : SourceTree) (go : MkfsJob → ℤ) (env : MkfsEnv) (work : List Dir)
    (s : DumpState) : Prop where
  dirs : (bhDirs s.log ++ work.flatMap Dir.dirs).Perm t.dirs
  seen : ∀ d ∈ bhDirs s.log ++ work, d.ino ∈ s.visited
  unseen : ∀ w ∈ work, ∀ d ∈ dirsBelow w.ino w.subdirs, d.ino ∉ s.visited
  files : ∀ x ∈ t.files, x ∈ s.visited ∨ ∃ w ∈ work, x ∈ filesBelow w.subdirs
  handledFiles : ∀ x ∈ t.files, x ∈ s.visited → Handled go env s.log x false
  handledDirs : ∀ d ∈ t.dirs, d.ino ∈ s.visited → Handled go env s.log d.ino true

variable {t : SourceTree} {d : Dir} {rest : List Dir} {s : DumpState}

theorem Walk.mem_dirs {work : List Dir} (h : Walk t go env work s) {w : Dir} (hw : w ∈ work) :
    ∀ d ∈ w.dirs, d ∈ t.dirs := fun _ hd =>
  h.dirs.subset (List.mem_append_right _ (List.mem_flatMap.mpr ⟨w, hw, hd⟩))

theorem Walk.nodup {work : List Dir} (h : Walk t go env work s) :
    ((work.flatMap Dir.dirs).map Dir.ino).Nodup := by
  have hall := (h.dirs.map Dir.ino).nodup_iff.mpr t.nodup
  rw [List.map_append, List.nodup_append] at hall
  exact hall.2.1

/-- A pass over the first directory of the worklist. -/
theorem Walk.subdirsDone (h : Walk t go env (d :: rest) s)
    (hclean : Clean (dumpSubdirs go env d.ino d.subdirs s).1.log) :
    SubdirsDone go env d.ino d.subdirs s (dumpSubdirs go env d.ino d.subdirs s) := by
  have hsub : ∀ e ∈ subDirs d.ino d.subdirs, e ∈ dirsBelow d.ino d.subdirs := by
    intro e he
    rw [dirsBelow_eq]
    exact List.mem_flatMap.mpr ⟨e, he, List.mem_cons_self⟩
  have hdt : d ∈ t.dirs := h.mem_dirs List.mem_cons_self d List.mem_cons_self
  have hmap : ((subDirs d.ino d.subdirs).map Dir.ino).Sublist
      (((d :: rest).flatMap Dir.dirs).map Dir.ino) := by
    refine List.Sublist.map Dir.ino ?_
    rw [List.flatMap_cons, Dir.dirs_eq]
    refine List.Sublist.trans ?_ (List.sublist_append_left _ _)
    refine List.Sublist.trans ?_ (List.sublist_cons_self d _)
    induction subDirs d.ino d.subdirs with
    | nil => exact .slnil
    | cons e es ih =>
      rw [List.flatMap_cons, Dir.dirs, List.cons_append]
      exact (ih.trans (List.sublist_append_right _ _)).cons_cons e
  refine dumpSubdirs_done (h.nodup.sublist hmap)
    (fun e he => h.unseen d List.mem_cons_self e (hsub e he)) ?_ hclean
  intro x hx hxd
  have hxt : x ∈ t.files := t.mem_files hdt ((mem_filesBelow d.ino).mpr (.inl hx))
  obtain ⟨e, he, rfl⟩ := List.mem_map.mp hxd
  refine t.disjoint _ hxt (List.mem_map_of_mem ?_)
  exact h.mem_dirs List.mem_cons_self e (List.mem_cons_of_mem d (hsub e he))

/-- One round of the outer loop: the directory is written, and its subdirectories take its place
on the worklist. -/
theorem Walk.step (h : Walk t go env (d :: rest) s)
    (hclean : Clean (dumpSubdirs go env d.ino d.subdirs s).1.log) (err : ℤ) :
    Walk t go env ((dumpSubdirs go env d.ino d.subdirs s).2 ++ rest)
      ((dumpSubdirs go env d.ino d.subdirs s).1.push (.go (.dirBh d) err)) := by
  obtain ⟨hsubs, hvis, hfiles, hdirs⟩ := h.subdirsDone hclean
  have hsuf : s.log <:+
      ((dumpSubdirs go env d.ino d.subdirs s).1.push (.go (.dirBh d) err)).log :=
    (suffix_dumpSubdirs d.ino d.subdirs s).trans (suffix_push _ _)
  have hbh : bhDirs ((dumpSubdirs go env d.ino d.subdirs s).1.push (.go (.dirBh d) err)).log =
      d :: bhDirs s.log :=
    congrArg (List.cons d) (bhDirs_dumpSubdirs d.ino d.subdirs s)
  have hdt : d ∈ t.dirs := h.mem_dirs List.mem_cons_self d List.mem_cons_self
  have hold : ∀ x, x ∈ s.visited → x ∈ (dumpSubdirs go env d.ino d.subdirs s).1.visited :=
    fun x hx => (hvis x).mpr (.inl hx)
  -- the directories below the new worklist were below the old one
  have hnodup := h.nodup
  rw [List.flatMap_cons, Dir.dirs_eq, List.cons_append, List.map_cons, List.map_append] at hnodup
  rw [hsubs]
  constructor
  · rw [hbh, List.flatMap_append, List.cons_append]
    have hd := h.dirs
    rw [List.flatMap_cons, Dir.dirs_eq, List.cons_append] at hd
    exact List.perm_middle.symm.trans hd
  · intro e he
    rw [hbh, List.cons_append, List.mem_cons, List.mem_append, List.mem_append] at he
    rcases he with rfl | he | he | he
    · exact hold _ (h.seen e (List.mem_append_right _ List.mem_cons_self))
    · exact hold _ (h.seen e (List.mem_append_left _ he))
    · exact (hvis _).mpr (.inr (.inr (List.mem_map_of_mem he)))
    · exact hold _ (h.seen e (List.mem_append_right _ (List.mem_cons_of_mem d he)))
  · intro w hw e he hv
    obtain ⟨-, hsubnodup⟩ := List.nodup_cons.mp hnodup
    rw [List.nodup_append] at hsubnodup
    obtain ⟨hn1, -, hn2⟩ := hsubnodup
    -- `e` is strictly below some directory of the old worklist
    have hebelow : e.ino ∉ s.visited ∧ e ∈ t.dirs := by
      rcases List.mem_append.mp hw with hw | hw
      · have hin : e ∈ dirsBelow d.ino d.subdirs := by
          rw [dirsBelow_eq]
          exact List.mem_flatMap.mpr ⟨w, hw, List.mem_cons_of_mem w he⟩
        exact ⟨h.unseen d List.mem_cons_self e hin,
          h.mem_dirs List.mem_cons_self e (List.mem_cons_of_mem d hin)⟩
      · exact ⟨h.unseen w (List.mem_cons_of_mem d hw) e he,
          h.mem_dirs (List.mem_cons_of_mem d hw) e (List.mem_cons_of_mem w he)⟩
    rcases (hvis e.ino).mp hv with hv | hv | hv
    · exact hebelow.1 hv
    · refine t.disjoint _ (t.mem_files hdt ((mem_filesBelow d.ino).mpr (.inl hv))) ?_
      exact List.mem_map_of_mem hebelow.2
    · -- a subdirectory of `d` with the name of `e`
      obtain ⟨c, hc, hce⟩ := List.mem_map.mp hv
      rcases List.mem_append.mp hw with hw | hw
      · rw [List.map_flatMap, List.nodup_flatMap] at hn1
        by_cases hcw : c = w
        · have hone := hn1.1 w hw
          rw [Dir.dirs, List.map_cons, List.nodup_cons] at hone
          rw [← hcw, hce] at hone
          exact hone.1 (List.mem_map_of_mem (by rw [← hce, hcw]; exact he))
        · have : Std.Symm (Function.onFun List.Disjoint fun a : Dir => a.dirs.map Dir.ino) :=
            ⟨fun _ _ hab x hx hy => hab hy hx⟩
          have hdisj : List.Disjoint (c.dirs.map Dir.ino) (w.dirs.map Dir.ino) :=
            hn1.2.forall hc hw hcw
          have hcin : e.ino ∈ c.dirs.map Dir.ino := by
            rw [← hce]
            exact List.mem_map_of_mem List.mem_cons_self
          exact hdisj hcin (List.mem_map_of_mem (List.mem_cons_of_mem w he))
      · refine hn2 c.ino ?_ e.ino ?_ hce
        · exact List.mem_map_of_mem (List.mem_flatMap.mpr ⟨c, hc, List.mem_cons_self⟩)
        · exact List.mem_map_of_mem (List.mem_flatMap.mpr ⟨w, hw, List.mem_cons_of_mem w he⟩)
  · intro x hx
    rcases h.files x hx with hv | ⟨w, hw, hxw⟩
    · exact .inl (hold x hv)
    · rcases List.mem_cons.mp hw with rfl | hw
      · rcases (mem_filesBelow w.ino).mp hxw with hxf | ⟨e, he, hxe⟩
        · exact .inl ((hvis x).mpr (.inr (.inl hxf)))
        · exact .inr ⟨e, List.mem_append_left _ he, hxe⟩
      · exact .inr ⟨w, List.mem_append_right _ hw, hxw⟩
  · intro x hx hv
    by_cases hxs : x ∈ s.visited
    · exact (h.handledFiles x hx hxs).suffix hsuf
    · rcases (hvis x).mp hv with hv | hv | hv
      · exact absurd hv hxs
      · exact (hfiles x hv hxs).suffix (suffix_push _ _)
      · obtain ⟨e, he, rfl⟩ := List.mem_map.mp hv
        refine absurd (List.mem_map_of_mem ?_) (t.disjoint _ hx)
        refine h.mem_dirs List.mem_cons_self e ?_
        rw [Dir.dirs_eq]
        exact List.mem_cons_of_mem d (List.mem_flatMap.mpr ⟨e, he, List.mem_cons_self⟩)
  · intro e he hv
    by_cases hes : e.ino ∈ s.visited
    · exact (h.handledDirs e he hes).suffix hsuf
    · rcases (hvis e.ino).mp hv with hv | hv | hv
      · exact absurd hv hes
      · exact absurd (List.mem_map_of_mem he) (t.disjoint _
          (t.mem_files hdt ((mem_filesBelow d.ino).mpr (.inl hv))))
      · obtain ⟨c, hc, hce⟩ := List.mem_map.mp hv
        rw [← hce]
        exact (hdirs c hc).suffix (suffix_push _ _)

/-- A walk that meets no error covers the whole tree and returns 0. -/
theorem dumpLoop_covers {work : List Dir} (h : Walk t go env work s)
    (hclean : Clean (dumpLoop go env work s).1.log) :
    Walk t go env [] (dumpLoop go env work s).1 ∧ (dumpLoop go env work s).2 = 0 := by
  fun_induction dumpLoop go env work s with
  | case1 s => exact ⟨h, rfl⟩
  | case2 s dir rest r err s' herr => exact absurd (hclean _ List.mem_cons_self) herr
  | case3 s dir rest r err s' herr ih =>
    refine ih (h.step ?_ err) hclean
    exact hclean.suffix ((suffix_push _ _).trans (suffix_dumpLoop _ _))

variable (t go env) in
def afterRoot : DumpState :=
  let r := handleOne go env t.root.ino true (loadDir env t.root) (dumpInit env t.root)
  if env.incremental then r.1 else r.1.push .flush

theorem dumpTree_eq :
    dumpTree go env t.root =
      if handleRet go env t.root.ino true ≠ 0 then
        handleOne go env t.root.ino true (loadDir env t.root) (dumpInit env t.root)
      else dumpLoop go env [t.root] (afterRoot go env t) := by
  rw [dumpTree]
  simp only [(handleOne_spec go env t.root.ino true (loadDir env t.root) (dumpInit env t.root)).1]
  rfl

theorem walk_afterRoot (hret : handleRet go env t.root.ino true = 0) :
    Walk t go env [t.root] (afterRoot go env t) := by
  obtain ⟨-, hvis, -, -⟩ :=
    handleOne_spec go env t.root.ino true (loadDir env t.root) (dumpInit env t.root)
  have hdone := handleOne_handled t.root.ino true (loadDir env t.root) (dumpInit env t.root) hret
  have hbh := bhDirs_handleOne go env t.root.ino true (dumpInit env t.root)
    (bhDirs_loadDir env t.root)
  have hbh0 : bhDirs (dumpInit env t.root).log = [] := by
    have hmap : ∀ l : List Dir, bhDirs (l.map .load) = [] := by
      intro l
      induction l with
      | nil => rfl
      | cons d l ih => exact ih
    rw [dumpInit]
    split_ifs
    · exact hmap t.root.dirs
    · rfl
  -- whether the root waits for its job or not changes nothing here
  have hflush : (afterRoot go env t).visited = [t.root.ino] ∧
      bhDirs (afterRoot go env t).log = [] ∧
      Handled go env (afterRoot go env t).log t.root.ino true := by
    rw [afterRoot]
    split_ifs
    · exact ⟨hvis, hbh.trans hbh0, hdone⟩
    · exact ⟨hvis, hbh.trans hbh0, hdone.suffix (suffix_push _ _)⟩
  obtain ⟨hvis, hbh, hdone⟩ := hflush
  constructor
  · simp [hbh, SourceTree.dirs]
  · rw [hbh, hvis]
    simp
  · intro w hw e he hv
    rw [List.mem_singleton.mp hw] at he
    rw [hvis, List.mem_singleton] at hv
    have hnd := t.nodup
    rw [Dir.dirs, List.map_cons, List.nodup_cons] at hnd
    have hin := List.mem_map_of_mem (f := Dir.ino) he
    rw [hv] at hin
    exact hnd.1 hin
  · exact fun x hx => .inr ⟨t.root, List.mem_singleton_self _, hx⟩
  · intro x hx hv
    rw [hvis, List.mem_singleton] at hv
    exact absurd (hv ▸ List.mem_map_of_mem List.mem_cons_self) (t.disjoint x hx)
  · intro e _ hv
    rw [hvis, List.mem_singleton] at hv
    rw [hv]
    exact hdone

/-- A dump without errors covers the whole tree and returns 0. -/
theorem dumpTree_covers (hclean : Clean (dumpTree go env t.root).1.log) :
    Walk t go env [] (dumpTree go env t.root).1 ∧ (dumpTree go env t.root).2 = 0 := by
  have hin := (handleOne_spec go env t.root.ino true (loadDir env t.root)
    (dumpInit env t.root)).2.2.2
  rw [dumpTree_eq] at hclean ⊢
  split_ifs at hclean ⊢ with hret
  · exact absurd (hclean _ hin) hret
  · exact dumpLoop_covers (walk_afterRoot (not_not.mp hret)) hclean

end Dump

end ErofsUtils
