import ErofsUtils.DirImage
import ErofsUtils.DirSorted
import ErofsUtils.Namei
import Mathlib.Data.List.Nodup

/-!
# Directories are read back

`erofs_prepare_dir_file` sorts the dentries of a directory and adds up its size, and
`erofs_write_dir_file` lays them out. A checking iteration over what was written goes through and
hands out every dentry in its order, and a lookup finds each name and no other.
-/

namespace ErofsUtils
open ByteMemory CString

/-- `comp_subdir`: `strcmp` of names without a NUL. -/
def compSubdir (a b : DirDentry) : Bool := a.name ≤ b.name

/-- `erofs_prepare_dir_file`: the dentries as `qsort` leaves them, and `i_size`. -/
def erofsPrepareDirFile (bsz : ℕ) (ds : List DirDentry) : List DirDentry × ℕ :=
  let sorted := ds.mergeSort compSubdir
  (sorted, dirFileSize bsz sorted 0)

/-- The bytes of a directory: its blocks and the tail behind them. -/
def DirFile.content (f : DirFile) : List UInt8 := f.blocks.flatten ++ f.idata

section Names

variable {mem : Mem}

/-- Names without a NUL that are in order pass the check of their order. -/
theorem strncmp_of_lt {p q np nq : ℕ} (hlt : slice mem p np < slice mem q nq)
    (h0 : 0 ∉ slice mem p np) :
    strncmp mem p q (min np nq) < 0 ∨ strncmp mem p q (min np nq) = 0 ∧ np < nq := by
  induction np generalizing p q nq with
  | zero =>
      cases nq with
      | zero => exact absurd hlt (List.not_lt_nil _)
      | succ nq => exact Or.inr ⟨rfl, Nat.succ_pos nq⟩
  | succ np ih =>
      cases nq with
      | zero => exact absurd hlt (List.not_lt_nil _)
      | succ nq =>
          rw [slice, List.mem_cons, not_or] at h0
          rw [slice, slice, List.cons_lt_cons_iff] at hlt
          rw [Nat.succ_min_succ, strncmp]
          rcases hlt with hlt | ⟨heq, hlt⟩
          · have hne : mem p ≠ mem q := UInt8.ne_of_lt hlt
            rw [if_pos hne]
            rw [UInt8.lt_iff_toNat_lt] at hlt
            exact Or.inl (by omega)
          · rw [if_neg (not_not.mpr heq), if_neg (Ne.symm h0.1)]
            rcases ih hlt h0.2 with hneg | ⟨hzero, hlen⟩
            · exact Or.inl hneg
            · exact Or.inr ⟨hzero, Nat.succ_lt_succ hlen⟩

end Names

section Turn

variable {σ : Type*} {sbi : DirSb} {dir : DirInode} {mem : Mem} {stop maxsize k next : ℕ}
  {prev : Option (ℕ × ℕ)} {w : DirWalk σ}

theorem direntTurn_checked (h : Dirent.Placed mem stop maxsize next k)
    (hpass : FsckPassed sbi dir mem stop maxsize k prev w.marks)
    (htype : Dirent.fileType mem k < erofsFtMax) :
    ∃ w', direntTurn sbi dir true mem stop maxsize k next prev w =
      (.ok (visitAt mem stop maxsize k), w') := by
  have hoff : ¬ Dirent.nameoff mem k ≠ next := not_not.mpr h.1
  unfold direntTurn
  dsimp only
  rw [if_neg hoff, if_neg h.not_fault, if_neg (by rw [hpass.order]; simp), if_neg (by simp; omega)]
  by_cases hdot : isDotDotdotLen mem (Dirent.nameoff mem k) (Dirent.namelen mem stop maxsize k) =
      true
  · rw [if_pos hdot]
    have hmark := hpass.special hdot
    split
    · next e marks hm =>
        have hm' := congrArg Prod.fst hm
        simp only [look_marks, if_true] at hm'
        rw [hmark] at hm'
        cases hm'
    · exact ⟨_, rfl⟩
  · rw [if_neg hdot]
    have hname := hpass.filename (Bool.eq_false_iff.mpr hdot)
    rw [if_neg (by rw [hname]; simp)]
    exact ⟨_, rfl⟩

end Turn

def DirDentry.entry (d : DirDentry) : ℕ × ℕ × FileName := (d.nid, d.type, d.name)

def DirVisit.entry (v : DirVisit) : ℕ × ℕ × FileName := (v.nid, v.ftype, v.dname)

/-- What the fields of the dentries have room for, and what `.` and `..` point to. -/
structure DentriesOk (sbi : DirSb) (dir : DirInode) (marks : DirMarks) (ds : List DirDentry) :
    Prop where
  slash : ∀ d ∈ ds, 47 ∉ d.name
  nid : ∀ d ∈ ds, d.nid < 2 ^ 64
  type : ∀ d ∈ ds, d.type < erofsFtMax
  dot : ∀ d ∈ ds, d.name = [46] → d.nid = dir.nid
  dotdot : ∀ d ∈ ds, d.name = [46, 46] → sbi.rootNid = dir.nid → d.nid = sbi.rootNid
  parent : ∀ d ∈ ds, d.name = [46, 46] → sbi.rootNid ≠ dir.nid → marks.validPnid = true →
    d.nid = marks.pnid

theorem DentriesOk.sublist {sbi : DirSb} {dir : DirInode} {marks : DirMarks}
    {ds bs : List DirDentry} (h : DentriesOk sbi dir marks ds) (hsub : ∀ d ∈ bs, d ∈ ds) :
    DentriesOk sbi dir marks bs :=
  ⟨fun d hd => h.slash d (hsub d hd), fun d hd => h.nid d (hsub d hd),
    fun d hd => h.type d (hsub d hd), fun d hd => h.dot d (hsub d hd),
    fun d hd => h.dotdot d (hsub d hd), fun d hd => h.parent d (hsub d hd)⟩

section Block

variable {sbi : DirSb} {dir : DirInode} {mem : Mem} {size k : ℕ} {ds : List DirDentry}
  {d : DirDentry}

theorem visitAt_held (h : DirBlockHeld mem size ds) (hfit : dirUsed ds ≤ size)
    (hsize : size ≤ 2 ^ 16) (hi : ds[k]? = some d) (hnid : d.nid < 2 ^ 64)
    (htype : d.type < erofsFtMax) : (visitAt mem (12 * ds.length) size k).entry = d.entry := by
  rw [DirVisit.entry, visitAt, DirDentry.entry]
  simp only [h.nid hi, h.fileType hi, h.dname hfit hsize hi]
  rw [Nat.mod_eq_of_lt hnid, Nat.mod_eq_of_lt (by unfold erofsFtMax at htype; omega)]

theorem placed_held (h : DirBlockHeld mem size ds) (hfit : dirUsed ds ≤ size)
    (hsize : size ≤ 2 ^ 16) (hi : ds[k]? = some d) :
    Dirent.Placed mem (12 * ds.length) size (nameoffOf ds k) k := by
  have hlen := h.namelen hfit hsize hi
  have hle := nameoffOf_add_le hi
  have hpos := d.length_name_pos
  have hlt := d.name_lt
  refine ⟨h.nameoff hfit hsize hi, ⟨?_, ?_⟩, ?_⟩
  · rw [h.nameoff hfit hsize hi, hlen, Nat.mod_eq_of_lt (by omega)]
    omega
  · rw [hlen]
    omega
  · rw [hlen]
    omega

theorem blockEntries_held (h : DirBlockHeld mem size ds) (hfit : dirUsed ds ≤ size)
    (hsize : size ≤ 2 ^ 16) (hnid : ∀ d ∈ ds, d.nid < 2 ^ 64)
    (htype : ∀ d ∈ ds, d.type < erofsFtMax) (fuel : ℕ) (hfuel : ds.length ≤ k + fuel) :
    ∃ vs, blockEntries mem (12 * ds.length) size fuel k (nameoffOf ds k) = (vs, true) ∧
      vs.map DirVisit.entry = (ds.drop k).map DirDentry.entry := by
  induction fuel generalizing k with
  | zero =>
      refine ⟨[], rfl, ?_⟩
      rw [List.drop_eq_nil_of_le (by omega)]
      rfl
  | succ fuel ih =>
      rw [blockEntries]
      rcases Nat.lt_or_ge k ds.length with hk | hk
      · have hi := List.getElem?_eq_getElem hk
        have hmem : ds[k] ∈ ds := List.getElem_mem hk
        obtain ⟨vs, hrest, hvs⟩ := ih (k := k + 1) (by omega)
        rw [nameoffOf_succ hi, ← h.namelen hfit hsize hi] at hrest
        rw [if_neg (by omega), if_pos (placed_held h hfit hsize hi), hrest]
        refine ⟨_, rfl, ?_⟩
        rw [List.map_cons, hvs, visitAt_held h hfit hsize hi (hnid _ hmem) (htype _ hmem),
          List.drop_eq_getElem_cons hk, List.map_cons]
      · rw [if_pos (by omega)]
        refine ⟨[], rfl, ?_⟩
        rw [List.drop_eq_nil_of_le hk]
        rfl

end Block

/-- A checking walk has handed out the dentries of `done`; `marks` are those it began with. -/
structure HandedOut {σ : Type*} (marks : DirMarks) (done : List DirDentry) (w : DirWalk σ) :
    Prop where
  delivered : w.delivered.map (fun p => p.2.entry) = done.map DirDentry.entry
  dot : w.marks.dotFound = true ↔ [46] ∈ done.map DirDentry.name
  dotdot : w.marks.dotdotFound = true ↔ [46, 46] ∈ done.map DirDentry.name
  kept : w.marks.dotdotFound = false →
    w.marks.validPnid = marks.validPnid ∧ w.marks.pnid = marks.pnid

section Check

variable {σ : Type*} {sbi : DirSb} {dir : DirInode} {mem : Mem} {size k : ℕ}
  {marks : DirMarks} {ds done : List DirDentry} {d : DirDentry} {w : DirWalk σ}

theorem markSpecial_dot {c : DirMarks} (hfound : c.dotFound = false) :
    markSpecial sbi dir true dir.nid 1 c = (none, { c with dotFound := true }) := by
  rw [markSpecial, if_neg (by omega), if_pos rfl, hfound]
  simp

theorem markSpecial_dotdot {nid : ℕ} {c : DirMarks} (hfound : c.dotdotFound = false)
    (hroot : sbi.rootNid = dir.nid → nid = sbi.rootNid)
    (hparent : sbi.rootNid ≠ dir.nid → c.validPnid = true → nid = c.pnid) :
    (markSpecial sbi dir true nid 2 c).1 = none ∧
      (markSpecial sbi dir true nid 2 c).2.dotdotFound = true ∧
      (markSpecial sbi dir true nid 2 c).2.dotFound = c.dotFound := by
  have hnone : (markSpecial sbi dir true nid 2 c).1 = none := by
    rw [markSpecial, if_pos rfl, hfound]
    by_cases hnid : sbi.rootNid = dir.nid
    · simp [hnid, hroot hnid]
    · cases hv : c.validPnid with
      | false => simp [hnid]
      | true => simp [hnid, hparent hnid hv]
  exact ⟨hnone, (markSpecial_two hnone).2⟩

/-- The checks pass for the next dentry of a sorted directory. -/
theorem fsckPassed_held (h : DirBlockHeld mem size ds) (hfit : dirUsed ds ≤ size)
    (hsize : size ≤ 2 ^ 16) (hi : ds[k]? = some d) (hw : HandedOut marks done w)
    (hok : DentriesOk sbi dir marks ds) (hnew : d.name ∉ done.map DirDentry.name)
    (horder : ∀ e, k ≠ 0 → ds[k - 1]? = some e → e.name < d.name) :
    FsckPassed sbi dir mem (12 * ds.length) size k (prevAt mem (12 * ds.length) size k)
      w.marks := by
  have hmem := List.mem_of_getElem? hi
  have hname := h.dname hfit hsize hi
  have hlen := h.namelen hfit hsize hi
  have hnid := h.nid hi
  rw [Nat.mod_eq_of_lt (hok.nid d hmem)] at hnid
  constructor
  · cases k with
    | zero => rfl
    | succ k =>
        obtain ⟨e, he⟩ : ∃ e, ds[k]? = some e :=
          ⟨_, List.getElem?_eq_getElem (by
            have := (List.getElem?_eq_some_iff.mp hi).1
            omega)⟩
        have hlt := horder e (Nat.succ_ne_zero k) he
        have hename := h.dname hfit hsize he
        have hcmp := @strncmp_of_lt mem (Dirent.nameoff mem k) (Dirent.nameoff mem (k + 1))
          (Dirent.namelen mem (12 * ds.length) size k)
          (Dirent.namelen mem (12 * ds.length) size (k + 1))
          (by
            change Dirent.dname _ _ _ _ < Dirent.dname _ _ _ _
            rw [hename, hname]
            exact hlt)
          (by
            change 0 ∉ Dirent.dname _ _ _ _
            rw [hename]
            exact e.zero_notMem)
        rw [prevAt, checkOrder, Bool.not_eq_true', Bool.or_eq_false_iff, Bool.and_eq_false_iff]
        simp only [decide_eq_false_iff_not]
        rcases hcmp with hneg | ⟨hzero, hlt⟩
        · exact ⟨by omega, Or.inl (by omega)⟩
        · exact ⟨by omega, Or.inr (by omega)⟩
  · intro hdot
    rcases isDotDotdotLen_iff.mp hdot with hone | htwo
    · change Dirent.dname _ _ _ _ = _ at hone
      rw [hname] at hone
      rw [hlen, hone, hnid, hok.dot d hmem hone]
      have hfound : w.marks.dotFound = false := by
        rw [Bool.eq_false_iff, Ne, hw.dot, ← hone]
        exact hnew
      exact congrArg Prod.fst (markSpecial_dot hfound)
    · change Dirent.dname _ _ _ _ = _ at htwo
      rw [hname] at htwo
      rw [hlen, htwo, hnid]
      have hfound : w.marks.dotdotFound = false := by
        rw [Bool.eq_false_iff, Ne, hw.dotdot, ← htwo]
        exact hnew
      obtain ⟨hvalid, hpnid⟩ := hw.kept hfound
      refine (markSpecial_dotdot hfound (hok.dotdot d hmem htwo) ?_).1
      intro hroot hv
      rw [hpnid]
      exact hok.parent d hmem htwo hroot (hvalid ▸ hv)
  · intro _
    rw [erofsValidateFilename_iff]
    change 47 ∉ (Dirent.dname _ _ _ _).takeWhile _
    rw [hname]
    intro hslash
    exact hok.slash d hmem ((List.takeWhile_sublist _).mem hslash)

theorem HandedOut.turn (h : DirBlockHeld mem size ds) (hfit : dirUsed ds ≤ size)
    (hsize : size ≤ 2 ^ 16) (hi : ds[k]? = some d) (hw : HandedOut marks done w)
    (hok : DentriesOk sbi dir marks ds)
    (hpass : FsckPassed sbi dir mem (12 * ds.length) size k (prevAt mem (12 * ds.length) size k)
      w.marks) {w' : DirWalk σ}
    (hmarks : w'.marks = marksAt sbi dir true mem (12 * ds.length) size k w.marks)
    (hdel : w'.delivered = w.delivered ++ [(size, visitAt mem (12 * ds.length) size k)]) :
    HandedOut marks (done ++ [d]) w' := by
  have hmem := List.mem_of_getElem? hi
  have hname := h.dname hfit hsize hi
  have hlen := h.namelen hfit hsize hi
  have hnid := h.nid hi
  rw [Nat.mod_eq_of_lt (hok.nid d hmem)] at hnid
  have hentry := visitAt_held h hfit hsize hi (hok.nid d hmem) (hok.type d hmem)
  have hdelivered : w'.delivered.map (fun p => p.2.entry) =
      (done ++ [d]).map DirDentry.entry := by
    rw [hdel, List.map_append, hw.delivered, List.map_append, List.map_singleton,
      List.map_singleton, hentry]
  rw [marksAt] at hmarks
  by_cases hdot : (visitAt mem (12 * ds.length) size k).dotDotdot = true
  · have hmark := hpass.special hdot
    rw [if_pos hdot] at hmarks
    rw [hlen, hnid] at hmark hmarks
    rcases isDotDotdotLen_iff.mp hdot with hone | htwo
    · change Dirent.dname _ _ _ _ = _ at hone
      rw [hname] at hone
      rw [hone, hok.dot d hmem hone] at hmark hmarks
      obtain ⟨hfound, -⟩ := markSpecial_one hmark
      change w'.marks = (markSpecial sbi dir true dir.nid 1 w.marks).2 at hmarks
      rw [markSpecial_dot hfound] at hmarks
      refine ⟨hdelivered, ?_, ?_, ?_⟩
      · rw [hmarks, List.map_append, List.map_singleton, hone]
        simp
      · rw [hmarks, List.map_append, List.map_singleton, hone]
        simpa using hw.dotdot
      · rw [hmarks]
        exact hw.kept
    · change Dirent.dname _ _ _ _ = _ at htwo
      rw [hname] at htwo
      rw [htwo] at hmark hmarks
      obtain ⟨-, hset, hsame⟩ := markSpecial_two hmark
      change w'.marks = (markSpecial sbi dir true d.nid 2 w.marks).2 at hmarks
      refine ⟨hdelivered, ?_, ?_, ?_⟩
      · rw [hmarks, hsame, List.map_append, List.map_singleton, htwo]
        simpa using hw.dot
      · rw [hmarks, hset, List.map_append, List.map_singleton, htwo]
        simp
      · rw [hmarks, hset]
        intro hfalse
        cases hfalse
  · rw [if_neg hdot] at hmarks
    have hno := not_or.mp fun hs => hdot (isDotDotdotLen_iff.mpr hs)
    change Dirent.dname _ _ _ _ ≠ _ ∧ Dirent.dname _ _ _ _ ≠ _ at hno
    rw [hname] at hno
    refine ⟨hdelivered, ?_, ?_, ?_⟩
    · rw [hmarks, hw.dot, List.map_append, List.map_singleton, List.mem_append,
        List.mem_singleton]
      exact ⟨Or.inl, fun hor => hor.resolve_right (Ne.symm hno.1)⟩
    · rw [hmarks, hw.dotdot, List.map_append, List.map_singleton, List.mem_append,
        List.mem_singleton]
      exact ⟨Or.inl, fun hor => hor.resolve_right (Ne.symm hno.2)⟩
    · rw [hmarks]
      exact hw.kept

variable {cb : DirVisit → σ → Option (ℤ × σ)} {before : List DirDentry}

theorem traverseLoop_held (h : DirBlockHeld mem size ds) (hfit : dirUsed ds ≤ size)
    (hsize : size ≤ 2 ^ 16) (hok : DentriesOk sbi dir marks ds)
    (hsorted : ((before ++ ds).map DirDentry.name).Pairwise (· < ·))
    (hcb : ∀ v st, ∃ st', cb v st = some (0, st')) (fuel : ℕ) (hfuel : ds.length ≤ k + fuel)
    (hk : k ≤ ds.length) (hw : HandedOut marks (before ++ ds.take k) w) :
    ∃ w', traverseLoop sbi dir true cb mem (12 * ds.length) size fuel k (nameoffOf ds k)
        (prevAt mem (12 * ds.length) size k) w = some (.done, w') ∧
      HandedOut marks (before ++ ds) w' := by
  induction fuel generalizing k w with
  | zero =>
      rw [List.take_of_length_le (by omega)] at hw
      exact ⟨w, rfl, hw⟩
  | succ fuel ih =>
      rw [traverseLoop]
      rcases Nat.eq_or_lt_of_le hk with hend | hlt
      · rw [List.take_of_length_le hend.ge] at hw
        rw [if_pos (by omega)]
        exact ⟨w, rfl, hw⟩
      · have hi := List.getElem?_eq_getElem hlt
        have hnames : (before ++ ds).map DirDentry.name =
            (before ++ ds.take k).map DirDentry.name ++ ds[k].name ::
              (ds.drop (k + 1)).map DirDentry.name := by
          rw [← List.map_cons, ← List.drop_eq_getElem_cons hlt, ← List.map_append,
            List.append_assoc, List.take_append_drop]
        rw [hnames, List.pairwise_append] at hsorted
        obtain ⟨hfront, -, hacross⟩ := hsorted
        have hpass : FsckPassed sbi dir mem (12 * ds.length) size k
            (prevAt mem (12 * ds.length) size k) w.marks := by
          refine fsckPassed_held h hfit hsize hi hw hok ?_ ?_
          · intro hmem
            exact List.lt_irrefl _ (hacross _ hmem _ List.mem_cons_self)
          · intro e hne he
            refine hacross _ ?_ _ List.mem_cons_self
            refine List.mem_map_of_mem (List.mem_append_right _ ?_)
            rw [List.mem_iff_getElem?]
            exact ⟨k - 1, by rw [List.getElem?_take_of_lt (by omega)]; exact he⟩
        have htype : Dirent.fileType mem k < erofsFtMax := by
          have ht := hok.type _ (List.mem_of_getElem? hi)
          rw [h.fileType hi, Nat.mod_eq_of_lt (by unfold erofsFtMax at ht; omega)]
          exact ht
        obtain ⟨w₁, hturn⟩ := direntTurn_checked (placed_held h hfit hsize hi) hpass htype
        have hturnOk := direntTurn_ok hturn
        obtain ⟨st', hret⟩ := hcb (visitAt mem (12 * ds.length) size k) w₁.st
        have hdeliver : deliver cb size (visitAt mem (12 * ds.length) size k) w₁ = some (0,
            { w₁ with
              st := st'
              delivered := w₁.delivered ++ [(size, visitAt mem (12 * ds.length) size k)] }) := by
          rw [deliver, hret]
        have hw' : HandedOut marks (before ++ ds.take k ++ [ds[k]]) { w₁ with
            st := st'
            delivered := w₁.delivered ++ [(size, visitAt mem (12 * ds.length) size k)] } :=
          HandedOut.turn h hfit hsize hi hw hok hpass hturnOk.marks (by rw [← hturnOk.delivered])
        rw [List.append_assoc, List.take_append_getElem hlt] at hw'
        obtain ⟨w₂, hrest, hw₂⟩ := ih (k := k + 1) (by omega) hlt hw'
        refine ⟨w₂, ?_, hw₂⟩
        rw [if_neg (by omega), hturn]
        simp only [hdeliver, ne_eq, not_true_eq_false, if_false]
        rw [hturnOk.next_eq, h.namelen hfit hsize hi, ← nameoffOf_succ hi]
        rw [prevAt, h.namelen hfit hsize hi] at hrest
        exact hrest

end Check

section Content

variable {bsz : ℕ} {ds : List DirDentry}

theorem getElem?_flatten_blocks {blocks : List (List UInt8)} (hlen : ∀ b ∈ blocks, b.length = bsz)
    {i k : ℕ} {b : List UInt8} (hi : blocks[i]? = some b) (hk : k < bsz) :
    blocks.flatten[i * bsz + k]? = b[k]? := by
  induction blocks generalizing i with
  | nil => cases hi
  | cons a blocks ih =>
      have ha := hlen a List.mem_cons_self
      rw [List.flatten_cons]
      cases i with
      | zero =>
          rw [List.getElem?_cons_zero, Option.some.injEq] at hi
          subst hi
          rw [Nat.zero_mul, Nat.zero_add, List.getElem?_append_left (by omega)]
      | succ i =>
          rw [List.getElem?_cons_succ] at hi
          rw [Nat.succ_mul, List.getElem?_append_right (by omega), ha,
            ← ih (fun c hc => hlen c (List.mem_cons_of_mem a hc)) hi]
          congr 1
          omega

theorem length_flatten_blocks {blocks : List (List UInt8)}
    (hlen : ∀ b ∈ blocks, b.length = bsz) : blocks.flatten.length = blocks.length * bsz := by
  induction blocks with
  | nil => rw [List.flatten_nil, List.length_nil, List.length_nil, Nat.zero_mul]
  | cons a blocks ih =>
      rw [List.flatten_cons, List.length_append, hlen a List.mem_cons_self,
        ih fun c hc => hlen c (List.mem_cons_of_mem a hc), List.length_cons, Nat.succ_mul,
        Nat.add_comm]

/-- The blocks are whole, and with the tail they are as many bytes as were counted. -/
theorem erofsWriteDirFile_lengths (heap : Mem) (hbsz : 0 < bsz) (hlen : ∀ d ∈ ds, d.len ≤ bsz) :
    (∀ b ∈ (erofsWriteDirFile heap bsz ds).blocks, b.length = bsz) ∧
      (erofsWriteDirFile heap bsz ds).blocks.length = dirBytes bsz ds / bsz ∧
      (erofsWriteDirFile heap bsz ds).content.length = dirBytes bsz ds := by
  obtain ⟨written, head, hloop, hp, -⟩ := dirBlocks_packed hlen
  have hle : dirUsed head ≤ bsz := hp.fits head List.mem_cons_self
  have hbytes : dirBytes bsz ds = written.length * bsz + dirUsed head := by
    rw [dirBytes, hloop]
  have hblock : ∀ (l : List (List DirDentry)), ∀ b ∈ l.map fun bs =>
      fillDirblock heap bsz (12 * bs.length) bs, b.length = bsz := by
    intro l b hb
    obtain ⟨bs, -, rfl⟩ := List.mem_map.mp hb
    exact length_slice _ _
  rw [DirFile.content, erofsWriteDirFile, hloop, hbytes]
  dsimp only
  by_cases hfull : dirUsed head = bsz
  · rw [if_pos hfull]
    refine ⟨hblock _, ?_, ?_⟩
    · rw [List.length_map, List.length_append, List.length_singleton, hfull, ← Nat.succ_mul,
        Nat.mul_div_cancel _ hbsz]
    · rw [List.append_nil, length_flatten_blocks (hblock _), List.length_map, List.length_append,
        List.length_singleton, hfull, Nat.succ_mul]
  · rw [if_neg hfull]
    refine ⟨hblock _, ?_, ?_⟩
    · rw [List.length_map, Nat.add_comm, Nat.add_mul_div_right _ _ hbsz,
        Nat.div_eq_of_lt (by omega), Nat.zero_add]
    · rw [List.length_append, length_flatten_blocks (hblock _), List.length_map]
      split_ifs with hne
      · rw [fillDirblock, length_slice]
      · rw [List.length_nil]
        omega

theorem BlockWritten.content {heap : Mem} {i size : ℕ} {bs : List DirDentry} (hbsz : 0 < bsz)
    (hlen : ∀ d ∈ ds, d.len ≤ bsz) (h : BlockWritten heap bsz i ds bs size) {k : ℕ}
    (hk : k < size) :
    (erofsWriteDirFile heap bsz ds).content[i * bsz + k]? =
      (fillDirblock heap size (12 * bs.length) bs)[k]? := by
  obtain ⟨hblocks, hcount, -⟩ := erofsWriteDirFile_lengths heap hbsz hlen
  have hsize := h.size_eq
  rw [DirFile.content]
  by_cases hfull : i < dirBytes bsz ds / bsz
  · have hi := h.full hfull
    have hmul : (i + 1) * bsz ≤ (erofsWriteDirFile heap bsz ds).blocks.length * bsz :=
      Nat.mul_le_mul_right _ (by omega)
    rw [Nat.succ_mul] at hmul
    rw [List.getElem?_append_left (by rw [length_flatten_blocks hblocks]; omega),
      getElem?_flatten_blocks hblocks hi (by omega)]
  · obtain ⟨rfl, hdata⟩ := h.tail hfull
    rw [List.getElem?_append_right (by rw [length_flatten_blocks hblocks, hcount]; omega),
      length_flatten_blocks hblocks, hcount, Nat.add_sub_cancel_left, hdata]

end Content

/-- A directory inode whose bytes are what `erofs_write_dir_file` makes of the dentries; `heap` is
what its buffers held. -/
structure StoredDir (sbi : DirSb) (dir : DirInode) (heap : Mem) (ds : List DirDentry) : Prop where
  isDir : dir.isDir = true
  size : dir.iSize = dirBytes sbi.blksz ds
  read : ∀ n pos, pos + n ≤ dir.iSize → ∃ bytes, dir.pread n pos = .ok bytes ∧
    ∀ k < n, (erofsWriteDirFile heap sbi.blksz ds).content[pos + k]? = some (bytes k)

structure StoredBlock (sbi : DirSb) (dir : DirInode) (buf : Mem) (ds : List DirDentry) (i : ℕ)
    (bs : List DirDentry) : Prop where
  block : (dirBlocks sbi.blksz ds)[i]? = some bs
  readable : DirReadable sbi dir i
  held : DirBlockHeld (dirBlock sbi dir buf i) (dirBlockSize sbi dir i) bs
  fits : dirUsed bs ≤ dirBlockSize sbi dir i
  size : dirBlockSize sbi dir i ≤ 2 ^ 16
  ne : bs ≠ []

section Stored

variable {sbi : DirSb} {dir : DirInode} {heap buf : Mem} {ds bs : List DirDentry} {i : ℕ}

theorem StoredBlock.stop_eq (h : StoredBlock sbi dir buf ds i bs) :
    dirStop sbi dir buf i = 12 * bs.length := by
  obtain ⟨d, rest, rfl⟩ := List.exists_cons_of_ne_nil h.ne
  exact h.held.nameoff h.fits h.size (i := 0) rfl

theorem StoredBlock.stopOk (h : StoredBlock sbi dir buf ds i bs) : DirStopOk sbi dir buf i := by
  have hused := dirUsed_eq bs
  have hfits := h.fits
  have hle : dirBlockSize sbi dir i ≤ sbi.blksz := dirBlockSize_le i
  have hstop := h.stop_eq
  obtain ⟨d, rest, rfl⟩ := List.exists_cons_of_ne_nil h.ne
  have hpos := d.length_name_pos
  rw [namesLen_cons] at hused
  rw [List.length_cons] at hused hstop
  exact ⟨by omega, by omega⟩

theorem StoredBlock.flatten_take (h : StoredBlock sbi dir buf ds i bs) :
    ((dirBlocks sbi.blksz ds).take (i + 1)).flatten =
      ((dirBlocks sbi.blksz ds).take i).flatten ++ bs := by
  obtain ⟨hlt, hbs⟩ := List.getElem?_eq_some_iff.mp h.block
  rw [List.take_succ_eq_append_getElem hlt, hbs, List.flatten_append, List.flatten_singleton]

theorem StoredBlock.flatten_drop (h : StoredBlock sbi dir buf ds i bs) :
    ((dirBlocks sbi.blksz ds).drop i).flatten =
      bs ++ ((dirBlocks sbi.blksz ds).drop (i + 1)).flatten := by
  obtain ⟨hlt, hbs⟩ := List.getElem?_eq_some_iff.mp h.block
  rw [List.drop_eq_getElem_cons hlt, hbs, List.flatten_cons]

variable (hlen : ∀ d ∈ ds, d.len ≤ sbi.blksz) (h : StoredDir sbi dir heap ds)

include hlen

theorem StoredBlock.mem (hb : StoredBlock sbi dir buf ds i bs) {d : DirDentry} (hd : d ∈ bs) :
    d ∈ ds := by
  rw [← flatten_dirBlocks hlen]
  exact List.mem_flatten_of_mem (List.mem_of_getElem? hb.block) hd

include h

theorem StoredDir.block (buf : Mem) (hi : i * sbi.blksz < dir.iSize) :
    ∃ bs, StoredBlock sbi dir buf ds i bs := by
  have hbsz := sbi.blksz_pos
  rw [h.size] at hi
  obtain ⟨bs, hbs⟩ := exists_dirBlock hlen hi
  obtain ⟨size, hw⟩ := blockWritten heap hbsz hlen hbs
  have hsize : dirBlockSize sbi dir i = size := by
    rw [dirBlockSize, h.size, hw.size_eq, Nat.min_comm]
  have hle : dirBlockSize sbi dir i ≤ sbi.blksz := dirBlockSize_le i
  obtain ⟨bytes, hread, hbytes⟩ := h.read (dirBlockSize sbi dir i) (i * sbi.blksz) (by
    rw [dirBlockSize, h.size]
    omega)
  refine ⟨bs, hbs, ⟨bytes, hread⟩, ?_, by rw [hsize]; exact hw.used_le,
    hle.trans sbi.blksz_le, hw.ne⟩
  refine @fillDirblock_held _ heap _ _ (by rw [hsize]; exact hw.used_le) ?_
  intro k b hk
  have hlt : k < dirBlockSize sbi dir i := by
    obtain ⟨hlt, -⟩ := List.getElem?_eq_some_iff.mp hk
    rwa [fillDirblock, length_slice] at hlt
  have hcontent := hw.content hbsz hlen (k := k) (by omega)
  rw [hsize] at hk
  rw [hk, hbytes k hlt, Option.some.injEq] at hcontent
  rw [← dirBlock_of_ok buf hread, fillBuf, Nat.zero_add, if_pos hlt, hcontent]

theorem StoredDir.length_le (hi : dir.iSize ≤ i * sbi.blksz) :
    (dirBlocks sbi.blksz ds).length ≤ i := by
  by_contra hlt
  obtain ⟨size, hw⟩ := blockWritten heap sbi.blksz_pos hlen
    (List.getElem?_eq_getElem (Nat.lt_of_not_le hlt))
  have hused := hw.used_le
  have hsize := hw.size_eq
  obtain ⟨d, rest, hds⟩ := List.exists_cons_of_ne_nil hw.ne
  rw [hds, dirUsed_eq, List.length_cons] at hused
  rw [h.size] at hi
  omega

theorem dirEntriesLoop_stored (hnid : ∀ d ∈ ds, d.nid < 2 ^ 64)
    (htype : ∀ d ∈ ds, d.type < erofsFtMax) (buf : Mem) (fuel : ℕ)
    (hfuel : dir.iSize ≤ i * sbi.blksz + fuel) :
    ∃ vs, dirEntriesLoop sbi dir fuel (i * sbi.blksz) (dirBufAt sbi dir buf i) = (vs, 0) ∧
      vs.map DirVisit.entry =
        ((dirBlocks sbi.blksz ds).drop i).flatten.map DirDentry.entry := by
  have hpast : dir.iSize ≤ i * sbi.blksz →
      ([] : List DirVisit).map DirVisit.entry =
        ((dirBlocks sbi.blksz ds).drop i).flatten.map DirDentry.entry := by
    intro hle
    rw [List.drop_eq_nil_of_le (h.length_le hlen hle)]
    rfl
  induction fuel generalizing i with
  | zero => exact ⟨[], rfl, hpast hfuel⟩
  | succ fuel ih =>
      rcases Nat.lt_or_ge (i * sbi.blksz) dir.iSize with hlt | hge
      · obtain ⟨bs, hb⟩ := h.block hlen buf hlt
        obtain ⟨bytes, hread⟩ := hb.readable
        have hbuf := dirBlock_of_ok buf hread
        have hstop := hb.stop_eq
        have hok := hb.stopOk
        rw [DirStopOk, dirStop] at hok
        rw [dirStop] at hstop
        obtain ⟨vs, hvs, hentry⟩ := blockEntries_held (k := 0) hb.held hb.fits hb.size
          (fun d hd => hnid d (hb.mem hlen hd)) (fun d hd => htype d (hb.mem hlen hd))
          (12 * bs.length) (by omega)
        have hbsz := sbi.blksz_pos
        obtain ⟨rest, hrest, htail⟩ := ih (i := i + 1) (by rw [Nat.succ_mul]; omega) (by
          intro hle
          rw [List.drop_eq_nil_of_le (h.length_le hlen hle)]
          rfl)
        have hnext : dirEntriesLoop sbi dir fuel (i * sbi.blksz + dirBlockSize sbi dir i)
            (dirBlock sbi dir buf i) = (rest, 0) := by
          rw [← hrest]
          rcases dirBlockSize_add hlt with heq | ⟨heq, hend⟩
          · rw [heq, dirBlock]
          · cases fuel with
            | zero => rfl
            | succ fuel =>
                rw [dirEntriesLoop, dirEntriesLoop, if_pos heq.ge, if_pos hend]
        refine ⟨vs ++ rest, ?_, ?_⟩
        · rw [dirEntriesLoop, if_neg (by omega)]
          dsimp only
          rw [← dirBlockSize, hread]
          dsimp only
          rw [hbuf, if_neg (by omega), hstop]
          change blockEntries _ _ _ _ 0 (12 * bs.length + 0) = _ at hvs
          rw [Nat.add_zero] at hvs
          rw [hvs]
          dsimp only
          rw [hnext]
        · rw [List.map_append, hentry, htail, hb.flatten_drop, List.map_append, List.drop_zero]
      · refine ⟨[], ?_, hpast hge⟩
        rw [dirEntriesLoop, if_pos hge]

variable {σ : Type*} {cb : DirVisit → σ → Option (ℤ × σ)} {marks : DirMarks} {w : DirWalk σ}

/-- A checking iteration over a stored directory in order goes through. -/
theorem iterateLoop_stored (hok : DentriesOk sbi dir marks ds)
    (hsorted : (ds.map DirDentry.name).Pairwise (· < ·))
    (hcb : ∀ v st, ∃ st', cb v st = some (0, st')) (buf : Mem) (fuel : ℕ)
    (hfuel : dir.iSize ≤ i * sbi.blksz + fuel)
    (hw : HandedOut marks ((dirBlocks sbi.blksz ds).take i).flatten w) :
    ∃ w', iterateLoop sbi dir true cb fuel (i * sbi.blksz) (dirBufAt sbi dir buf i) w =
        some (.ok 0, w') ∧ HandedOut marks ds w' := by
  induction fuel generalizing i w with
  | zero =>
      rw [List.take_of_length_le (h.length_le hlen hfuel), flatten_dirBlocks hlen] at hw
      exact ⟨w, rfl, hw⟩
  | succ fuel ih =>
      rcases Nat.lt_or_ge (i * sbi.blksz) dir.iSize with hlt | hge
      · obtain ⟨bs, hb⟩ := h.block hlen buf hlt
        have hbsz := sbi.blksz_pos
        have hokb : DentriesOk sbi dir marks bs := hok.sublist fun d => hb.mem hlen
        have hfront : ((((dirBlocks sbi.blksz ds).take i).flatten ++ bs).map
            DirDentry.name).Pairwise (· < ·) := by
          have hsplit := congrArg List.flatten (List.take_append_drop (i + 1)
            (dirBlocks sbi.blksz ds))
          rw [List.flatten_append, flatten_dirBlocks hlen, hb.flatten_take] at hsplit
          rw [← hsplit, List.map_append, List.pairwise_append] at hsorted
          exact hsorted.1
        have hlook : HandedOut marks (((dirBlocks sbi.blksz ds).take i).flatten ++ bs.take 0)
            (w.look (dirBlockSize sbi dir i) (List.range' 8 2)) := by
          rw [List.take_zero, List.append_nil]
          exact ⟨hw.delivered, hw.dot, hw.dotdot, hw.kept⟩
        obtain ⟨w₁, hrun, hw₁⟩ := traverseLoop_held hb.held hb.fits hb.size hokb hfront hcb
          (12 * bs.length) (by omega) (Nat.zero_le _) hlook
        rw [← hb.flatten_take] at hw₁
        obtain ⟨w₂, hrest, hw₂⟩ := ih (i := i + 1) (by rw [Nat.succ_mul]; omega) hw₁
        refine ⟨w₂, ?_, hw₂⟩
        rw [iterateLoop_block hlt hb.readable hb.stopOk, hb.stop_eq, traverseDirents]
        change traverseLoop _ _ _ _ _ _ _ _ _ (12 * bs.length + 0) none _ = _ at hrun
        rw [Nat.add_zero] at hrun
        rw [hrun]
        exact hrest
      · rw [List.take_of_length_le (h.length_le hlen hge), flatten_dirBlocks hlen] at hw
        exact ⟨w, iterateLoop_past hge, hw⟩

end Stored

section Sorted

variable {bsz : ℕ} {ds : List DirDentry}

theorem prepared_perm (bsz : ℕ) (ds : List DirDentry) :
    (erofsPrepareDirFile bsz ds).1.Perm ds := List.mergeSort_perm _ _

theorem compSubdir_trans (a b c : DirDentry) (hab : compSubdir a b) (hbc : compSubdir b c) :
    compSubdir a c := by
  rw [compSubdir, decide_eq_true_iff] at hab hbc ⊢
  exact List.le_trans hab hbc

theorem compSubdir_total (a b : DirDentry) : compSubdir a b || compSubdir b a := by
  rw [Bool.or_eq_true, compSubdir, compSubdir, decide_eq_true_iff, decide_eq_true_iff]
  exact List.le_total _ _

/-- Names that differ come out in strict order. -/
theorem prepared_sorted (hnames : (ds.map DirDentry.name).Nodup) :
    ((erofsPrepareDirFile bsz ds).1.map DirDentry.name).Pairwise (· < ·) := by
  have hle : ((erofsPrepareDirFile bsz ds).1.map DirDentry.name).Pairwise (· ≤ ·) := by
    rw [List.pairwise_map]
    have hsort : (ds.mergeSort compSubdir).Pairwise (fun a b => compSubdir a b) :=
      List.pairwise_mergeSort compSubdir_trans compSubdir_total ds
    exact hsort.imp fun h => of_decide_eq_true h
  have hne : ((erofsPrepareDirFile bsz ds).1.map DirDentry.name).Nodup :=
    (((prepared_perm bsz ds).map _).nodup_iff).mpr hnames
  refine (hle.and hne).imp fun h => ?_
  rw [← List.not_le]
  exact fun hge => h.2 (List.le_antisymm h.1 hge)

theorem prepared_size (hlen : ∀ d ∈ ds, d.len ≤ bsz)
    (hfit : dirBytes bsz (erofsPrepareDirFile bsz ds).1 < 2 ^ 32) :
    (erofsPrepareDirFile bsz ds).2 = dirBytes bsz (erofsPrepareDirFile bsz ds).1 := by
  have hsize := @dirFileSize_eq bsz (erofsPrepareDirFile bsz ds).1 [] 0 0 (Nat.zero_le bsz)
    (fun d hd => hlen d ((prepared_perm bsz ds).mem_iff.mp hd)) (by rw [Nat.zero_add]; exact hfit)
  rw [Nat.zero_mul, Nat.zero_add, Nat.zero_add] at hsize
  exact hsize

theorem DirDentry.len_le (d : DirDentry) (hbsz : 2 ^ 9 ≤ bsz) : d.len ≤ bsz := by
  have hlt := d.name_lt
  rw [erofsNameLen] at hlt
  rw [DirDentry.len]
  omega

end Sorted

structure WrittenDir (sbi : DirSb) (dir : DirInode) (heap : Mem) (ds : List DirDentry) : Prop where
  isDir : dir.isDir = true
  size : dir.iSize = (erofsPrepareDirFile sbi.blksz ds).2
  read : ∀ n pos, pos + n ≤ dir.iSize → ∃ bytes, dir.pread n pos = .ok bytes ∧
    ∀ k < n, (erofsWriteDirFile heap sbi.blksz
      (erofsPrepareDirFile sbi.blksz ds).1).content[pos + k]? = some (bytes k)

section Written

variable {sbi : DirSb} {dir : DirInode} {heap buf : Mem} {ds : List DirDentry}
  (hdir : WrittenDir sbi dir heap ds) (hbits : 9 ≤ sbi.blkszbits)
  (hfit : dirBytes sbi.blksz (erofsPrepareDirFile sbi.blksz ds).1 < 2 ^ 32)

include hbits in
theorem blksz_ge : 2 ^ 9 ≤ sbi.blksz := Nat.pow_le_pow_right (by omega) hbits

include hdir hbits hfit

theorem WrittenDir.stored :
    StoredDir sbi dir heap (erofsPrepareDirFile sbi.blksz ds).1 :=
  ⟨hdir.isDir, hdir.size.trans (prepared_size (fun d _ => d.len_le (blksz_ge hbits)) hfit),
    hdir.read⟩

/-- A checking iteration goes through, and hands out the dentries in the order of their names. -/
theorem WrittenDir.iterate {σ : Type*} {marks : DirMarks} {cb : DirVisit → σ → Option (ℤ × σ)}
    {st : σ} (hnames : (ds.map DirDentry.name).Nodup)
    (hdot : [46] ∈ ds.map DirDentry.name) (hdotdot : [46, 46] ∈ ds.map DirDentry.name)
    (hok : DentriesOk sbi dir marks ds) (hcb : ∀ v st, ∃ st', cb v st = some (0, st')) :
    ∃ w, erofsIterateDir sbi dir true cb buf marks st = some (0, w) ∧
      w.delivered.map (fun p => p.2.entry) =
        (erofsPrepareDirFile sbi.blksz ds).1.map DirDentry.entry := by
  have hlen : ∀ d ∈ (erofsPrepareDirFile sbi.blksz ds).1, d.len ≤ sbi.blksz :=
    fun d _ => d.len_le (blksz_ge hbits)
  have hstored := hdir.stored hbits hfit
  have hok' := hok.sublist (fun d hd => (prepared_perm sbi.blksz ds).mem_iff.mp hd)
  have hperm : ((erofsPrepareDirFile sbi.blksz ds).1.map DirDentry.name).Perm
      (ds.map DirDentry.name) := (prepared_perm _ _).map _
  have hstart : HandedOut marks
      ((dirBlocks sbi.blksz (erofsPrepareDirFile sbi.blksz ds).1).take 0).flatten
      (DirWalk.start marks st) := by
    refine ⟨rfl, ?_, ?_, fun _ => ⟨rfl, rfl⟩⟩
    · simp [DirWalk.start]
    · simp [DirWalk.start]
  obtain ⟨w, hrun, hw⟩ := iterateLoop_stored hlen hstored hok'
    (prepared_sorted hnames) hcb buf dir.iSize (by omega) hstart
  rw [Nat.zero_mul, dirBufAt] at hrun
  have hfound : w.marks.dotFound = true := hw.dot.mpr (hperm.mem_iff.mpr hdot)
  have hfound' : w.marks.dotdotFound = true := hw.dotdot.mpr (hperm.mem_iff.mpr hdotdot)
  refine ⟨w, ?_, hw.delivered⟩
  rw [erofsIterateDir, if_neg (by rw [hdir.isDir]; simp), hrun]
  dsimp only
  rw [if_neg (by rw [hfound, hfound']; simp)]

variable (hnid : ∀ d ∈ ds, d.nid < 2 ^ 64) (htype : ∀ d ∈ ds, d.type < erofsFtMax)

include hnid htype

/-- What a lookup goes over. -/
theorem WrittenDir.entries :
    ∃ vs, dirEntriesLoop sbi dir dir.iSize 0 buf = (vs, 0) ∧
      vs.map DirVisit.entry = (erofsPrepareDirFile sbi.blksz ds).1.map DirDentry.entry := by
  have hlen : ∀ d ∈ (erofsPrepareDirFile sbi.blksz ds).1, d.len ≤ sbi.blksz :=
    fun d _ => d.len_le (blksz_ge hbits)
  have hmem : ∀ d ∈ (erofsPrepareDirFile sbi.blksz ds).1, d ∈ ds :=
    fun d hd => (prepared_perm sbi.blksz ds).mem_iff.mp hd
  obtain ⟨vs, hvs, hentry⟩ := dirEntriesLoop_stored (i := 0) hlen (hdir.stored hbits hfit)
    (fun d hd => hnid d (hmem d hd)) (fun d hd => htype d (hmem d hd)) buf dir.iSize (by omega)
  rw [Nat.zero_mul, dirBufAt] at hvs
  rw [List.drop_zero, flatten_dirBlocks hlen] at hentry
  exact ⟨vs, hvs, hentry⟩

theorem WrittenDir.namei_found (hnames : (ds.map DirDentry.name).Nodup) {d : DirDentry}
    (hd : d ∈ ds) : (nameiLoop sbi dir d.name dir.iSize 0 buf).ret = .ok d.nid := by
  obtain ⟨vs, hvs, hentry⟩ := @WrittenDir.entries _ _ _ buf _ hdir hbits hfit hnid htype
  have hnodup : (vs.map DirVisit.dname).Nodup := by
    have hvnames : vs.map DirVisit.dname =
        (erofsPrepareDirFile sbi.blksz ds).1.map DirDentry.name := by
      have hthird := congrArg (List.map fun e => e.2.2) hentry
      rw [List.map_map, List.map_map] at hthird
      exact hthird
    rw [hvnames]
    exact ((prepared_perm _ _).map _).nodup_iff.mpr hnames
  have hmem : d.entry ∈ vs.map DirVisit.entry := by
    rw [hentry]
    exact List.mem_map_of_mem ((prepared_perm _ _).mem_iff.mpr hd)
  obtain ⟨v, hv, heq⟩ := List.mem_map.mp hmem
  have hname : v.dname = d.name := congrArg (fun e => e.2.2) heq
  have hvnid : v.nid = d.nid := congrArg Prod.fst heq
  rw [nameiLoop_find hvs]
  cases hfind : vs.find? (·.dname = d.name) with
  | none =>
      rw [List.find?_eq_none] at hfind
      exact absurd (decide_eq_true hname) (hfind v hv)
  | some u =>
      have hu : u.dname = d.name := by simpa using List.find?_some hfind
      have huv := List.inj_on_of_nodup_map hnodup (List.mem_of_find?_eq_some hfind) hv
        (hu.trans hname.symm)
      dsimp only
      rw [huv, hvnid]

theorem WrittenDir.namei_missing {name : FileName} (hname : name ∉ ds.map DirDentry.name) :
    (nameiLoop sbi dir name dir.iSize 0 buf).ret = .error eNoEnt := by
  obtain ⟨vs, hvs, hentry⟩ := @WrittenDir.entries _ _ _ buf _ hdir hbits hfit hnid htype
  rw [nameiLoop_find hvs]
  have hfind : vs.find? (·.dname = name) = none := by
    rw [List.find?_eq_none]
    intro v hv hdec
    have hmem : v.entry ∈ (erofsPrepareDirFile sbi.blksz ds).1.map DirDentry.entry := by
      rw [← hentry]
      exact List.mem_map_of_mem hv
    obtain ⟨d, hd, heq⟩ := List.mem_map.mp hmem
    have hdv : d.name = v.dname := congrArg (fun e => e.2.2) heq
    apply hname
    rw [← of_decide_eq_true hdec, ← hdv]
    exact List.mem_map_of_mem ((prepared_perm _ _).mem_iff.mp hd)
  rw [hfind]

end Written

/-- A directory that was written passes a checking iteration, which hands out its dentries in the
order of their names, and a lookup finds the nid of each name and no other name. -/
theorem dirFile_roundTrip {σ : Type*} {sbi : DirSb} {dir : DirInode} {heap buf : Mem}
    {ds : List DirDentry} {marks : DirMarks} {cb : DirVisit → σ → Option (ℤ × σ)} {st : σ}
    (hbits : 9 ≤ sbi.blkszbits) (hnames : (ds.map DirDentry.name).Nodup)
    (hdot : [46] ∈ ds.map DirDentry.name) (hdotdot : [46, 46] ∈ ds.map DirDentry.name)
    (hok : DentriesOk sbi dir marks ds)
    (hfit : dirBytes sbi.blksz (erofsPrepareDirFile sbi.blksz ds).1 < 2 ^ 32)
    (hdir : WrittenDir sbi dir heap ds) (hcb : ∀ v st, ∃ st', cb v st = some (0, st')) :
    (∃ w, erofsIterateDir sbi dir true cb buf marks st = some (0, w) ∧
      w.delivered.map (fun p => p.2.entry) =
        (erofsPrepareDirFile sbi.blksz ds).1.map DirDentry.entry) ∧
    (∀ d ∈ ds, (nameiLoop sbi dir d.name dir.iSize 0 buf).ret = .ok d.nid) ∧
    ∀ name, name ∉ ds.map DirDentry.name →
      (nameiLoop sbi dir name dir.iSize 0 buf).ret = .error eNoEnt := by
  refine ⟨hdir.iterate hbits hfit hnames hdot hdotdot hok hcb, fun d hd => ?_, fun name hname => ?_⟩
  · exact hdir.namei_found hbits hfit hok.nid hok.type hnames hd
  · exact hdir.namei_missing hbits hfit hok.nid hok.type hname

def DirDentry.ofName (nid type : ℕ) (name : FileName)
    (h : name ≠ [] ∧ name.length < erofsNameLen ∧ 0 ∉ name) : DirDentry :=
  ⟨nid, type, name, h.1, h.2.1, h.2.2⟩

/-- `a`, `..` and `.` of a root directory, as they come from the tree. -/
def rootDentries : List DirDentry :=
  [.ofName 40 1 [97] (by decide), .ofName 36 2 [46, 46] (by decide), .ofName 36 2 [46] (by decide)]

def keptDir (nid bsz : ℕ) (ds : List DirDentry) : DirInode where
  nid := nid
  isDir := true
  iSize := (erofsPrepareDirFile bsz ds).2
  pread := fun _ pos => .ok fun k =>
    (erofsWriteDirFile (fun _ => 0) bsz (erofsPrepareDirFile bsz ds).1).content.getD (pos + k) 0
  pread_neg := fun h => by cases h

theorem keptDir_written {sbi : DirSb} {nid : ℕ} {ds : List DirDentry}
    (hlen : ∀ d ∈ ds, d.len ≤ sbi.blksz)
    (hfit : dirBytes sbi.blksz (erofsPrepareDirFile sbi.blksz ds).1 < 2 ^ 32) :
    WrittenDir sbi (keptDir nid sbi.blksz ds) (fun _ => 0) ds := by
  refine ⟨rfl, rfl, ?_⟩
  intro n pos hle
  refine ⟨_, rfl, ?_⟩
  intro k hk
  have hlength := (erofsWriteDirFile_lengths (fun _ => 0) sbi.blksz_pos
    (fun d hd => hlen d ((prepared_perm sbi.blksz ds).mem_iff.mp hd))).2.2
  have hsize : (keptDir nid sbi.blksz ds).iSize =
      dirBytes sbi.blksz (erofsPrepareDirFile sbi.blksz ds).1 := prepared_size hlen hfit
  rw [hsize, ← hlength] at hle
  rw [List.getD_eq_getElem?_getD, List.getElem?_eq_getElem (by omega), Option.getD_some]

def keptRoot : DirInode := keptDir 36 512 rootDentries

theorem dirFile_roundTrip_root :
    (∃ w, erofsIterateDir rootSb keptRoot true goOn (fun _ => 0) noMarks () = some (0, w) ∧
      w.delivered.map (fun p => p.2.entry) =
        [(36, 2, [46]), (36, 2, [46, 46]), (40, 1, [97])]) ∧
      (nameiLoop rootSb keptRoot [97] keptRoot.iSize 0 (fun _ => 0)).ret = .ok 40 ∧
      (nameiLoop rootSb keptRoot [98] keptRoot.iSize 0 (fun _ => 0)).ret = .error eNoEnt := by
  have hsort : (erofsPrepareDirFile 512 rootDentries).1 = rootDentries.reverse := by
    simp +decide [erofsPrepareDirFile, rootDentries, DirDentry.ofName, List.mergeSort,
      List.MergeSort.Internal.splitInTwo, compSubdir]
  have hfit : dirBytes 512 (erofsPrepareDirFile 512 rootDentries).1 < 2 ^ 32 := by
    rw [hsort]
    decide
  have hok : DentriesOk rootSb keptRoot noMarks rootDentries := by
    constructor <;> decide
  have hdir : WrittenDir rootSb keptRoot (fun _ => 0) rootDentries :=
    keptDir_written (by decide) hfit
  obtain ⟨⟨w, hrun, hdelivered⟩, hfound, hmissing⟩ := @dirFile_roundTrip Unit rootSb keptRoot
    (fun _ => 0) (fun _ => 0) rootDentries noMarks goOn () (le_refl 9) (by decide) (by decide)
    (by decide) hok hfit hdir fun v st => ⟨st, rfl⟩
  have hmem : .ofName 40 1 [97] (by decide) ∈ rootDentries := List.mem_cons_self
  refine ⟨⟨w, hrun, ?_⟩, hfound _ hmem, hmissing [98] (by decide)⟩
  change _ = (erofsPrepareDirFile 512 rootDentries).1.map DirDentry.entry at hdelivered
  rw [hdelivered, hsort]
  rfl

end ErofsUtils
