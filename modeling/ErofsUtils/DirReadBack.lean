import ErofsUtils.DirRoundTrip

/-!
# What is computed before a directory is written

The size that `erofs_prepare_dir_file` computes is that of the bytes which `erofs_write_dir_file`
lays out, none of the checks between the two fails, and what was laid out is read back.
-/

namespace ErofsUtils
open ByteMemory CString

/-- The `DBG_BUGON`s of `erofs_write_dir_file`, which packs the dentries anew, against `i_size`;
`idata_size` is `i_size % bsz`. -/
structure DirSizeChecked (bsz iSize : ℕ) (ds : List DirDentry) : Prop where
  used_le : (writeDirFileLoop bsz ds [] 0).2.2 ≤ bsz
  full : (writeDirFileLoop bsz ds [] 0).2.2 = bsz → iSize % bsz = 0
  tail : (writeDirFileLoop bsz ds [] 0).2.2 ≠ bsz →
    (writeDirFileLoop bsz ds [] 0).2.2 = iSize % bsz

theorem dirSizeChecked {bsz : ℕ} {ds : List DirDentry} (hlen : ∀ d ∈ ds, d.len ≤ bsz) :
    DirSizeChecked bsz (dirBytes bsz ds) ds := by
  obtain ⟨written, head, hloop, hp, -⟩ := dirBlocks_packed hlen
  have hle : dirUsed head ≤ bsz := hp.fits head List.mem_cons_self
  unfold dirBytes
  constructor <;> rw [hloop] <;> dsimp only
  · exact hle
  · intro hfull
    rw [hfull, ← Nat.succ_mul, Nat.mul_mod_left]
  · intro hne
    rw [Nat.mul_add_mod_self_right, Nat.mod_eq_of_lt (lt_of_le_of_ne hle hne)]

/-- A directory whose `.` and `..` point where a check expects them, with valid types and less than
4 GiB in size, is as large as was computed, passes all checks, and reads back: an iteration hands
out every dentry once, in the order of the names, and a lookup finds each name and no other. -/
theorem preparedDir_readBack {σ : Type*} {sbi : DirSb} {dir : DirInode} {heap buf : Mem}
    {ds : List DirDentry} {marks : DirMarks} {cb : DirVisit → σ → Option (ℤ × σ)} {st : σ}
    (hbits : 9 ≤ sbi.blkszbits) (hnames : (ds.map DirDentry.name).Nodup)
    (hdot : [46] ∈ ds.map DirDentry.name) (hdotdot : [46, 46] ∈ ds.map DirDentry.name)
    (hok : DentriesOk sbi dir marks ds)
    (hfit : dirBytes sbi.blksz (erofsPrepareDirFile sbi.blksz ds).1 < 2 ^ 32)
    (hdir : WrittenDir sbi dir heap ds) (hcb : ∀ v st, ∃ st', cb v st = some (0, st')) :
    ((erofsWriteDirFile heap sbi.blksz (erofsPrepareDirFile sbi.blksz ds).1).content.length =
        (erofsPrepareDirFile sbi.blksz ds).2 ∧
      DirSizeChecked sbi.blksz (erofsPrepareDirFile sbi.blksz ds).2
        (erofsPrepareDirFile sbi.blksz ds).1) ∧
    ((erofsPrepareDirFile sbi.blksz ds).1.Perm ds ∧
      ((erofsPrepareDirFile sbi.blksz ds).1.map DirDentry.name).Pairwise (· < ·) ∧
      ∃ w, erofsIterateDir sbi dir true cb buf marks st = some (0, w) ∧
        w.delivered.map (fun p => p.2.entry) =
          (erofsPrepareDirFile sbi.blksz ds).1.map DirDentry.entry) ∧
    (∀ d ∈ ds, (nameiLoop sbi dir d.name dir.iSize 0 buf).ret = .ok d.nid) ∧
    ∀ name, name ∉ ds.map DirDentry.name →
      (nameiLoop sbi dir name dir.iSize 0 buf).ret = .error eNoEnt := by
  have hbsz : 2 ^ 9 ≤ sbi.blksz := Nat.pow_le_pow_right (by omega) hbits
  have hlen : ∀ d ∈ (erofsPrepareDirFile sbi.blksz ds).1, d.len ≤ sbi.blksz :=
    fun d _ => d.len_le hbsz
  have hsize := prepared_size (fun d _ => d.len_le hbsz) hfit
  refine ⟨⟨?_, ?_⟩, ⟨prepared_perm _ _, prepared_sorted hnames, ?_⟩, ?_, ?_⟩
  · rw [hsize]
    exact (erofsWriteDirFile_lengths heap sbi.blksz_pos hlen).2.2
  · rw [hsize]
    exact dirSizeChecked hlen
  · exact hdir.iterate hbits hfit hnames hdot hdotdot hok hcb
  · exact fun d hd => hdir.namei_found hbits hfit hok.nid hok.type hnames hd
  · exact fun name hname => hdir.namei_missing hbits hfit hok.nid hok.type hname

/-- A name of `n + 1` bytes. -/
def longName (b : UInt8) (n : ℕ) : FileName := b :: List.replicate n 120

theorem longName_ok {b : UInt8} {n : ℕ} (hb : b ≠ 0) (hn : n < 254) :
    longName b n ≠ [] ∧ (longName b n).length < erofsNameLen ∧ 0 ∉ longName b n := by
  refine ⟨List.cons_ne_nil _ _, ?_, ?_⟩
  · rw [longName, List.length_cons, List.length_replicate, erofsNameLen]
    omega
  · rw [longName, List.mem_cons, List.mem_replicate, not_or]
    exact ⟨hb.symm, fun h => absurd h.2 (by decide)⟩

/-- The second long name does not fit into the first block. -/
def longNames : List DirDentry :=
  .ofName 41 1 (longName 98 239) (longName_ok (by decide) (by omega)) ::
    .ofName 40 1 (longName 97 239) (longName_ok (by decide) (by omega)) :: rootDentries.tail

theorem prepared_longNames : erofsPrepareDirFile 512 longNames = (longNames.reverse, 764) := by
  have hsort : longNames.mergeSort compSubdir = longNames.reverse := by
    simp +decide [longNames, longName, rootDentries, DirDentry.ofName, List.mergeSort,
      List.MergeSort.Internal.splitInTwo, compSubdir, -List.reduceReplicate]
  have hsize : dirFileSize 512 longNames.reverse 0 = 764 := by decide +kernel
  rw [erofsPrepareDirFile, hsort, hsize]

theorem preparedDir_readBack_longNames :
    (erofsWriteDirFile (fun _ => 0) 512 longNames.reverse).content.length = 764 ∧
      DirSizeChecked 512 764 longNames.reverse ∧
      (∃ w, erofsIterateDir rootSb (keptDir 36 512 longNames) true goOn (fun _ => 0) noMarks () =
          some (0, w) ∧
        w.delivered.map (fun p => p.2.entry) = longNames.reverse.map DirDentry.entry) ∧
      (nameiLoop rootSb (keptDir 36 512 longNames) (longName 98 239) 764 0 (fun _ => 0)).ret =
        .ok 41 ∧
      (nameiLoop rootSb (keptDir 36 512 longNames) (longName 98 238) 764 0 (fun _ => 0)).ret =
        .error eNoEnt := by
  have hfit : dirBytes 512 (erofsPrepareDirFile 512 longNames).1 < 2 ^ 32 := by
    rw [prepared_longNames]
    decide +kernel
  have hdir : WrittenDir rootSb (keptDir 36 512 longNames) (fun _ => 0) longNames :=
    keptDir_written (by decide +kernel) hfit
  have hok : DentriesOk rootSb (keptDir 36 512 longNames) noMarks longNames := by
    constructor <;> decide +kernel
  obtain ⟨⟨hsize, hchecked⟩, ⟨-, -, hiterate⟩, hfound, hmissing⟩ := @preparedDir_readBack Unit
    rootSb (keptDir 36 512 longNames) (fun _ => 0) (fun _ => 0) longNames noMarks goOn ()
    (le_refl 9) (by decide +kernel) (by decide +kernel) (by decide +kernel) hok hfit hdir fun v st => ⟨st, rfl⟩
  have hiSize : (keptDir 36 512 longNames).iSize = 764 := congrArg Prod.snd prepared_longNames
  change (erofsWriteDirFile _ 512 (erofsPrepareDirFile 512 longNames).1).content.length =
    (erofsPrepareDirFile 512 longNames).2 at hsize
  change DirSizeChecked 512 (erofsPrepareDirFile 512 longNames).2
    (erofsPrepareDirFile 512 longNames).1 at hchecked
  change ∃ w, _ ∧ _ = (erofsPrepareDirFile 512 longNames).1.map DirDentry.entry at hiterate
  rw [prepared_longNames] at hsize hchecked hiterate
  rw [hiSize] at hfound hmissing
  exact ⟨hsize, hchecked, hiterate, hfound _ List.mem_cons_self, hmissing _ (by decide +kernel)⟩

/-- The root directory with a `.` that names the file `a`. -/
def misplacedDot : List DirDentry :=
  rootDentries.map fun d => if d.name = [46] then { d with nid := 40 } else d

theorem prepared_misplacedDot :
    erofsPrepareDirFile 512 misplacedDot = (misplacedDot.reverse, 40) := by
  have hsort : misplacedDot.mergeSort compSubdir = misplacedDot.reverse := by
    simp +decide [misplacedDot, rootDentries, DirDentry.ofName, List.mergeSort,
      List.MergeSort.Internal.splitInTwo, compSubdir]
  rw [erofsPrepareDirFile, hsort]
  rfl

/-- A checking iteration refuses a `.` that points to another inode. -/
theorem iterate_misplacedDot :
    ¬∀ (dir : DirInode) (heap : Mem) (ds : List DirDentry), (ds.map DirDentry.name).Nodup →
      [46] ∈ ds.map DirDentry.name → [46, 46] ∈ ds.map DirDentry.name →
      (∀ d ∈ ds, 47 ∉ d.name) → WrittenDir rootSb dir heap ds →
      ∃ w, erofsIterateDir rootSb dir true goOn (fun _ => 0) noMarks () = some (0, w) := by
  intro hclaim
  have hfit : dirBytes 512 (erofsPrepareDirFile 512 misplacedDot).1 < 2 ^ 32 := by
    rw [prepared_misplacedDot]
    decide
  have hdir : WrittenDir rootSb (keptDir 36 512 misplacedDot) (fun _ => 0) misplacedDot :=
    keptDir_written (by decide) hfit
  obtain ⟨w, hrun⟩ := hclaim _ _ _ (by decide) (by decide) (by decide) (by decide) hdir
  have hret : (erofsIterateDir rootSb (keptDir 36 512 misplacedDot) true goOn (fun _ => 0) noMarks
      ()).map Prod.fst = some 0 := by
    rw [hrun]
    rfl
  unfold keptDir at hret
  simp only [prepared_misplacedDot] at hret
  revert hret
  decide +kernel

end ErofsUtils
