import ErofsUtils.FixParent
import ErofsUtils.XattrSize

/-!
# The form of an inode

An inode is written as 32 or 64 bytes. `erofs_should_use_inode_extended` takes the decision when
the inode is filled, or in a rebuild when it is dumped, and what happens to the inode afterwards
does not change it. The main theorem says for which inodes the reader finds what was in memory.
-/

namespace ErofsUtils
namespace InodeForm
open ByteMemory

/-- `cfg.c_force_inodeversion`. -/
inductive ForceInodeversion
  | none
  | compact
  | extended
  deriving DecidableEq

/-- `cfg.c_force_inodeversion` and `cfg.c_ignore_mtime`, and `blkszbits`, `build_time`,
`build_time_nsec` and `packed_nid` of the superblock. -/
structure InodeConfig where
  forceInodeversion : ForceInodeversion
  ignoreMtime : Bool
  blkszbits : ℕ
  buildTime : ℕ
  buildTimeNsec : ℕ
  packedNid : ℕ

/-- `UINT_MAX` and `USHRT_MAX`. -/
def uintMax : ℕ := 2 ^ 32 - 1

def ushrtMax : ℕ := 2 ^ 16 - 1

/-- `S_IFCHR` and `S_IFBLK`. -/
def sIfrdev : List ℕ := [2, 6]

/-- `erofs_is_packed_inode`, where `EROFS_PACKED_NID_UNALLOCATED` is `-1`. -/
def erofsIsPackedInode (cfg : InodeConfig) (nid : ℕ) : Prop :=
  nid = 2 ^ 64 - 1 ∨ 0 < cfg.packedNid ∧ nid = cfg.packedNid

instance (cfg : InodeConfig) (nid : ℕ) : Decidable (erofsIsPackedInode cfg nid) :=
  inferInstanceAs (Decidable (_ ∨ _))

def erofsShouldUseInodeExtended (cfg : InodeConfig) (vi : MetaInode) (attrs : InodeAttrs) : Bool :=
  if cfg.forceInodeversion = .extended then true
  else if uintMax < vi.iSize then true
  else if erofsIsPackedInode cfg vi.nid then false
  else if ushrtMax < attrs.iUid then true
  else if ushrtMax < attrs.iGid then true
  else if ushrtMax < attrs.iNlink then true
  else if (attrs.iMtime ≠ cfg.buildTime ∨ attrs.iMtimeNsec ≠ cfg.buildTimeNsec) ∧
      cfg.ignoreMtime = false then true
  else false

/-- What `erofs_fill_inode` and `erofs_rebuild_handle_inode` do with the decision; it is an error
when the compact form is forced. -/
def setInodeIsize (cfg : InodeConfig) (vi : MetaInode) (attrs : InodeAttrs) : Option MetaInode :=
  if erofsShouldUseInodeExtended cfg vi attrs then
    if cfg.forceInodeversion = .compact then none else some { vi with inodeIsize := 64 }
  else some { vi with inodeIsize := 32 }

/-- What happens to an inode behind the decision: the tree dump finds it again; a directory is
handled, with its size and the number of its subdirectories; its data get a layout and a place; and
its xattrs get a size. -/
inductive InodeUpdate
  | link
  | dir (size nlink : ℕ)
  | data (datalayout : Datalayout) (u : ℕ)
  | xattrs (size : ℕ)

namespace InodeUpdate

def apply (x : InodeUpdate) (s : MetaInode × InodeAttrs) : MetaInode × InodeAttrs :=
  match x with
  | link => (s.1, { s.2 with iNlink := u32 (s.2.iNlink + 1) })
  | dir size nlink =>
    ({ s.1 with iSize := u32 size, datalayout := .flatInline },
      { s.2 with iNlink := if ushrtMax < u32 nlink ∧ s.1.inodeIsize = 32 then 1 else u32 nlink })
  | data datalayout u => ({ s.1 with datalayout := datalayout, u := u32 u }, s.2)
  | xattrs size => ({ s.1 with xattrIsize := u32 size }, s.2)

/-- The updates of an inode of file type `fmt`: links are counted for what is no directory, unless
the dump is that of a rebuild. The format of chunk-based data stands alone in `u`, except that
`tarerofs_write_chunkes` gives such data to device entries with a size as well, where it is put
over the device number. -/
def For (fmt : ℕ) (rebuild : Bool) : InodeUpdate → Prop
  | link => fmt ≠ sIfdir ∧ rebuild = false
  | dir _ _ => fmt = sIfdir
  | data datalayout u => datalayout = .chunkBased → fmt ∉ sIfrdev → u16 u < 2 ^ 6
  | xattrs _ => True

end InodeUpdate

def countLinks (xs : List InodeUpdate) : ℕ := xs.countP fun x => match x with
  | .link => true
  | _ => false

/-- The rest of what `erofs_read_inode_from_disk` reads. -/
def readInodeAttrs (cfg : InodeConfig) (dev : Mem) (loc : ℕ) : InodeAttrs :=
  if leNat dev loc 2 % 2 = 1 then
    { iNlink := leNat dev (loc + 44) 4
      iIno := leNat dev (loc + 20) 4
      iUid := leNat dev (loc + 24) 4
      iGid := leNat dev (loc + 28) 4
      iMtime := leNat dev (loc + 32) 8
      iMtimeNsec := leNat dev (loc + 40) 4 }
  else
    { iNlink := leNat dev (loc + 6) 2
      iIno := leNat dev (loc + 20) 4
      iUid := leNat dev (loc + 24) 2
      iGid := leNat dev (loc + 26) 2
      iMtime := cfg.buildTime
      iMtimeNsec := cfg.buildTimeNsec }

/-- `chunkformat` and `chunkbits` of a chunk-based inode, over what the union held. -/
def chunkUnion (cfg : InodeConfig) (format u : ℕ) : ℕ :=
  format + (cfg.blkszbits + format % 2 ^ 5) % 2 ^ 8 * 2 ^ 16 + u / 2 ^ 24 * 2 ^ 24

/-- `u.i_rdev` of a character or block device that `erofs_read_inode_from_disk` has read. -/
def readRdev (cfg : InodeConfig) (dev : Mem) (loc : ℕ) : ℕ :=
  let rdev := erofsNewDecodeDev (leNat dev (loc + 16) 4)
  if Datalayout.ofFormat (leNat dev loc 2) = some .chunkBased then
    chunkUnion cfg (leNat dev (loc + 16) 2) rdev
  else rdev

/-- A size in whole words that the count brings back. -/
def XattrFits (size : ℕ) : Prop := size % 4 = 0 ∧ CountFits size

/-- An inode from the decision to the flush. `nid` is not set before its buffer is mapped, and
`erofs_fill_inode` starts with one link. `rdev` is the device number that the inode was given. -/
structure InodeRun (cfg : InodeConfig) where
  vi : MetaInode
  attrs : InodeAttrs
  rdev : ℕ
  rebuild : Bool
  updates : List InodeUpdate
  nid_eq : vi.nid = 0
  mode_lt : vi.iMode < 2 ^ 16
  size_lt : vi.iSize < 2 ^ 64
  u_lt : vi.u < 2 ^ 32
  xattr_lt : vi.xattrIsize < 2 ^ 32
  uid_lt : attrs.iUid < 2 ^ 32
  gid_lt : attrs.iGid < 2 ^ 32
  mtime_lt : attrs.iMtime < 2 ^ 64
  nsec_lt : attrs.iMtimeNsec < 2 ^ 32
  nlink_lt : attrs.iNlink < 2 ^ 32
  filled : rebuild = false → attrs.iNlink = 1
  formed : (setInodeIsize cfg vi attrs).isSome
  chunked : vi.datalayout = .chunkBased → sIfmt vi.iMode ∉ sIfrdev → u16 vi.u < 2 ^ 6
  typed : ∀ x ∈ updates, x.For (sIfmt vi.iMode) rebuild

namespace InodeRun

variable {cfg : InodeConfig} (run : InodeRun cfg)

def form : MetaInode := (setInodeIsize cfg run.vi run.attrs).get run.formed

/-- The inode when `erofs_iflush` gets it. -/
def final : MetaInode × InodeAttrs :=
  run.updates.foldl (fun s x => x.apply s) (run.form, run.attrs)

/-- How often the tree dump finds the inode again. -/
def links : ℕ := countLinks run.updates

/-- The reader finds the fields of the inode at `loc` of the device. -/
def ReadsBack (dev : Mem) (loc nid : ℕ) : Prop :=
  ∃ vi, erofsReadInodeFromDisk dev loc nid = .ok vi ∧
    vi.datalayout = run.final.1.datalayout ∧ vi.iMode = run.final.1.iMode ∧
    vi.iSize = run.final.1.iSize ∧ vi.xattrIsize = run.final.1.xattrIsize ∧
    (sIfmt run.final.1.iMode ∈ sIfrdev → readRdev cfg dev loc = run.rdev) ∧
    (readInodeAttrs cfg dev loc).iUid = run.final.2.iUid ∧
    (readInodeAttrs cfg dev loc).iGid = run.final.2.iGid ∧
    (readInodeAttrs cfg dev loc).iNlink = run.final.2.iNlink ∧
    (cfg.ignoreMtime = false → (readInodeAttrs cfg dev loc).iMtime = run.final.2.iMtime ∧
      (readInodeAttrs cfg dev loc).iMtimeNsec = run.final.2.iMtimeNsec)

/-- The device number of a character or block device is in place at the flush. Over chunk-based data
it is read back only if it has a known format in its lower half and `chunkbits` behind it. -/
def RdevFits : Prop :=
  if run.final.1.datalayout = .chunkBased then
    u16 run.final.1.u < 2 ^ 6 ∧ chunkUnion cfg (u16 run.final.1.u) run.final.1.u = run.rdev
  else run.final.1.u = run.rdev

/-- The inode has a file type; a compact inode that is no directory has at most 65535 links with
those that the dump finds; its count of xattr words stands for their size; and no data has been put
over a device number. -/
structure Fits : Prop where
  mode : sIfmt run.vi.iMode ∈ [4, 8, 10] ++ sIfdev
  links : erofsShouldUseInodeExtended cfg run.vi run.attrs = false →
    sIfmt run.vi.iMode ≠ sIfdir → u32 (run.attrs.iNlink + run.links) < 2 ^ 16
  xattr : XattrFits run.final.1.xattrIsize
  rdev : sIfmt run.vi.iMode ∈ sIfrdev → run.RdevFits

end InodeRun

/-! ## From the decision to the flush -/

section Decision

variable {cfg : InodeConfig} {vi : MetaInode} {attrs : InodeAttrs}

theorem compact_fits (h : erofsShouldUseInodeExtended cfg vi attrs = false) (hnid : vi.nid = 0) :
    vi.iSize < 2 ^ 32 ∧ attrs.iUid < 2 ^ 16 ∧ attrs.iGid < 2 ^ 16 ∧ attrs.iNlink < 2 ^ 16 ∧
      (cfg.ignoreMtime = false →
        attrs.iMtime = cfg.buildTime ∧ attrs.iMtimeNsec = cfg.buildTimeNsec) := by
  have hpacked : ¬ erofsIsPackedInode cfg vi.nid := by
    rw [hnid]
    rintro (h0 | ⟨h0, h1⟩)
    · exact absurd h0 (by decide)
    · omega
  unfold erofsShouldUseInodeExtended at h
  split_ifs at h with hforce hsize huid hgid hnlink htime
  have huint : uintMax = 4294967295 := rfl
  have hushrt : ushrtMax = 65535 := rfl
  refine ⟨by omega, by omega, by omega, by omega, fun hmtime => ?_⟩
  by_contra hne
  exact htime ⟨not_and_or.mp hne, hmtime⟩

end Decision

namespace InodeRun

variable {cfg : InodeConfig} (run : InodeRun cfg)

theorem form_eq : run.form = { run.vi with
    inodeIsize := if erofsShouldUseInodeExtended cfg run.vi run.attrs then 64 else 32 } := by
  have hsome : some run.form = setInodeIsize cfg run.vi run.attrs := Option.some_get run.formed
  unfold setInodeIsize at hsome
  split at hsome
  next hext =>
    rw [if_pos hext]
    split at hsome
    next => cases hsome
    next => exact Option.some.inj hsome
  next hext =>
    rw [if_neg hext]
    exact Option.some.inj hsome

end InodeRun

/-- What the updates keep: the fields fit their types, and those of a compact inode, but for its
links, fit the form. -/
structure Kept (vi : MetaInode) (attrs : InodeAttrs) (isize : ℕ) (s : MetaInode × InodeAttrs) :
    Prop where
  form : s.1.inodeIsize = isize
  mode : s.1.iMode = vi.iMode
  uid : s.2.iUid = attrs.iUid
  gid : s.2.iGid = attrs.iGid
  mtime : s.2.iMtime = attrs.iMtime
  nsec : s.2.iMtimeNsec = attrs.iMtimeNsec
  size_lt : s.1.iSize < 2 ^ 64
  size32_lt : isize = 32 → s.1.iSize < 2 ^ 32
  u_lt : s.1.u < 2 ^ 32
  xattr_lt : s.1.xattrIsize < 2 ^ 32
  nlink_lt : s.2.iNlink < 2 ^ 32
  dir_nlink_lt : isize = 32 → sIfmt vi.iMode = sIfdir → s.2.iNlink < 2 ^ 16
  chunked : s.1.datalayout = .chunkBased → sIfmt vi.iMode ∉ sIfrdev → u16 s.1.u < 2 ^ 6

section Updates

variable {vi : MetaInode} {attrs : InodeAttrs} {isize : ℕ} {s : MetaInode × InodeAttrs}
  {rebuild : Bool}

theorem Kept.apply (h : Kept vi attrs isize s) {x : InodeUpdate}
    (hx : x.For (sIfmt vi.iMode) rebuild) : Kept vi attrs isize (x.apply s) := by
  cases x with
  | link =>
    exact ⟨h.form, h.mode, h.uid, h.gid, h.mtime, h.nsec, h.size_lt, h.size32_lt, h.u_lt,
      h.xattr_lt, u32_lt _, fun _ hdir => absurd hdir hx.1, h.chunked⟩
  | dir size nlink =>
    have hlt : u32 size < 2 ^ 64 := (u32_lt size).trans (by decide)
    refine ⟨h.form, h.mode, h.uid, h.gid, h.mtime, h.nsec, hlt, fun _ => u32_lt size, h.u_lt,
      h.xattr_lt, ?_, ?_, fun hc => by cases hc⟩
    · simp only [InodeUpdate.apply]
      split
      · decide
      · exact u32_lt nlink
    · intro h32 _
      have hushrt : ushrtMax = 65535 := rfl
      have hisize := h.form
      simp only [InodeUpdate.apply]
      split
      · decide
      · omega
  | data datalayout u =>
    refine ⟨h.form, h.mode, h.uid, h.gid, h.mtime, h.nsec, h.size_lt, h.size32_lt, u32_lt u,
      h.xattr_lt, h.nlink_lt, h.dir_nlink_lt, fun hc hnot => ?_⟩
    have hknown := hx hc hnot
    have hmod : u16 (u32 u) = u16 u := Nat.mod_mod_of_dvd u (by decide)
    simp only [InodeUpdate.apply, hmod]
    exact hknown
  | xattrs size =>
    exact ⟨h.form, h.mode, h.uid, h.gid, h.mtime, h.nsec, h.size_lt, h.size32_lt, h.u_lt,
      u32_lt size, h.nlink_lt, h.dir_nlink_lt, h.chunked⟩

theorem Kept.foldl (h : Kept vi attrs isize s) {xs : List InodeUpdate}
    (hxs : ∀ x ∈ xs, x.For (sIfmt vi.iMode) rebuild) :
    Kept vi attrs isize (xs.foldl (fun s x => x.apply s) s) := by
  induction xs generalizing s with
  | nil => exact h
  | cons x xs ih =>
    rw [List.foldl_cons]
    exact ih (h.apply (hxs x List.mem_cons_self)) fun y hy => hxs y (List.mem_cons_of_mem x hy)

theorem nlink_foldl {xs : List InodeUpdate} (hfmt : sIfmt vi.iMode ≠ sIfdir)
    (hxs : ∀ x ∈ xs, x.For (sIfmt vi.iMode) rebuild) (hlt : s.2.iNlink < 2 ^ 32) :
    (xs.foldl (fun s x => x.apply s) s).2.iNlink = u32 (s.2.iNlink + countLinks xs) := by
  induction xs generalizing s with
  | nil => exact (u32_of_lt hlt).symm
  | cons x xs ih =>
    have hrest : ∀ y ∈ xs, y.For (sIfmt vi.iMode) rebuild := fun y hy =>
      hxs y (List.mem_cons_of_mem x hy)
    have hx := hxs x List.mem_cons_self
    rw [List.foldl_cons]
    cases x with
    | link =>
      rw [ih hrest (u32_lt _)]
      have hcount : countLinks (.link :: xs) = countLinks xs + 1 :=
        List.countP_cons_of_pos (by rfl)
      rw [hcount]
      simp only [InodeUpdate.apply, u32]
      omega
    | dir size nlink => exact absurd hx hfmt
    | data datalayout u => exact ih hrest hlt
    | xattrs size => exact ih hrest hlt

end Updates

/-! ## What the reader finds -/

section Reading

variable {cfg : InodeConfig} {vi : MetaInode} {attrs : InodeAttrs} {dev : Mem} {loc nid : ℕ}
  {bs : List UInt8}

theorem length_iU (vi : MetaInode) : vi.iU.length = 4 := by
  unfold MetaInode.iU
  split <;> simp

theorem read_compact (h32 : vi.inodeIsize = 32) (hbs : erofsIflush vi attrs = some bs)
    (hold : Holds dev loc bs) :
    Holds dev loc (leBytes 2 (0 + 2 * vi.datalayout.toNat) ++
        leBytes 2 (erofsInodeXattrIcount vi.xattrIsize) ++ leBytes 2 vi.iMode) ∧
      Holds dev (loc + 8) (leBytes 4 vi.iSize) ∧ Holds dev (loc + 16) vi.iU ∧
        readInodeAttrs cfg dev loc = ⟨u16 attrs.iNlink, u32 attrs.iIno, u16 attrs.iUid,
          u16 attrs.iGid, cfg.buildTime, cfg.buildTimeNsec⟩ := by
  unfold erofsIflush at hbs
  simp only at hbs
  rw [if_pos h32, Option.some.injEq] at hbs
  rw [← hbs, holds_append] at hold
  obtain ⟨hhead, hrest⟩ := hold
  simp only [holds_append, List.length_append, length_leBytes, length_iU, Nat.add_assoc,
    Nat.reduceAdd] at hrest
  obtain ⟨⟨⟨⟨⟨⟨⟨hnlink, hs⟩, -⟩, hu⟩, hino⟩, huid⟩, hgid⟩, -⟩ := hrest
  rw [← Nat.zero_add (2 * _)] at hhead
  refine ⟨hhead, hs, hu, ?_⟩
  have hlt : vi.datalayout.toNat < 5 := by cases vi.datalayout <;> decide
  have hfmt : leNat dev loc 2 = 0 + 2 * vi.datalayout.toNat :=
    leNat_of_holds_of_lt (holds_append.mp (holds_append.mp hhead).1).1 (by omega)
  unfold readInodeAttrs
  rw [hfmt, if_neg (by omega), leNat_of_holds hnlink, leNat_of_holds hino, leNat_of_holds huid,
    leNat_of_holds hgid]
  rfl

theorem read_extended (h64 : vi.inodeIsize = 64) (hbs : erofsIflush vi attrs = some bs)
    (hold : Holds dev loc bs) :
    Holds dev loc (leBytes 2 (1 + 2 * vi.datalayout.toNat) ++
        leBytes 2 (erofsInodeXattrIcount vi.xattrIsize) ++ leBytes 2 vi.iMode) ∧
      Holds dev (loc + 8) (leBytes 8 vi.iSize) ∧ Holds dev (loc + 16) vi.iU ∧
        readInodeAttrs cfg dev loc = ⟨u32 attrs.iNlink, u32 attrs.iIno, u32 attrs.iUid,
          u32 attrs.iGid, u64 attrs.iMtime, u32 attrs.iMtimeNsec⟩ := by
  unfold erofsIflush at hbs
  simp only at hbs
  rw [if_neg (by omega), if_pos h64, Option.some.injEq] at hbs
  rw [← hbs, holds_append] at hold
  obtain ⟨hhead, hrest⟩ := hold
  simp only [holds_append, List.length_append, length_leBytes, length_iU, Nat.add_assoc,
    Nat.reduceAdd] at hrest
  obtain ⟨⟨⟨⟨⟨⟨⟨⟨⟨-, hs⟩, hu⟩, hino⟩, huid⟩, hgid⟩, hmtime⟩, hnsec⟩, hnlink⟩, -⟩ := hrest
  refine ⟨hhead, hs, hu, ?_⟩
  have hlt : vi.datalayout.toNat < 5 := by cases vi.datalayout <;> decide
  have hfmt : leNat dev loc 2 = 1 + 2 * vi.datalayout.toNat :=
    leNat_of_holds_of_lt (holds_append.mp (holds_append.mp hhead).1).1 (by omega)
  unfold readInodeAttrs
  rw [hfmt, if_pos (by omega), leNat_of_holds hnlink, leNat_of_holds hino, leNat_of_holds huid,
    leNat_of_holds hgid, leNat_of_holds hmtime, leNat_of_holds hnsec]
  rfl

end Reading

theorem xattrIbodySize_xattrIcount {size : ℕ} (h : size < 2 ^ 32) :
    erofsXattrIbodySize (u16 (erofsInodeXattrIcount size)) = size ↔ XattrFits size := by
  have hcount : u16 (erofsInodeXattrIcount size) = erofsInodeXattrIcount size := by
    unfold erofsInodeXattrIcount
    split
    · rfl
    · exact Nat.mod_mod _ _
  rw [hcount]
  by_cases hmod : size % 4 = 0
  · exact (icount_survives_iff hmod h).trans ⟨fun hfit => ⟨hmod, hfit⟩, fun hfit => hfit.2⟩
  · apply iff_of_false
    · intro heq
      unfold erofsXattrIbodySize xattrHeaderSize at heq
      split at heq <;> omega
    · exact fun hfit => hmod hfit.1

namespace InodeRun

variable {cfg : InodeConfig} {run : InodeRun cfg} {dev : Mem} {loc nid : ℕ} {bs : List UInt8}

theorem kept (run : InodeRun cfg) : Kept run.vi run.attrs run.form.inodeIsize run.final := by
  have hstart : Kept run.vi run.attrs run.form.inodeIsize (run.form, run.attrs) := by
    rw [run.form_eq]
    cases hext : erofsShouldUseInodeExtended cfg run.vi run.attrs with
    | true =>
      have hne : (if true = true then 64 else 32) ≠ 32 := by decide
      exact ⟨rfl, rfl, rfl, rfl, rfl, rfl, run.size_lt, fun h32 => absurd h32 hne, run.u_lt,
        run.xattr_lt, run.nlink_lt, fun h32 => absurd h32 hne, run.chunked⟩
    | false =>
      obtain ⟨hsize, -, -, hnlink, -⟩ := compact_fits hext run.nid_eq
      exact ⟨rfl, rfl, rfl, rfl, rfl, rfl, run.size_lt, fun _ => hsize, run.u_lt,
        run.xattr_lt, run.nlink_lt, fun _ _ => hnlink, run.chunked⟩
  exact hstart.foldl run.typed

/-- The flush writes an inode of either form. -/
theorem iflush_isSome (run : InodeRun cfg) : (erofsIflush run.final.1 run.final.2).isSome := by
  have hform := run.kept.form
  rw [run.form_eq] at hform
  unfold erofsIflush
  cases hext : erofsShouldUseInodeExtended cfg run.vi run.attrs with
  | true =>
    have h64 : run.final.1.inodeIsize = 64 := by rw [hform, hext]; rfl
    simp [h64]
  | false =>
    have h32 : run.final.1.inodeIsize = 32 := by rw [hform, hext]; rfl
    simp [h32]

theorem nlink_fits_iff (hext : erofsShouldUseInodeExtended cfg run.vi run.attrs = false) :
    u16 run.final.2.iNlink = run.final.2.iNlink ↔
      (sIfmt run.vi.iMode ≠ sIfdir → u32 (run.attrs.iNlink + run.links) < 2 ^ 16) := by
  have h32 : run.form.inodeIsize = 32 := by rw [run.form_eq, hext]; rfl
  by_cases hdir : sIfmt run.vi.iMode = sIfdir
  · have hlt := run.kept.dir_nlink_lt h32 hdir
    exact ⟨fun _ hno => absurd hdir hno, fun _ => u16_of_lt hlt⟩
  · have hform : run.form.iMode = run.vi.iMode := by rw [run.form_eq]
    have hcount := @nlink_foldl run.form (run.form, run.attrs) run.rebuild run.updates
      (by rw [hform]; exact hdir) (by rw [hform]; exact run.typed) run.nlink_lt
    change run.final.2.iNlink = u32 (run.attrs.iNlink + run.links) at hcount
    rw [hcount]
    constructor
    · intro heq _
      rw [← heq]
      exact u16_lt _
    · exact fun hfit => u16_of_lt (hfit hdir)

end InodeRun

section Inode

variable {cfg : InodeConfig} {run : InodeRun cfg} {dev : Mem} {loc nid v w : ℕ} {bs : List UInt8}

structure FieldsBack (run : InodeRun cfg) (dev : Mem) (loc : ℕ) (vi : MetaInode) : Prop where
  datalayout : vi.datalayout = run.final.1.datalayout
  mode : vi.iMode = run.final.1.iMode
  size : vi.iSize = run.final.1.iSize
  xattr : vi.xattrIsize = run.final.1.xattrIsize ↔ XattrFits run.final.1.xattrIsize
  rdev : sIfmt run.final.1.iMode ∈ sIfrdev → readRdev cfg dev loc =
    if run.final.1.datalayout = .chunkBased then
      chunkUnion cfg (u16 run.final.1.u) run.final.1.u
    else run.final.1.u

/-- The reader refuses an inode without a file type, and a device number that is taken for an
unknown chunk format. -/
def Refused (run : InodeRun cfg) : Prop :=
  sIfmt run.vi.iMode ∉ [4, 8, 10] ++ sIfdev ∨ sIfmt run.vi.iMode ∈ sIfrdev ∧
    run.final.1.datalayout = .chunkBased ∧ 2 ^ 6 ≤ u16 run.final.1.u

theorem fieldsBack (hversion : v < 2) (hwidth : w = if v = 1 then 8 else 4)
    (hsize : run.final.1.iSize < 256 ^ w)
    (h : Holds dev loc (leBytes 2 (v + 2 * run.final.1.datalayout.toNat) ++
      leBytes 2 (erofsInodeXattrIcount run.final.1.xattrIsize) ++ leBytes 2 run.final.1.iMode))
    (hs : Holds dev (loc + 8) (leBytes w run.final.1.iSize))
    (hu : Holds dev (loc + 16) run.final.1.iU) :
    Refused run ∧ (∃ e, erofsReadInodeFromDisk dev loc nid = .error e) ∨
      ¬ Refused run ∧
        ∃ vi, erofsReadInodeFromDisk dev loc nid = .ok vi ∧ FieldsBack run dev loc vi := by
  have hkept := run.kept
  have hmode : run.final.1.iMode < 2 ^ 16 := by
    rw [hkept.mode]
    exact run.mode_lt
  have hread := @readInode_of_held dev loc nid v w run.final.1 hversion hwidth hmode hkept.u_lt
    h hs hu
  rw [hkept.mode] at hread
  by_cases htype : sIfmt run.vi.iMode ∈ [4, 8, 10] ++ sIfdev
  · rw [if_neg (not_not.mpr htype), Nat.mod_eq_of_lt hsize] at hread
    by_cases hformat : run.final.1.datalayout = .chunkBased ∧ 2 ^ 6 ≤ u16 run.final.1.u
    · rw [if_pos hformat] at hread
      refine Or.inl ⟨Or.inr ⟨?_, hformat⟩, _, hread⟩
      by_contra hnot
      have hknown := hkept.chunked hformat.1 hnot
      exact absurd hformat.2 (Nat.not_le.mpr hknown)
    · rw [if_neg hformat] at hread
      refine Or.inr ⟨?_, _, hread, rfl, hkept.mode.symm, rfl,
        xattrIbodySize_xattrIcount hkept.xattr_lt, ?_⟩
      · rintro (hno | ⟨-, hno⟩)
        · exact hno htype
        · exact hformat hno
      · intro hrdev
        have hdev : sIfmt run.final.1.iMode ∈ sIfdev := by
          rcases List.mem_pair.mp hrdev with heq | heq <;> rw [heq] <;> decide
        have hfmt : leNat dev loc 2 = v + 2 * run.final.1.datalayout.toNat := by
          have hlt : run.final.1.datalayout.toNat < 5 := by
            cases run.final.1.datalayout <;> decide
          exact leNat_of_holds_of_lt (holds_append.mp (holds_append.mp h).1).1 (by omega)
        have hword := hu
        rw [MetaInode.iU, if_neg (fun hboth => hboth.2 hdev)] at hword
        unfold readRdev
        simp only
        rw [format_of_held hu, hfmt, ofFormat_toNat _ hversion, erofsNewDecodeDev_eq,
          leNat_of_holds_of_lt hword hkept.u_lt]
        simp only [Option.some.injEq]
  · rw [if_pos htype] at hread
    exact Or.inl ⟨Or.inl htype, _, hread⟩

theorem readsBack_of_fields (hlinks : (readInodeAttrs cfg dev loc).iNlink = run.final.2.iNlink ↔
      (erofsShouldUseInodeExtended cfg run.vi run.attrs = false →
        sIfmt run.vi.iMode ≠ sIfdir → u32 (run.attrs.iNlink + run.links) < 2 ^ 16))
    (huid : (readInodeAttrs cfg dev loc).iUid = run.final.2.iUid)
    (hgid : (readInodeAttrs cfg dev loc).iGid = run.final.2.iGid)
    (hmtime : cfg.ignoreMtime = false → (readInodeAttrs cfg dev loc).iMtime = run.final.2.iMtime ∧
      (readInodeAttrs cfg dev loc).iMtimeNsec = run.final.2.iMtimeNsec)
    (hfields : Refused run ∧ (∃ e, erofsReadInodeFromDisk dev loc nid = .error e) ∨
      ¬ Refused run ∧
        ∃ vi, erofsReadInodeFromDisk dev loc nid = .ok vi ∧ FieldsBack run dev loc vi) :
    run.ReadsBack dev loc nid ↔ run.Fits := by
  have hmode := run.kept.mode
  rcases hfields with ⟨hrefused, e, herr⟩ | ⟨hnot, vi, hok, hback⟩
  · apply iff_of_false
    · rintro ⟨vi, hok, -⟩
      rw [herr] at hok
      cases hok
    · intro hfits
      rcases hrefused with htype | ⟨hrdev, hchunk, hformat⟩
      · exact htype hfits.mode
      · have hfit := hfits.rdev hrdev
        rw [InodeRun.RdevFits, if_pos hchunk] at hfit
        exact absurd hfit.1 (Nat.not_lt.mpr hformat)
  · have hrdev : (sIfmt run.final.1.iMode ∈ sIfrdev → readRdev cfg dev loc = run.rdev) ↔
        (sIfmt run.vi.iMode ∈ sIfrdev → run.RdevFits) := by
      rw [hmode]
      apply imp_congr_right
      intro hin
      rw [hback.rdev (by rw [hmode]; exact hin), InodeRun.RdevFits]
      split
      next hchunk =>
        have hknown : u16 run.final.1.u < 2 ^ 6 := by
          by_contra hge
          exact hnot (Or.inr ⟨hin, hchunk, Nat.not_lt.mp hge⟩)
        exact ⟨fun heq => ⟨hknown, heq⟩, fun hfit => hfit.2⟩
      next => rfl
    constructor
    · rintro ⟨vi', hok', -, -, -, hxattr, hdev, -, -, hnlink, -⟩
      obtain rfl : vi = vi' := Except.ok.inj (hok.symm.trans hok')
      exact ⟨by_contra fun hno => hnot (Or.inl hno), hlinks.mp hnlink, hback.xattr.mp hxattr,
        hrdev.mp hdev⟩
    · rintro ⟨-, hfit, hxattr, hdev⟩
      exact ⟨vi, hok, hback.datalayout, hback.mode, hback.size, hback.xattr.mpr hxattr,
        hrdev.mpr hdev, huid, hgid, hlinks.mpr hfit, hmtime⟩

end Inode

/-- The reader finds the fields that were in memory, and the device number that the inode was given,
exactly if the mode has a file type, the links that are found behind the decision still fit a
compact inode, the xattrs have a size that the count of their words stands for, and the device
number is not overwritten. -/
theorem inode_readsBack_iff {cfg : InodeConfig} (run : InodeRun cfg) {dev : Mem} {loc nid : ℕ}
    {bs : List UInt8} (hbs : erofsIflush run.final.1 run.final.2 = some bs)
    (hold : Holds dev loc bs) : run.ReadsBack dev loc nid ↔ run.Fits := by
  have hkept := run.kept
  cases hext : erofsShouldUseInodeExtended cfg run.vi run.attrs with
  | true =>
    have h64 : run.final.1.inodeIsize = 64 := by
      rw [hkept.form, run.form_eq, hext]
      rfl
    obtain ⟨hhead, hs, hu, hattrs⟩ := @read_extended cfg _ _ dev loc _ h64 hbs hold
    refine readsBack_of_fields ?_ ?_ ?_ ?_
      (fieldsBack (v := 1) (w := 8) (by decide) rfl hkept.size_lt hhead hs hu)
    · have hne : erofsShouldUseInodeExtended cfg run.vi run.attrs ≠ false := by simp [hext]
      rw [hattrs]
      exact ⟨fun _ hno => absurd hno hne, fun _ => u32_of_lt hkept.nlink_lt⟩
    · rw [hattrs, hkept.uid]
      exact u32_of_lt run.uid_lt
    · rw [hattrs, hkept.gid]
      exact u32_of_lt run.gid_lt
    · rw [hattrs, hkept.mtime, hkept.nsec]
      exact fun _ => ⟨u64_of_lt run.mtime_lt, u32_of_lt run.nsec_lt⟩
  | false =>
    have h32 : run.final.1.inodeIsize = 32 := by
      rw [hkept.form, run.form_eq, hext]
      rfl
    obtain ⟨-, huid, hgid, -, hmtime⟩ := compact_fits hext run.nid_eq
    obtain ⟨hhead, hs, hu, hattrs⟩ := @read_compact cfg _ _ dev loc _ h32 hbs hold
    refine readsBack_of_fields ?_ ?_ ?_ ?_
      (fieldsBack (v := 0) (w := 4) (by decide) rfl (hkept.size32_lt (hkept.form ▸ h32)) hhead hs
        hu)
    · rw [hattrs]
      exact (InodeRun.nlink_fits_iff hext).trans ⟨fun h _ => h, fun h => h hext⟩
    · rw [hattrs, hkept.uid]
      exact u16_of_lt huid
    · rw [hattrs, hkept.gid]
      exact u16_of_lt hgid
    · rw [hattrs, hkept.mtime, hkept.nsec]
      exact fun hno => ⟨(hmtime hno).1.symm, (hmtime hno).2.symm⟩

/-- No option of the build asks for a form or a time. -/
def plainConfig : InodeConfig := ⟨.none, false, 12, 0, 0, 0⟩

/-- An empty regular file of the build time that the dump finds `n` times again. -/
def linkedFile (n : ℕ) : InodeRun plainConfig where
  vi := ⟨0, .flatPlain, 0, 0, 0o100644, 0, 0⟩
  attrs := ⟨1, 0, 0, 0, 0, 0⟩
  rdev := 0
  rebuild := false
  updates := List.replicate n .link
  nid_eq := rfl
  mode_lt := by decide
  size_lt := by decide
  u_lt := by decide
  xattr_lt := by decide
  uid_lt := by decide
  gid_lt := by decide
  mtime_lt := by decide
  nsec_lt := by decide
  nlink_lt := by decide
  filled := fun _ => rfl
  formed := by decide
  chunked := fun hchunk => by cases hchunk
  typed := by
    intro x hx
    rw [List.eq_of_mem_replicate hx]
    exact ⟨by decide, rfl⟩

theorem linkedFile_links (n : ℕ) : (linkedFile n).links = n := by
  change countLinks (List.replicate n .link) = n
  induction n with
  | zero => rfl
  | succ n ih =>
    rw [List.replicate_succ]
    exact (List.countP_cons_of_pos (by rfl)).trans (congrArg (· + 1) ih)

/-- A file with one more link is read back. -/
theorem linkedFile_one_readsBack :
    let bs := (erofsIflush (linkedFile 1).final.1 (linkedFile 1).final.2).get
      (linkedFile 1).iflush_isSome
    (linkedFile 1).ReadsBack (store (fun _ => 0) 1152 bs) 1152 36 := by
  have hlinks := linkedFile_links 1
  refine (inode_readsBack_iff (linkedFile 1) (Option.some_get _).symm (holds_store _ _ _)).mpr
    ⟨by decide, fun _ _ => ?_, ⟨rfl, .inl rfl⟩, fun h => absurd h (by decide)⟩
  rw [hlinks]
  decide

/-- With its 65536 links the file is read back without a link. -/
theorem inode_not_readsBack : ¬ ∀ (cfg : InodeConfig) (run : InodeRun cfg) (dev : Mem) (loc nid : ℕ)
    (bs : List UInt8), erofsIflush run.final.1 run.final.2 = some bs → Holds dev loc bs →
      run.ReadsBack dev loc nid := by
  intro hall
  have hlinks := linkedFile_links 65535
  have hsome := (Option.some_get (linkedFile 65535).iflush_isSome).symm
  have hold := holds_store (fun _ => 0) 1152
    ((erofsIflush (linkedFile 65535).final.1 (linkedFile 65535).final.2).get
      (linkedFile 65535).iflush_isSome)
  obtain ⟨_, -, -, -, -, -, -, -, -, hnlink, -⟩ := hall _ (linkedFile 65535) _ 1152 36 _ hsome hold
  have hform : (linkedFile 65535).final.1.inodeIsize = 32 := (linkedFile 65535).kept.form
  obtain ⟨-, -, -, hattrs⟩ := @read_compact plainConfig _ _ _ _ _ hform hsome hold
  rw [hattrs] at hnlink
  have hfit := (InodeRun.nlink_fits_iff (by decide)).mp hnlink (by decide)
  rw [hlinks] at hfit
  exact absurd hfit (by decide)

end InodeForm
end ErofsUtils
