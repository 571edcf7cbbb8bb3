import ErofsUtils.DirImage
import ErofsUtils.ExtractRaw
import ErofsUtils.XattrFormat

/-!
# Fixing the parent of a directory

An incremental build that moves a directory of the image below another parent rewrites the nid of
its `..` where it lies. `erofs_rebuild_inode_fix_pnid` finds the dirent in a copy of its block
that `erofs_pread` makes, and writes the copy back to an address of its own.
-/

namespace ErofsUtils
open ByteMemory CString

structure InodeAttrs where
  iNlink : ℕ
  iIno : ℕ
  iUid : ℕ
  iGid : ℕ
  iMtime : ℕ
  iMtimeNsec : ℕ

/-- The fields of `struct erofs_inode` that locate its data; `u` is the union of `i_blkaddr`,
`i_blocks`, `i_rdev` and `chunkformat`. -/
structure MetaInode where
  nid : ℕ
  datalayout : Datalayout
  inodeIsize : ℕ
  xattrIsize : ℕ
  iMode : ℕ
  iSize : ℕ
  u : ℕ

def Datalayout.toNat : Datalayout → ℕ
  | .flatPlain => 0
  | .compressedFull => 1
  | .flatInline => 2
  | .compressedCompact => 3
  | .chunkBased => 4

/-- `erofs_inode_datalayout`. -/
def Datalayout.ofFormat (ifmt : ℕ) : Option Datalayout :=
  match ifmt / 2 % 8 with
  | 0 => some .flatPlain
  | 1 => some .compressedFull
  | 2 => some .flatInline
  | 3 => some .compressedCompact
  | 4 => some .chunkBased
  | _ => none

/-- `i_mode & S_IFMT`. -/
def sIfmt (mode : ℕ) : ℕ := mode % 2 ^ 16 / 2 ^ 12

def sIfdir : ℕ := 4

/-- The types that have an `i_rdev`. -/
def sIfdev : List ℕ := [1, 2, 6, 12]

/-- The union `i_u` that `erofs_iflush` stores. -/
def MetaInode.iU (vi : MetaInode) : List UInt8 :=
  if vi.datalayout = .chunkBased ∧ sIfmt vi.iMode ∉ sIfdev then leBytes 2 vi.u ++ leBytes 2 0
  else leBytes 4 vi.u

/-- The inode that `erofs_iflush` writes; a size of neither form is a bug. -/
def erofsIflush (vi : MetaInode) (attrs : InodeAttrs) : Option (List UInt8) :=
  let icount := erofsInodeXattrIcount vi.xattrIsize
  if vi.inodeIsize = 32 then
    some (leBytes 2 (2 * vi.datalayout.toNat) ++ leBytes 2 icount ++ leBytes 2 vi.iMode ++
      (leBytes 2 attrs.iNlink ++ leBytes 4 vi.iSize ++ leBytes 4 0 ++ vi.iU ++
        leBytes 4 attrs.iIno ++ leBytes 2 attrs.iUid ++ leBytes 2 attrs.iGid ++ leBytes 4 0))
  else if vi.inodeIsize = 64 then
    some (leBytes 2 (1 + 2 * vi.datalayout.toNat) ++ leBytes 2 icount ++ leBytes 2 vi.iMode ++
      (leBytes 2 0 ++ leBytes 8 vi.iSize ++ vi.iU ++ leBytes 4 attrs.iIno ++
        leBytes 4 attrs.iUid ++ leBytes 4 attrs.iGid ++ leBytes 8 attrs.iMtime ++
        leBytes 4 attrs.iMtimeNsec ++ leBytes 4 attrs.iNlink ++ leBytes 16 0))
  else none

def erofsNewDecodeDev (dev : ℕ) : ℕ :=
  let major := dev / 2 ^ 8 % 2 ^ 12
  let minor := dev % 2 ^ 8 + dev / 2 ^ 20 * 2 ^ 8
  -- `makedev` of the two
  minor % 2 ^ 8 + major % 2 ^ 12 * 2 ^ 8 + minor / 2 ^ 8 * 2 ^ 20 + major / 2 ^ 12 * 2 ^ 44

def erofsReadInodeFromDisk (dev : Mem) (loc nid : ℕ) : Except Errno MetaInode :=
  let ifmt := leNat dev loc 2
  match Datalayout.ofFormat ifmt with
  | none => .error .eopnotsupp
  | some datalayout =>
    -- an on-disk inode is extended when the lowest bit of its format is set
    let extended := ifmt % 2 = 1
    let iU := loc + 16
    let iMode := leNat dev (loc + 4) 2
    let fmt := sIfmt iMode
    if fmt ∉ [4, 8, 10] ++ sIfdev then .error .efscorrupted
    else
      let u :=
        if datalayout = .chunkBased then leNat dev iU 2
        else if fmt ∉ sIfdev then leNat dev iU 4
        else if fmt ∈ [2, 6] then erofsNewDecodeDev (leNat dev iU 4) else 0
      if datalayout = .chunkBased ∧ 2 ^ 6 ≤ u then .error .eopnotsupp
      else .ok
        { nid := nid
          datalayout := datalayout
          inodeIsize := if extended then 64 else 32
          xattrIsize := erofsXattrIbodySize (leNat dev (loc + 2) 2)
          iMode := iMode
          iSize := leNat dev (loc + 8) (if extended then 8 else 4)
          u := u }

def MetaInode.dataInode (sbi : SbInfo) (vi : MetaInode) : DataInode where
  sbi := sbi
  zInited := false
  nid := vi.nid
  iSize := vi.iSize
  datalayout := vi.datalayout
  inodeIsize := vi.inodeIsize
  xattrIsize := vi.xattrIsize
  zAdvise := Advise.ofNat 0
  zAlgorithmtype := 0
  zLogicalClusterbits := 0
  idataSize := 0
  zTailextentHeadlcn := 0
  fragmentoff := 0
  iBlkaddr := vi.u
  chunkIndexes := vi.u.testBit 5
  chunkbits := sbi.blkszbits + vi.u % 32

/-- An image that is open for writing: `pwrite off len` bytes of a write reach the device before
`erofs_io_pwrite` returns. -/
structure ImageDev where
  env : DataEnv
  sbi : SbInfo
  pwrite : ℕ → ℕ → ℕ

def patchFile (img : List UInt8) (off : ℕ) (bs : List UInt8) : List UInt8 :=
  if bs = [] then img
  else (List.range (max img.length (off + bs.length))).map (store (fileByte img) off bs)

inductive FixErr
  | inode (e : Errno)
  | notdir
  | opnotsupp
  | read (e : DataErr)
  | invalidNameoff (nameoff nid off : ℕ)
  | dotdotNotFound (nid : ℕ)
  | write
  deriving DecidableEq

/-- `erofs_dev_write` on the primary device; leaves the bytes of the device. -/
def ImageDev.devWrite (img : ImageDev) (bs : List UInt8) (off : ℕ) :
    Except FixErr Unit × List UInt8 :=
  let written := min (img.pwrite off bs.length) bs.length
  (if written = bs.length then .ok () else .error .write,
    patchFile img.env.primary off (bs.take written))

/-- The name of the entry at `k` is `..`. -/
def isDotdotAt (buf : Mem) (nameoff count k : ℕ) : Bool :=
  let deNameoff := Dirent.nameoff buf k
  (if Dirent.isLast nameoff k then strnlen buf deNameoff (subU32 count deNameoff) = 2
    else Dirent.nameoff buf (k + 1) = deNameoff + 2) &&
  slice buf deNameoff 2 = [46, 46]

/-- The inner loop of `erofs_rebuild_inode_fix_pnid`: the index of the entry it stops at. -/
def findDotdot (buf : Mem) (nameoff count : ℕ) : ℕ → ℕ → Option ℕ
  | 0, _ => none
  | fuel + 1, k =>
    if nameoff ≤ 12 * k then none
    else if isDotdotAt buf nameoff count k then some k
    else findDotdot buf nameoff count fuel (k + 1)

/-- The outer loop of `erofs_rebuild_inode_fix_pnid` from `off` on; `stack` is what its buffer
holds at first. Leaves the result and the bytes of the device. -/
def fixPnidLoop (img : ImageDev) (stack : Mem) (dir : DataInode) (pnid : ℕ) :
    ℕ → ℕ → Option (Except FixErr Unit × List UInt8)
  | 0, _ => none
  | fuel + 1, off =>
    let bsz := img.sbi.blksz
    if dir.iSize ≤ off then some (.error (.dotdotNotFound dir.nid), img.env.primary)
    else
      let count := min bsz (dir.iSize - off)
      match erofsPreadData img.env dir count off with
      | none => none
      | some (.error e) => some (.error (.read e), img.env.primary)
      | some (.ok bytes) =>
        let buf := fillBuf stack (fileByte bytes) count
        let nameoff := Dirent.nameoff buf 0
        if nameoff < 12 ∨ count ≤ nameoff then
          some (.error (.invalidNameoff nameoff dir.nid off), img.env.primary)
        else match findDotdot buf nameoff count nameoff 0 with
          | none => fixPnidLoop img stack dir pnid fuel (u64 (off + bsz))
          | some k =>
            if Dirent.nid buf k = pnid then some (.ok (), img.env.primary)
            else
              let buf := store buf (12 * k) (leBytes 8 pnid)
              let isz := dir.inodeIsize + dir.xattrIsize
              some (img.devWrite (slice buf 0 count)
                (if dir.iSize < u64 (off + bsz) ∧ dir.datalayout = .flatInline then dir.iloc + isz
                  else img.sbi.pos dir.iBlkaddr + off))

/-- `erofs_rebuild_inode_fix_pnid` on the directory at `nid`, where `pnid` is the nid that
`erofs_lookupnid` gives for the parent. -/
def erofsRebuildInodeFixPnid (img : ImageDev) (stack : Mem) (pnid nid : ℕ) :
    Option (Except FixErr Unit × List UInt8) :=
  let loc := img.sbi.pos img.sbi.metaBlkaddr + nid * 2 ^ img.sbi.islotbits
  match erofsReadInodeFromDisk (fileByte img.env.primary) loc nid with
  | .error e => some (.error (.inode e), img.env.primary)
  | .ok vi =>
    if sIfmt vi.iMode ≠ sIfdir then some (.error .notdir, img.env.primary)
    else if vi.datalayout ≠ .flatInline ∧ vi.datalayout ≠ .flatPlain then
      some (.error .opnotsupp, img.env.primary)
    else fixPnidLoop img stack (vi.dataInode img.sbi) pnid (vi.iSize + 1) 0

/-- A directory as `mkfs` has it before it is written: a tail that does not fill its block lies
behind the inode, or in a block behind the others. -/
structure DirNode where
  sbi : SbInfo
  inode : MetaInode
  attrs : InodeAttrs
  dentries : List DirDentry
  blkszbits_ge : 9 ≤ sbi.blkszbits
  blkszbits_le : sbi.blkszbits ≤ 16
  isize : inode.inodeIsize = 32 ∨ inode.inodeIsize = 64
  xattr : erofsXattrIbodySize (u16 (erofsInodeXattrIcount inode.xattrIsize)) = inode.xattrIsize
  mode_lt : inode.iMode < 2 ^ 16
  isDir : sIfmt inode.iMode = sIfdir
  blkaddr_lt : inode.u < 2 ^ 32
  size_eq : inode.iSize = dirFileSize sbi.blksz dentries 0
  size_lt : dirBytes sbi.blksz dentries < 2 ^ 32
  layout : inode.datalayout = .flatPlain ∨
    inode.datalayout = .flatInline ∧ inode.iSize % sbi.blksz ≠ 0 ∧
      sbi.blkoff ((inode.dataInode sbi).iloc + inode.inodeIsize + inode.xattrIsize) +
        inode.iSize % sbi.blksz ≤ sbi.blksz

namespace DirNode

variable (dir : DirNode)

def iloc : ℕ := (dir.inode.dataInode dir.sbi).iloc

def tailPos : ℕ :=
  if dir.inode.datalayout = .flatInline then
    dir.iloc + dir.inode.inodeIsize + dir.inode.xattrIsize
  else dir.sbi.pos (dir.inode.u + dir.inode.iSize / dir.sbi.blksz)

/-- The image holds the directory: the inode, the blocks and the tail lie where `mkfs` writes them,
and the blobs are mapped behind the device that has them. -/
structure OnDisk (img : ImageDev) (heap : Mem) : Prop where
  sbi : img.sbi = dir.sbi
  inode : ∃ bs, erofsIflush dir.inode dir.attrs = some bs ∧
    Holds (fileByte img.env.primary) dir.iloc bs
  blocks : ∀ j bs, (erofsWriteDirFile heap dir.sbi.blksz dir.dentries).blocks[j]? = some bs →
    Holds (fileByte img.env.primary) (dir.sbi.pos (dir.inode.u + j)) bs
  tail : Holds (fileByte img.env.primary) dir.tailPos
    (erofsWriteDirFile heap dir.sbi.blksz dir.dentries).idata
  blobs : ∀ dev ∈ img.env.devs, dev.1 ≠ 0 →
    dir.tailPos + dir.inode.iSize % dir.sbi.blksz ≤ dir.sbi.pos dev.1 ∧
      ∀ j < dir.inode.iSize / dir.sbi.blksz, dir.sbi.pos (dir.inode.u + j + 1) ≤ dir.sbi.pos dev.1

def blockPos (j : ℕ) : ℕ :=
  if j = dir.inode.iSize / dir.sbi.blksz then dir.tailPos else dir.sbi.pos (dir.inode.u + j)

def direntPos (j i : ℕ) : ℕ := dir.blockPos j + 12 * i

end DirNode

section Files

theorem fileByte_patchFile (img : List UInt8) (off : ℕ) (bs : List UInt8) (k : ℕ) :
    fileByte (patchFile img off bs) k = store (fileByte img) off bs k := by
  unfold patchFile
  by_cases hnil : bs = []
  · rw [if_pos hnil, hnil]
    simp [store]
  · rw [if_neg hnil]
    by_cases hk : k < max img.length (off + bs.length)
    · rw [fileByte, List.getElem?_map, List.getElem?_range hk]
      rfl
    · rw [fileByte, List.getElem?_map, List.getElem?_eq_none (by simpa using hk)]
      rw [store_of_ge _ (by omega), fileByte, List.getElem?_eq_none (by omega)]
      rfl

theorem erofsMapDev_primary {sbi : SbInfo} {devs : List (ℕ × ℕ)} {pa : ℕ}
    (h : ∀ dev ∈ devs, dev.1 ≠ 0 → pa < sbi.pos dev.1) : erofsMapDev sbi devs pa = pa := by
  induction devs with
  | nil => rfl
  | cons dev devs ih =>
      rw [erofsMapDev, if_neg, ih (fun d hd => h d (List.mem_cons_of_mem dev hd))]
      rintro ⟨h0, hle, _⟩
      exact absurd (h dev List.mem_cons_self h0) (Nat.not_lt.mpr hle)

theorem FlatFile.pread {env : DataEnv} {vi : DataInode} {data : List UInt8} {off count : ℕ}
    (h : FlatFile env vi data) (hcount : 0 < count) (hend : off + count ≤ vi.iSize)
    (hpart : off + count ≤ flatTail vi ∨ flatTail vi ≤ off) :
    erofsPreadData env vi count off = some (.ok (fileBytes data off (off + count))) := by
  have hsize := h.size_lt
  have hraw : erofsPreadData env vi count off = erofsReadRawData env vi count off := by
    unfold erofsPreadData
    cases h.layout with
    | inl hl => rw [hl]
    | inr hl => rw [hl]
  obtain ⟨m, hm, hlook, hla, hmapped, hllen⟩ : ∃ m, erofsMapBlocks env vi { mLa := off } = .ok m ∧
      RawLookup env vi data off m ∧ m.mLa = off ∧ m.mFlags.mapped = true ∧
      m.mLlen = if off < flatTail vi then flatTail vi - off else vi.iSize - off :=
    h.lookup (show off < vi.iSize by omega) rfl
  have hlt := hlook.end_lt
  rw [hla] at hlt
  have hle : count ≤ m.mLlen := by
    rw [hllen]
    split
    · omega
    · omega
  obtain ⟨n, rfl⟩ : ∃ n, count = n + 1 := ⟨count - 1, by omega⟩
  have heend : min (off + (n + 1)) (u64 (off + m.mLlen)) = off + (n + 1) := by
    rw [u64_of_lt hlt]
    omega
  have hread := hlook.reads hmapped 0 (n + 1) (by omega) (by omega)
  rw [hla, Nat.add_zero] at hread
  rw [hraw, erofsReadRawData, u64_of_lt (by omega), erofsReadRawDataLoop, if_neg (by omega), hm]
  simp only [hmapped, not_true_eq_false, if_false, hla, heend, lt_irrefl]
  rw [Nat.add_sub_cancel_left, hread]
  exact erofsReadRawDataLoop_of_le (Nat.le_refl _)

end Files

section Reading

variable {dir : DirNode}

theorem DirNode.blksz_ge (dir : DirNode) : 512 ≤ dir.sbi.blksz :=
  Nat.pow_le_pow_right (n := 2) (by decide) dir.blkszbits_ge

theorem DirNode.blksz_le (dir : DirNode) : dir.sbi.blksz ≤ 2 ^ 16 :=
  Nat.pow_le_pow_right (by decide) dir.blkszbits_le

theorem DirNode.len_le (dir : DirNode) : ∀ d ∈ dir.dentries, d.len ≤ dir.sbi.blksz := by
  intro d _
  have hlt := d.name_lt
  have hge := dir.blksz_ge
  unfold erofsNameLen at hlt
  unfold DirDentry.len
  omega

theorem DirNode.iSize_eq (dir : DirNode) :
    dir.inode.iSize = dirBytes dir.sbi.blksz dir.dentries := by
  have hlt := dir.size_lt
  unfold dirBytes at hlt
  have hused : 0 ≤ dir.sbi.blksz := Nat.zero_le _
  have heq := dirFileSize_eq dir.dentries [] 0 hused dir.len_le (by rw [Nat.zero_add]; exact hlt)
  rw [Nat.zero_mul, Nat.zero_add, Nat.zero_add] at heq
  rw [dir.size_eq, heq]
  rfl

theorem ofFormat_toNat (dl : Datalayout) {n : ℕ} (hn : n < 2) :
    Datalayout.ofFormat (n + 2 * dl.toNat) = some dl := by
  have hdiv : (n + 2 * dl.toNat) / 2 = dl.toNat := by omega
  unfold Datalayout.ofFormat
  rw [hdiv]
  cases dl <;> rfl

theorem DirNode.notChunk (dir : DirNode) : dir.inode.datalayout ≠ .chunkBased := by
  cases dir.layout with
  | inl h => rw [h]; decide
  | inr h => rw [h.1]; decide

theorem erofsNewDecodeDev_eq (dev : ℕ) : erofsNewDecodeDev dev = dev := by
  unfold erofsNewDecodeDev
  simp only
  omega

/-- The format of chunk-based data is in the lower half of the union. -/
theorem format_of_held {dev : Mem} {pos : ℕ} {vi : MetaInode} (h : Holds dev pos vi.iU) :
    leNat dev pos 2 = u16 vi.u := by
  unfold MetaInode.iU at h
  split at h
  next => exact leNat_of_holds (holds_append.mp h).1
  next =>
    have hhalves : leBytes 4 vi.u = leBytes 2 vi.u ++ leBytes 2 (vi.u / 256 / 256) := rfl
    rw [hhalves] at h
    exact leNat_of_holds (holds_append.mp h).1

/-- The fields that the reader finds at `loc`, where the words of an inode lie. -/
theorem readInode_of_held {dev : Mem} {loc nid v w : ℕ} {vi : MetaInode} (hversion : v < 2)
    (hwidth : w = if v = 1 then 8 else 4) (hmode : vi.iMode < 2 ^ 16) (hu : vi.u < 2 ^ 32)
    (h : Holds dev loc (leBytes 2 (v + 2 * vi.datalayout.toNat) ++
      leBytes 2 (erofsInodeXattrIcount vi.xattrIsize) ++ leBytes 2 vi.iMode))
    (hs : Holds dev (loc + 8) (leBytes w vi.iSize)) (h4 : Holds dev (loc + 16) vi.iU) :
    erofsReadInodeFromDisk dev loc nid =
      if sIfmt vi.iMode ∉ [4, 8, 10] ++ sIfdev then .error .efscorrupted
      else if vi.datalayout = .chunkBased ∧ 2 ^ 6 ≤ u16 vi.u then .error .eopnotsupp
      else .ok
        { nid := nid
          datalayout := vi.datalayout
          inodeIsize := if v = 1 then 64 else 32
          xattrIsize := erofsXattrIbodySize (u16 (erofsInodeXattrIcount vi.xattrIsize))
          iMode := vi.iMode
          iSize := vi.iSize % 256 ^ w
          u := if vi.datalayout = .chunkBased then u16 vi.u
            else if sIfmt vi.iMode ∉ sIfdev ∨ sIfmt vi.iMode ∈ [2, 6] then vi.u else 0 } := by
  obtain ⟨h12, h3⟩ := holds_append.mp h
  obtain ⟨h1, h2⟩ := holds_append.mp h12
  rw [length_leBytes] at h2
  rw [List.length_append, length_leBytes, length_leBytes] at h3
  have hlt : vi.datalayout.toNat < 5 := by cases vi.datalayout <;> decide
  have hfmt : leNat dev loc 2 = v + 2 * vi.datalayout.toNat :=
    leNat_of_holds_of_lt h1 (by omega)
  have hcount : leNat dev (loc + 2) 2 = u16 (erofsInodeXattrIcount vi.xattrIsize) :=
    leNat_of_holds h2
  have hm : leNat dev (loc + 4) 2 = vi.iMode := leNat_of_holds_of_lt h3 hmode
  have hmod : (v + 2 * vi.datalayout.toNat) % 2 = v := by omega
  unfold erofsReadInodeFromDisk
  simp only [hfmt, ofFormat_toNat _ hversion, hmod, hcount, hm]
  rw [← hwidth, leNat_of_holds hs, format_of_held h4]
  split
  next => rfl
  next htype =>
    by_cases hc : vi.datalayout = .chunkBased
    · rw [if_pos hc]
      split_ifs with hformat <;> rfl
    · unfold MetaInode.iU at h4
      rw [if_neg (fun hboth => hc hboth.1)] at h4
      rw [if_neg hc, leNat_of_holds_of_lt h4 hu, erofsNewDecodeDev_eq,
        if_neg (fun hboth => hc hboth.1), if_neg hc,
        if_neg (fun hboth : vi.datalayout = .chunkBased ∧ 2 ^ 6 ≤ u16 vi.u => hc hboth.1)]
      by_cases hdev : sIfmt vi.iMode ∉ sIfdev
      · rw [if_pos hdev, if_pos (Or.inl hdev)]
      · rw [if_neg hdev]
        by_cases hrdev : sIfmt vi.iMode ∈ [2, 6]
        · rw [if_pos hrdev, if_pos (Or.inr hrdev)]
        · rw [if_neg hrdev, if_neg (not_or.mpr ⟨hdev, hrdev⟩)]

theorem readInode_of_words {dev : Mem} {loc nid v w : ℕ} {vi : MetaInode}
    (hversion : v < 2) (hchunk : vi.datalayout ≠ .chunkBased)
    (hdir : sIfmt vi.iMode = sIfdir) (hmode : vi.iMode < 2 ^ 16) (hu : vi.u < 2 ^ 32)
    (hxattr : erofsXattrIbodySize (u16 (erofsInodeXattrIcount vi.xattrIsize)) = vi.xattrIsize)
    (hisize : vi.inodeIsize = if v = 1 then 64 else 32)
    (hwidth : w = if v = 1 then 8 else 4) (hsize : vi.iSize < 256 ^ w)
    (hnid : nid = vi.nid)
    (h : Holds dev loc (leBytes 2 (v + 2 * vi.datalayout.toNat) ++
      leBytes 2 (erofsInodeXattrIcount vi.xattrIsize) ++ leBytes 2 vi.iMode))
    (hs : Holds dev (loc + 8) (leBytes w vi.iSize)) (h4 : Holds dev (loc + 16) (leBytes 4 vi.u)) :
    erofsReadInodeFromDisk dev loc nid = .ok vi := by
  have hiU : vi.iU = leBytes 4 vi.u := if_neg (fun hc => hchunk hc.1)
  rw [readInode_of_held hversion hwidth hmode hu h hs (by rw [hiU]; exact h4), hdir,
    if_neg (show ¬ sIfdir ∉ [4, 8, 10] ++ sIfdev by decide), if_neg (fun hc => hchunk hc.1), hxattr,
    ← hisize, Nat.mod_eq_of_lt hsize, if_neg hchunk,
    if_pos (Or.inl (show sIfdir ∉ sIfdev by decide)), hnid]

theorem DirNode.OnDisk.readInode {img : ImageDev} {heap : Mem} (h : dir.OnDisk img heap) :
    erofsReadInodeFromDisk (fileByte img.env.primary) dir.iloc dir.inode.nid = .ok dir.inode := by
  obtain ⟨bs, hbs, hold⟩ := h.inode
  have hsize : dir.inode.iSize < 2 ^ 32 := by
    rw [dir.iSize_eq]
    exact dir.size_lt
  have hiU : dir.inode.iU = leBytes 4 dir.inode.u := if_neg (fun hc => dir.notChunk hc.1)
  unfold erofsIflush at hbs
  simp only [hiU] at hbs
  cases dir.isize with
  | inl h32 =>
      rw [if_pos h32, Option.some.injEq] at hbs
      rw [← hbs, holds_append] at hold
      obtain ⟨hhead, hrest⟩ := hold
      simp only [holds_append, List.length_append, length_leBytes, Nat.add_assoc,
        Nat.reduceAdd] at hrest
      obtain ⟨⟨⟨⟨⟨⟨⟨-, hs⟩, -⟩, hu⟩, -⟩, -⟩, -⟩, -⟩ := hrest
      rw [← Nat.zero_add (2 * _)] at hhead
      exact readInode_of_words (v := 0) (w := 4) (by decide) dir.notChunk dir.isDir dir.mode_lt
        dir.blkaddr_lt dir.xattr h32 rfl (by omega) rfl hhead hs hu
  | inr h64 =>
      rw [if_neg (by omega), if_pos h64, Option.some.injEq] at hbs
      rw [← hbs, holds_append] at hold
      obtain ⟨hhead, hrest⟩ := hold
      simp only [holds_append, List.length_append, length_leBytes, Nat.add_assoc,
        Nat.reduceAdd] at hrest
      obtain ⟨⟨⟨⟨⟨⟨⟨⟨⟨-, hs⟩, hu⟩, -⟩, -⟩, -⟩, -⟩, -⟩, -⟩, -⟩ := hrest
      exact readInode_of_words (v := 1) (w := 8) (by decide) dir.notChunk dir.isDir dir.mode_lt
        dir.blkaddr_lt dir.xattr h64 rfl (by omega) rfl hhead hs hu

def DirNode.vi (dir : DirNode) : DataInode := dir.inode.dataInode dir.sbi

theorem blkRoundUp_eq_div (sbi : SbInfo) (n : ℕ) :
    sbi.blkRoundUp n = n / sbi.blksz + if n % sbi.blksz = 0 then 0 else 1 := by
  have hb := sbi.blksz_pos
  have hmod := Nat.mod_lt n hb
  unfold SbInfo.blkRoundUp
  conv_lhs => rw [← Nat.div_add_mod' n sbi.blksz]
  by_cases h0 : n % sbi.blksz = 0
  · rw [if_pos h0, h0, Nat.add_zero, Nat.add_comm, Nat.add_mul_div_right _ _ hb,
      Nat.div_eq_of_lt (by omega), Nat.zero_add, Nat.add_zero]
  · have hsplit : n / sbi.blksz * sbi.blksz + n % sbi.blksz + (sbi.blksz - 1) =
        (n % sbi.blksz - 1) + (n / sbi.blksz + 1) * sbi.blksz := by
      rw [Nat.succ_mul]
      omega
    rw [if_neg h0, hsplit, Nat.add_mul_div_right _ _ hb, Nat.div_eq_of_lt (by omega),
      Nat.zero_add]

theorem DirNode.flatTail_eq (dir : DirNode) :
    dir.inode.datalayout = .flatPlain ∧ dir.inode.iSize ≤ flatTail dir.vi ∨
      dir.inode.datalayout = .flatInline ∧
        flatTail dir.vi = dir.inode.iSize / dir.sbi.blksz * dir.sbi.blksz := by
  have hb : 0 < dir.sbi.blksz := dir.sbi.blksz_pos
  have hlt : dir.inode.iSize < 2 ^ 32 := by
    rw [dir.iSize_eq]
    exact dir.size_lt
  have hge := dir.blksz_ge
  have hdm := Nat.div_add_mod' dir.inode.iSize dir.sbi.blksz
  have hmod := Nat.mod_lt dir.inode.iSize hb
  have hdiv : dir.inode.iSize / dir.sbi.blksz < 2 ^ 31 := by
    rw [Nat.div_lt_iff_lt_mul hb]
    omega
  have hround := blkRoundUp_eq_div dir.sbi dir.inode.iSize
  have hu : u32 (dir.sbi.blkRoundUp dir.inode.iSize) = dir.sbi.blkRoundUp dir.inode.iSize := by
    apply u32_of_lt
    rw [hround]
    split <;> omega
  have htail : flatTail dir.vi = dir.sbi.pos (dir.sbi.blkRoundUp dir.inode.iSize -
      if dir.inode.datalayout = .flatInline then 1 else 0) := by
    change dir.sbi.pos (u32 (dir.sbi.blkRoundUp dir.inode.iSize) - _) = _
    rw [hu]
    rfl
  rw [htail]
  cases dir.layout with
  | inl hplain =>
      refine Or.inl ⟨hplain, ?_⟩
      rw [if_neg (by rw [hplain]; decide), Nat.sub_zero, hround]
      unfold SbInfo.pos
      split
      · rw [Nat.add_zero]
        omega
      · rw [Nat.succ_mul]
        omega
  | inr hinline =>
      refine Or.inr ⟨hinline.1, ?_⟩
      rw [if_pos hinline.1, hround, if_neg hinline.2.1, Nat.add_sub_cancel]
      rfl

/-- Where a byte of the directory is read is where it was written. -/
theorem DirNode.flatPa_eq (dir : DirNode) {j i : ℕ} (hi : i < dir.sbi.blksz)
    (hlt : j * dir.sbi.blksz + i < dir.inode.iSize) :
    flatPa dir.vi (j * dir.sbi.blksz + i) = dir.blockPos j + i := by
  have hb : 0 < dir.sbi.blksz := dir.sbi.blksz_pos
  have hdm := Nat.div_add_mod' dir.inode.iSize dir.sbi.blksz
  have hmod := Nat.mod_lt dir.inode.iSize hb
  have hpos (n : ℕ) : dir.sbi.pos (dir.inode.u + n) =
      dir.sbi.pos dir.inode.u + n * dir.sbi.blksz := Nat.add_mul _ _ _
  have hj : j < dir.inode.iSize / dir.sbi.blksz ∨ j = dir.inode.iSize / dir.sbi.blksz := by
    have hle : j ≤ dir.inode.iSize / dir.sbi.blksz := by
      rw [Nat.le_div_iff_mul_le hb]
      omega
    omega
  have hblock (hplain : j * dir.sbi.blksz + i < flatTail dir.vi) :
      flatPa dir.vi (j * dir.sbi.blksz + i) = dir.sbi.pos (dir.inode.u + j) + i := by
    rw [flatPa, if_pos hplain, hpos, Nat.add_assoc]
    rfl
  unfold DirNode.blockPos
  cases hj with
  | inl hfull =>
      rw [if_neg hfull.ne]
      apply hblock
      have hmul : (j + 1) * dir.sbi.blksz ≤
          dir.inode.iSize / dir.sbi.blksz * dir.sbi.blksz := Nat.mul_le_mul_right _ hfull
      rw [Nat.succ_mul] at hmul
      cases dir.flatTail_eq with
      | inl h => omega
      | inr h => omega
  | inr hlast =>
      rw [if_pos hlast, DirNode.tailPos]
      cases dir.flatTail_eq with
      | inl h =>
          rw [if_neg (by rw [h.1]; decide), ← hlast]
          exact hblock (by omega)
      | inr h =>
          rw [if_pos h.1, flatPa, if_neg (by rw [h.2, ← hlast]; omega)]
          change _ + dir.sbi.blkoff (j * dir.sbi.blksz + i) = _
          unfold SbInfo.blkoff
          rw [Nat.mul_add_mod_self_right, Nat.mod_eq_of_lt hi]
          rfl

def DirNode.data (dir : DirNode) (env : DataEnv) : List UInt8 :=
  (List.range dir.inode.iSize).map fun i => fileByte env.primary (flatPa dir.vi i)

theorem DirNode.fileByte_data (dir : DirNode) (env : DataEnv) {i : ℕ} (hi : i < dir.inode.iSize) :
    fileByte (dir.data env) i = fileByte env.primary (flatPa dir.vi i) := by
  conv_lhs => rw [fileByte, DirNode.data, List.getElem?_map, List.getElem?_range hi]
  rfl

variable {img : ImageDev} {heap : Mem}

/-- No byte of the directory is in the range of a blob. -/
theorem DirNode.OnDisk.mapDev (h : dir.OnDisk img heap) {i : ℕ} (hi : i < dir.inode.iSize) :
    erofsMapDev dir.sbi img.env.devs (flatPa dir.vi i) = flatPa dir.vi i := by
  have hb : 0 < dir.sbi.blksz := dir.sbi.blksz_pos
  apply erofsMapDev_primary
  intro dev hdev h0
  obtain ⟨htail, hblocks⟩ := h.blobs dev hdev h0
  have hdm := Nat.div_add_mod' i dir.sbi.blksz
  have hdm' := Nat.div_add_mod' dir.inode.iSize dir.sbi.blksz
  have hmod := Nat.mod_lt i hb
  have hpa := dir.flatPa_eq (j := i / dir.sbi.blksz) hmod (by omega)
  rw [hdm] at hpa
  rw [hpa]
  unfold DirNode.blockPos
  by_cases hlast : i / dir.sbi.blksz = dir.inode.iSize / dir.sbi.blksz
  · rw [hlast] at hdm
    rw [if_pos hlast]
    omega
  · have hle : i / dir.sbi.blksz ≤ dir.inode.iSize / dir.sbi.blksz := Nat.div_le_div_right hi.le
    have hend := hblocks (i / dir.sbi.blksz) (by omega)
    have hnext : dir.sbi.pos (dir.inode.u + i / dir.sbi.blksz + 1) =
        dir.sbi.pos (dir.inode.u + i / dir.sbi.blksz) + dir.sbi.blksz := Nat.succ_mul _ _
    rw [if_neg hlast]
    omega

theorem DirNode.OnDisk.flatFile (h : dir.OnDisk img heap) :
    FlatFile img.env dir.vi (dir.data img.env) := by
  have hb : 0 < dir.sbi.blksz := dir.sbi.blksz_pos
  have hlt : dir.inode.iSize < 2 ^ 32 := by
    rw [dir.iSize_eq]
    exact dir.size_lt
  have hge := dir.blksz_ge
  have hdm := Nat.div_add_mod' dir.inode.iSize dir.sbi.blksz
  have hmod := Nat.mod_lt dir.inode.iSize hb
  constructor
  · cases dir.layout with
    | inl hl => exact Or.inl hl
    | inr hl => exact Or.inr hl.1
  · exact dir.blkszbits_le
  · rw [DirNode.data, List.length_map, List.length_range]
    rfl
  · change dir.inode.iSize < 2 ^ 63
    omega
  · change dir.sbi.blkRoundUp dir.inode.iSize < 2 ^ 32
    have hdiv : dir.inode.iSize / dir.sbi.blksz < 2 ^ 31 := by
      rw [Nat.div_lt_iff_lt_mul hb]
      omega
    rw [blkRoundUp_eq_div]
    split <;> omega
  · intro i j hij hpart
    change i + j < dir.inode.iSize at hij
    change erofsMapDev dir.sbi _ _ = erofsMapDev dir.sbi _ _ + j
    rw [h.mapDev hij, h.mapDev (show i < dir.inode.iSize by omega)]
    unfold flatPa
    cases hpart with
    | inl hlt => rw [if_pos hlt, if_pos (by omega), Nat.add_assoc]
    | inr hge =>
        have hend : dir.inode.iSize < flatTail dir.vi + dir.sbi.blksz := by
          cases dir.flatTail_eq with
          | inl ht => omega
          | inr ht => omega
        rw [if_neg (by omega), if_neg (by omega),
          blkoff_tail dir.vi hge (by exact lt_trans (by omega) hend),
          blkoff_tail dir.vi (by omega) (by exact lt_trans hij hend)]
        omega
  · intro i hi
    change fileByte img.env.primary (erofsMapDev dir.sbi _ _) = _
    rw [h.mapDev hi, dir.fileByte_data img.env hi]
  · intro htail
    cases dir.flatTail_eq with
    | inl ht => exact absurd htail (Nat.not_lt.mpr ht.2)
    | inr ht =>
        cases dir.layout with
        | inl hl =>
            rw [hl] at ht
            exact absurd ht.1 (by decide)
        | inr hl =>
            have h0 : dir.vi.sbi.blkoff (flatTail dir.vi) = 0 := by
              rw [ht.2]
              exact Nat.mul_mod_left _ _
            rw [flatPa, if_neg (lt_irrefl _), h0, Nat.add_zero, ht.2]
            change _ + (dir.inode.iSize - _) ≤ _
            have hcut : dir.inode.iSize - dir.inode.iSize / dir.sbi.blksz * dir.sbi.blksz =
                dir.inode.iSize % dir.sbi.blksz := by omega
            rw [hcut]
            exact hl.2.2

end Reading

def nameDotdot : FileName := [46, 46]

section Search

variable {mem : Mem} {size : ℕ} {ds : List DirDentry} (h : DirBlockHeld mem size ds)
  (hfit : dirUsed ds ≤ size) (hsize : size ≤ 2 ^ 16)

include h hfit hsize

theorem DirBlockHeld.isDotdotAt_iff {i : ℕ} {d : DirDentry} (hi : ds[i]? = some d) :
    isDotdotAt mem (12 * ds.length) size i = true ↔ d.name = nameDotdot := by
  have hoff := h.nameoff hfit hsize hi
  have hlt := (namesLen_take_le hi).1
  have hlen : isDotdotAt mem (12 * ds.length) size i =
      (decide (d.name.length = 2) && decide (slice mem (nameoffOf ds i) 2 = [46, 46])) := by
    unfold isDotdotAt
    simp only [hoff]
    by_cases hlast : ds.length = i + 1
    · rw [if_pos (by simp [Dirent.isLast]; omega), h.strnlen_last hfit hsize hi hlast]
    · have hi' : ds[i + 1]? = some ds[i + 1] := List.getElem?_eq_getElem (by omega)
      rw [if_neg (by simp [Dirent.isLast]; omega), h.nameoff hfit hsize hi', nameoffOf_succ hi]
      simp
  rw [hlen, Bool.and_eq_true, decide_eq_true_iff, decide_eq_true_iff]
  have hname := slice_of_holds (h.name i d hi) rfl
  constructor
  · rintro ⟨h2, hs⟩
    rw [h2] at hname
    rw [← hname, hs]
    rfl
  · intro hd
    rw [hd] at hname ⊢
    exact ⟨rfl, hname⟩

/-- The search goes over the entries in turn and stops at the first `..`. -/
theorem DirBlockHeld.findDotdot (fuel k : ℕ) (hfuel : ds.length < fuel + k) :
    (∃ i d, ds[i]? = some d ∧ d.name = nameDotdot ∧
      findDotdot mem (12 * ds.length) size fuel k = some i) ∨
    findDotdot mem (12 * ds.length) size fuel k = none ∧
      ∀ i d, k ≤ i → ds[i]? = some d → d.name ≠ nameDotdot := by
  induction fuel generalizing k with
  | zero =>
      refine Or.inr ⟨rfl, ?_⟩
      intro i d hk hi
      have := (List.getElem?_eq_some_iff.mp hi).1
      omega
  | succ fuel ih =>
      rw [ErofsUtils.findDotdot]
      by_cases hend : 12 * ds.length ≤ 12 * k
      · refine Or.inr ⟨if_pos hend, ?_⟩
        intro i d hk hi
        have := (List.getElem?_eq_some_iff.mp hi).1
        omega
      · have hk : ds[k]? = some ds[k] := List.getElem?_eq_getElem (by omega)
        have hiff := h.isDotdotAt_iff hfit hsize hk
        rw [if_neg hend]
        by_cases hdot : isDotdotAt mem (12 * ds.length) size k = true
        · rw [if_pos hdot]
          exact Or.inl ⟨k, _, hk, hiff.mp hdot, rfl⟩
        · rw [if_neg hdot]
          cases ih (k + 1) (by omega) with
          | inl hfound => exact Or.inl hfound
          | inr hnone =>
              refine Or.inr ⟨hnone.1, ?_⟩
              intro i d hle hi
              cases Nat.lt_or_eq_of_le hle with
              | inl hlt => exact hnone.2 i d hlt hi
              | inr heq =>
                  subst heq
                  rw [hk, Option.some.injEq] at hi
                  rw [← hi]
                  exact fun hd => hdot (hiff.mpr hd)

end Search

section Blocks

variable {dir : DirNode} {img : ImageDev} {heap : Mem}

structure BlockRead (dir : DirNode) (img : ImageDev) (stack : Mem) (j : ℕ) (ds : List DirDentry)
    (size : ℕ) (bytes : List UInt8) : Prop where
  size_eq : size = min dir.sbi.blksz (dir.inode.iSize - j * dir.sbi.blksz)
  pread : erofsPreadData img.env dir.vi size (j * dir.sbi.blksz) = some (.ok bytes)
  same : ∀ i < size, fillBuf stack (fileByte bytes) size i =
    fileByte img.env.primary (dir.blockPos j + i)
  used_le : dirUsed ds ≤ size
  ne : ds ≠ []
  held : DirBlockHeld (fillBuf stack (fileByte bytes) size) size ds

theorem DirNode.OnDisk.readBlock (h : dir.OnDisk img heap) (stack : Mem) {j : ℕ}
    {ds : List DirDentry} (hj : (dirBlocks dir.sbi.blksz dir.dentries)[j]? = some ds) :
    ∃ size bytes, BlockRead dir img stack j ds size bytes := by
  have hb : 0 < dir.sbi.blksz := dir.sbi.blksz_pos
  have hdm := Nat.div_add_mod' dir.inode.iSize dir.sbi.blksz
  have hmod := Nat.mod_lt dir.inode.iSize hb
  obtain ⟨size, hw⟩ := blockWritten heap hb dir.len_le hj
  have hsize := hw.size_eq
  have hpos : 0 < size := by
    have hle := hw.used_le
    have hne := List.length_pos_iff.mpr hw.ne
    rw [dirUsed_eq] at hle
    omega
  have hfull := hw.full
  have htail := hw.tail
  rw [← dir.iSize_eq] at hsize hfull htail
  have hpart : j * dir.sbi.blksz + size ≤ flatTail dir.vi ∨
      flatTail dir.vi ≤ j * dir.sbi.blksz := by
    cases dir.flatTail_eq with
    | inl ht => exact Or.inl (by omega)
    | inr ht =>
        rw [ht.2]
        by_cases hlt : j < dir.inode.iSize / dir.sbi.blksz
        · have hmul := Nat.mul_le_mul_right dir.sbi.blksz hlt
          rw [Nat.succ_mul] at hmul
          exact Or.inl (by omega)
        · exact Or.inr (Nat.mul_le_mul_right _ (Nat.le_of_not_lt hlt))
  have hread := h.flatFile.pread hpos
    (show j * dir.sbi.blksz + size ≤ dir.inode.iSize by omega) hpart
  have hsame : ∀ i < size, fillBuf stack (fileByte (fileBytes (dir.data img.env)
      (j * dir.sbi.blksz) (j * dir.sbi.blksz + size))) size i =
        fileByte img.env.primary (dir.blockPos j + i) := by
    intro i hi
    rw [fillBuf, if_pos hi, fileByte, getElem?_fileBytes (by omega), Option.getD_some,
      dir.fileByte_data img.env (by omega), dir.flatPa_eq (by omega) (by omega)]
  have hheld : Holds (fileByte img.env.primary) (dir.blockPos j)
      (fillDirblock heap size (12 * ds.length) ds) := by
    unfold DirNode.blockPos
    by_cases hlt : j < dir.inode.iSize / dir.sbi.blksz
    · rw [if_neg hlt.ne]
      exact h.blocks j _ (hfull hlt)
    · obtain ⟨hlast, hidata⟩ := htail hlt
      rw [if_pos hlast, ← hidata]
      exact h.tail
  refine ⟨size, _, hsize, hread, hsame, hw.used_le, hw.ne, ?_⟩
  refine fillDirblock_held hw.used_le (?_ : Holds _ 0 (fillDirblock heap size _ ds))
  intro i b hi
  have hlt : i < size := by
    have := (List.getElem?_eq_some_iff.mp hi).1
    rwa [fillDirblock, length_slice] at this
  rw [Nat.zero_add, hsame i hlt]
  exact hheld i b hi

/-- The entry at index `i` of block `j` is `..`. -/
def DirNode.DotdotAt (dir : DirNode) (j i : ℕ) : Prop :=
  ∃ ds d, (dirBlocks dir.sbi.blksz dir.dentries)[j]? = some ds ∧ ds[i]? = some d ∧
    d.name = nameDotdot

/-- The device `after` differs from the image in a nid only. -/
structure NidStored (img : ImageDev) (pos pnid : ℕ) (after : List UInt8) : Prop where
  stored : leNat (fileByte after) pos 8 = pnid
  frame : ∀ k, k < pos ∨ pos + 8 ≤ k → fileByte after k = fileByte img.env.primary k

theorem nidStored_of_store {pos pnid : ℕ} {after : List UInt8} (hpnid : pnid < 2 ^ 64)
    (h : ∀ k, fileByte after k = store (fileByte img.env.primary) pos (leBytes 8 pnid) k) :
    NidStored img pos pnid after := by
  constructor
  · apply leNat_of_holds_of_lt _ (by omega)
    apply holds_congr _ (holds_store (fileByte img.env.primary) pos (leBytes 8 pnid))
    intro k _ _
    exact h k
  · intro k hk
    rw [h k]
    cases hk with
    | inl hlt => exact store_of_lt _ hlt
    | inr hge => exact store_of_ge _ (by rw [length_leBytes]; exact hge)

variable {stack : Mem} {j size : ℕ} {ds : List DirDentry} {bytes : List UInt8}

theorem BlockRead.dirent_le (h : BlockRead dir img stack j ds size bytes) {i : ℕ}
    (hi : i < ds.length) : 12 * i + 12 ≤ size := by
  have hle := h.used_le
  rw [dirUsed_eq] at hle
  omega

/-- The copy that is written back differs from the block in the nid only. -/
theorem BlockRead.devWrite (h : BlockRead dir img stack j ds size bytes) {i pnid : ℕ}
    (hi : i < ds.length)
    (hret : (img.devWrite (slice (store (fillBuf stack (fileByte bytes) size) (12 * i)
      (leBytes 8 pnid)) 0 size) (dir.blockPos j)).1 = .ok ()) (k : ℕ) :
    fileByte (img.devWrite (slice (store (fillBuf stack (fileByte bytes) size) (12 * i)
      (leBytes 8 pnid)) 0 size) (dir.blockPos j)).2 k =
    store (fileByte img.env.primary) (dir.direntPos j i) (leBytes 8 pnid) k := by
  have hle := h.dirent_le hi
  unfold ImageDev.devWrite at hret ⊢
  simp only at hret ⊢
  split at hret
  · next hall =>
    rw [hall, List.take_length, fileByte_patchFile]
    unfold DirNode.direntPos
    by_cases hin : dir.blockPos j ≤ k ∧ k < dir.blockPos j + size
    · have hsame := h.same (k - dir.blockPos j) (by omega)
      rw [Nat.add_sub_cancel' hin.1] at hsame
      rw [store, if_pos hin.1, getElem?_slice_of_lt _ _ _ (show k - dir.blockPos j < size by omega),
        Option.getD_some, Nat.zero_add, store, store, hsame]
      by_cases hge : 12 * i ≤ k - dir.blockPos j
      · rw [if_pos hge, if_pos (by omega), Nat.sub_sub]
      · rw [if_neg hge, if_neg (by omega)]
    · by_cases hlt : k < dir.blockPos j
      · rw [store_of_lt _ hlt, store_of_lt _ (by omega)]
      · rw [store_of_ge _ (by rw [length_slice]; omega),
          store_of_ge _ (by rw [length_leBytes]; omega)]
  · cases hret

theorem ImageDev.devWrite_full (hfull : ∀ off len, len ≤ img.pwrite off len) (bs : List UInt8)
    (off : ℕ) : (img.devWrite bs off).1 = .ok () := by
  unfold ImageDev.devWrite
  exact if_pos (Nat.min_eq_right (hfull off bs.length))

theorem DirNode.writeAddr_eq (dir : DirNode) (hj : j * dir.sbi.blksz < dir.inode.iSize) :
    (if dir.inode.iSize < j * dir.sbi.blksz + dir.sbi.blksz ∧
        dir.inode.datalayout = .flatInline then
      dir.iloc + (dir.inode.inodeIsize + dir.inode.xattrIsize)
    else dir.sbi.pos dir.inode.u + j * dir.sbi.blksz) = dir.blockPos j := by
  have hb : 0 < dir.sbi.blksz := dir.sbi.blksz_pos
  have hdm := Nat.div_add_mod' dir.inode.iSize dir.sbi.blksz
  have hmod := Nat.mod_lt dir.inode.iSize hb
  have hpos (n : ℕ) : dir.sbi.pos (dir.inode.u + n) =
      dir.sbi.pos dir.inode.u + n * dir.sbi.blksz := Nat.add_mul _ _ _
  have hle : j ≤ dir.inode.iSize / dir.sbi.blksz := by
    rw [Nat.le_div_iff_mul_le hb]
    omega
  unfold DirNode.blockPos DirNode.tailPos
  cases Nat.lt_or_eq_of_le hle with
  | inl hfull =>
      have hmul := Nat.mul_le_mul_right dir.sbi.blksz hfull
      rw [Nat.succ_mul] at hmul
      rw [if_neg (fun h => by omega), if_neg hfull.ne, hpos]
  | inr hlast =>
      rw [if_pos hlast]
      by_cases hinline : dir.inode.datalayout = .flatInline
      · rw [if_pos ⟨by rw [hlast]; omega, hinline⟩, if_pos hinline, Nat.add_assoc]
      · rw [if_neg (fun h => hinline h.2), if_neg hinline, hpos, hlast]

inductive FixEnd (dir : DirNode) (img : ImageDev) (pnid j : ℕ) (ret : Except FixErr Unit)
    (after : List UInt8) : Prop
  | found (b i : ℕ) (dotdot : dir.DotdotAt b i)
      (stored : ret = .ok () → NidStored img (dir.direntPos b i) pnid after)
      (succeeds : (∀ off len, len ≤ img.pwrite off len) → ret = .ok ())
  | notFound (ret_eq : ret = .error (.dotdotNotFound dir.inode.nid))
      (none : ∀ b ds d, j ≤ b → (dirBlocks dir.sbi.blksz dir.dentries)[b]? = some ds →
        d ∈ ds → d.name ≠ nameDotdot)

theorem DirNode.block_lt (dir : DirNode) {b : ℕ} {ds : List DirDentry}
    (hb : (dirBlocks dir.sbi.blksz dir.dentries)[b]? = some ds) :
    b * dir.sbi.blksz < dir.inode.iSize := by
  obtain ⟨size, hw⟩ := blockWritten (fun _ => 0) dir.sbi.blksz_pos dir.len_le hb
  have hle := hw.used_le
  have hne := List.length_pos_iff.mpr hw.ne
  have hsize := hw.size_eq
  rw [← dir.iSize_eq] at hsize
  rw [dirUsed_eq] at hle
  omega

theorem BlockRead.turn (h : BlockRead dir img stack j ds size bytes) (hsbi : img.sbi = dir.sbi)
    (hlt : j * dir.sbi.blksz < dir.inode.iSize) (pnid fuel : ℕ) :
    fixPnidLoop img stack dir.vi pnid (fuel + 1) (j * dir.sbi.blksz) =
      match findDotdot (fillBuf stack (fileByte bytes) size) (12 * ds.length) size
        (12 * ds.length) 0 with
      | none => fixPnidLoop img stack dir.vi pnid fuel ((j + 1) * dir.sbi.blksz)
      | some k =>
        if Dirent.nid (fillBuf stack (fileByte bytes) size) k = pnid then
          some (.ok (), img.env.primary)
        else some (img.devWrite (slice (store (fillBuf stack (fileByte bytes) size) (12 * k)
          (leBytes 8 pnid)) 0 size) (dir.blockPos j)) := by
  have hsize : dir.inode.iSize < 2 ^ 32 := by
    rw [dir.iSize_eq]
    exact dir.size_lt
  have hle := dir.blksz_le
  have hused := h.used_le
  have hmin := h.size_eq
  have hread := h.pread
  obtain ⟨d, h0⟩ : ∃ d, ds[0]? = some d :=
    ⟨_, List.getElem?_eq_getElem (List.length_pos_iff.mpr h.ne)⟩
  have hfirst : nameoffOf ds 0 = 12 * ds.length := by
    rw [nameoffOf, List.take_zero, namesLen_nil, Nat.add_zero]
  have hoff := h.held.nameoff hused (by omega) h0
  have hname := nameoffOf_add_le h0
  have hpos := d.length_name_pos
  have hn := List.length_pos_iff.mpr h.ne
  rw [hfirst] at hoff hname
  have hu : u64 (j * dir.sbi.blksz + dir.sbi.blksz) = j * dir.sbi.blksz + dir.sbi.blksz :=
    u64_of_lt (by omega)
  have haddr : (if dir.vi.iSize < j * dir.sbi.blksz + dir.sbi.blksz ∧
      dir.vi.datalayout = .flatInline then dir.vi.iloc + (dir.vi.inodeIsize + dir.vi.xattrIsize)
      else dir.sbi.pos dir.vi.iBlkaddr + j * dir.sbi.blksz) = dir.blockPos j := dir.writeAddr_eq hlt
  have hcount : min dir.sbi.blksz (dir.vi.iSize - j * dir.sbi.blksz) = size := hmin.symm
  rw [fixPnidLoop, hsbi, if_neg (show ¬ dir.vi.iSize ≤ _ from Nat.not_le.mpr hlt)]
  simp only [hcount, hread, hoff]
  rw [if_neg (by omega), hu, haddr, Nat.succ_mul j]

theorem DirNode.OnDisk.fixPnidLoop (h : dir.OnDisk img heap) (stack : Mem) {pnid : ℕ}
    (hpnid : pnid < 2 ^ 64) (fuel j : ℕ) (hpos : 0 < fuel)
    (hfuel : dir.inode.iSize < fuel + j * dir.sbi.blksz) :
    ∃ ret after, fixPnidLoop img stack dir.vi pnid fuel (j * dir.sbi.blksz) = some (ret, after) ∧
      FixEnd dir img pnid j ret after := by
  induction fuel generalizing j with
  | zero => exact absurd hpos (lt_irrefl 0)
  | succ fuel ih =>
      by_cases hend : dir.inode.iSize ≤ j * dir.sbi.blksz
      · refine ⟨_, _, if_pos hend, FixEnd.notFound rfl ?_⟩
        intro b ds d hjb hb _
        have hlt := dir.block_lt hb
        have hmul := Nat.mul_le_mul_right dir.sbi.blksz hjb
        omega
      · have hlt := Nat.lt_of_not_le hend
        have hle := dir.blksz_le
        have hge := dir.blksz_ge
        obtain ⟨ds, hds⟩ := exists_dirBlock dir.len_le
          (show j * dir.sbi.blksz < dirBytes dir.sbi.blksz dir.dentries by rwa [← dir.iSize_eq])
        obtain ⟨size, bytes, hblock⟩ := h.readBlock stack hds
        have hsz := hblock.size_eq
        have hn := List.length_pos_iff.mpr hblock.ne
        rw [hblock.turn h.sbi hlt]
        cases hblock.held.findDotdot hblock.used_le (by omega) (12 * ds.length) 0 (by omega) with
        | inl hfound =>
            obtain ⟨i, d, hi, hd, hfind⟩ := hfound
            have hlen := (List.getElem?_eq_some_iff.mp hi).1
            have hentry : dir.DotdotAt j i := ⟨ds, d, hds, hi, hd⟩
            rw [hfind]
            simp only
            by_cases hsame : Dirent.nid (fillBuf stack (fileByte bytes) size) i = pnid
            · rw [if_pos hsame]
              refine ⟨_, _, rfl, FixEnd.found j i hentry ?_ (fun _ => rfl)⟩
              intro _
              refine ⟨?_, fun k _ => rfl⟩
              have hplace := hblock.dirent_le hlen
              rw [← hsame]
              apply leNat_congr
              intro k hk
              rw [hblock.same (12 * i + k) (by omega), DirNode.direntPos, Nat.add_assoc]
            · rw [if_neg hsame]
              refine ⟨_, _, rfl, FixEnd.found j i hentry ?_ ?_⟩
              · intro hret
                exact nidStored_of_store hpnid (hblock.devWrite hlen hret)
              · intro hfull
                exact ImageDev.devWrite_full hfull _ _
        | inr hnone =>
            rw [hnone.1]
            obtain ⟨ret, after, hrun, hfix⟩ := ih (j + 1) (by omega) (by rw [Nat.succ_mul]; omega)
            refine ⟨ret, after, hrun, ?_⟩
            cases hfix with
            | found b i hentry hstored hsucc => exact FixEnd.found b i hentry hstored hsucc
            | notFound hret hnames =>
                refine FixEnd.notFound hret ?_
                intro b es d hjb hb hd
                cases Nat.lt_or_eq_of_le hjb with
                | inl hlt' => exact hnames b es d hlt' hb hd
                | inr heq =>
                    subst heq
                    rw [hds, Option.some.injEq] at hb
                    subst hb
                    obtain ⟨i, hi⟩ := List.getElem?_of_mem hd
                    exact hnone.2 i d (Nat.zero_le i) hi

end Blocks

/-- When the fix-up succeeds, the dirent of `..` has the nid of the parent where the directory
lies, and every other byte of the image is what it was. It fails, on a device that takes all
writes, when no name is `..`. -/
theorem erofsRebuildInodeFixPnid_frame {dir : DirNode} {img : ImageDev} {heap : Mem}
    (h : dir.OnDisk img heap) (stack : Mem) {pnid : ℕ} (hpnid : pnid < 2 ^ 64) :
    ∃ ret after, erofsRebuildInodeFixPnid img stack pnid dir.inode.nid = some (ret, after) ∧
      (ret = .ok () → ∃ j i, dir.DotdotAt j i ∧ NidStored img (dir.direntPos j i) pnid after) ∧
      ((∀ off len, len ≤ img.pwrite off len) → ret ≠ .ok () →
        ∀ d ∈ dir.dentries, d.name ≠ nameDotdot) := by
  have hread := h.readInode
  have hloc : img.sbi.pos img.sbi.metaBlkaddr + dir.inode.nid * 2 ^ img.sbi.islotbits =
      dir.iloc := by
    rw [h.sbi]
    rfl
  obtain ⟨ret, after, hrun, hend⟩ :=
    h.fixPnidLoop stack hpnid (dir.inode.iSize + 1) 0 (Nat.succ_pos _) (by omega)
  rw [Nat.zero_mul] at hrun
  refine ⟨ret, after, ?_, ?_, ?_⟩
  · unfold erofsRebuildInodeFixPnid
    simp only [hloc, hread]
    rw [if_neg (not_not.mpr dir.isDir), if_neg, h.sbi]
    · exact hrun
    · rintro ⟨h1, h2⟩
      cases dir.layout with
      | inl hl => exact h2 hl
      | inr hl => exact h1 hl.1
  · intro hok
    cases hend with
    | found j i hentry hstored _ => exact ⟨j, i, hentry, hstored hok⟩
    | notFound hret _ =>
        rw [hret] at hok
        cases hok
  · intro hfull hne d hd
    cases hend with
    | found _ _ _ _ hsucc => exact absurd (hsucc hfull) hne
    | notFound _ hnone =>
        rw [← flatten_dirBlocks dir.len_le, List.mem_flatten] at hd
        obtain ⟨ds, hds, hd⟩ := hd
        obtain ⟨b, hb⟩ := List.getElem?_of_mem hds
        exact hnone b ds d (Nat.zero_le b) hb hd

section Image

theorem holds_fileByte (front bs : List UInt8) :
    Holds (fileByte (front ++ bs)) front.length bs := by
  intro i b hi
  rw [fileByte, List.getElem?_append_right (Nat.le_add_right _ _), Nat.add_sub_cancel_left, hi]
  rfl

/-- A directory with `.` and `..` behind its inode, in blocks of 512 bytes. -/
def smallDir : DirNode where
  sbi := { blkszbits := 9, islotbits := 5, metaBlkaddr := 0, bigPcluster := false }
  inode :=
    { nid := 1, datalayout := .flatInline, inodeIsize := 32, xattrIsize := 0, iMode := 16877,
      iSize := 27, u := 2 ^ 32 - 1 }
  attrs := { iNlink := 2, iIno := 1, iUid := 0, iGid := 0, iMtime := 0, iMtimeNsec := 0 }
  dentries := [⟨1, 2, [46], by decide, by decide, by decide⟩,
    ⟨5, 2, [46, 46], by decide, by decide, by decide⟩]
  blkszbits_ge := by decide
  blkszbits_le := by decide
  isize := Or.inl rfl
  xattr := by decide
  mode_lt := by decide
  isDir := by decide
  blkaddr_lt := by decide
  size_eq := by decide
  size_lt := by decide
  layout := by decide

def smallInode : List UInt8 := (erofsIflush smallDir.inode smallDir.attrs).getD []

def smallTail : List UInt8 := (erofsWriteDirFile (fun _ => 0) 512 smallDir.dentries).idata

def smallImage : ImageDev where
  env :=
    { devs := [], deviceIdMask := 0, blobs := []
      primary := (List.replicate 32 0 ++ smallInode) ++ smallTail
      decoder := fun _ _ => .error .eopnotsupp
      packedPread := fun _ _ => .error .eopnotsupp }
  sbi := smallDir.sbi
  pwrite := fun _ len => len

theorem smallDir_onDisk : smallDir.OnDisk smallImage (fun _ => 0) := by
  constructor
  · rfl
  · refine ⟨smallInode, by decide, ?_⟩
    have hrest := holds_fileByte (List.replicate 32 0) (smallInode ++ smallTail)
    rw [← List.append_assoc] at hrest
    exact (holds_append.mp hrest).1
  · intro j bs hj
    have hnil : (erofsWriteDirFile (fun _ => 0) smallDir.sbi.blksz smallDir.dentries).blocks =
        [] := by
      decide
    rw [hnil] at hj
    cases hj
  · exact holds_fileByte (List.replicate 32 0 ++ smallInode) smallTail
  · intro dev hdev
    cases hdev

/-- The parent of the directory becomes inode 9. -/
theorem erofsRebuildInodeFixPnid_frame_small : ∃ after,
    erofsRebuildInodeFixPnid smallImage (fun _ => 0) 9 1 = some (.ok (), after) ∧
      ∃ j i, smallDir.DotdotAt j i ∧ NidStored smallImage (smallDir.direntPos j i) 9 after := by
  obtain ⟨ret, after, hrun, hok, hfail⟩ := erofsRebuildInodeFixPnid_frame smallDir_onDisk
    (fun _ => 0) (show 9 < 2 ^ 64 by decide)
  have hret : ret = .ok () := by
    by_contra hne
    exact hfail (fun _ _ => le_refl _) hne ⟨5, 2, [46, 46], by decide, by decide, by decide⟩
      (by simp [smallDir]) rfl
  rw [hret] at hrun hok
  exact ⟨after, hrun, hok rfl⟩

end Image

end ErofsUtils
