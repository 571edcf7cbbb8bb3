import ErofsUtils.XattrWalk

/-!
# What fsck accepts of an xattr area

`erofs_verify_xattr` goes over the shared ids and the entries of an area with a counter of what is
left, which is signed: where the shared ids take more than there is, it goes below zero and the
area passes. Where they fit, an area that passes is filled by whole entries, and the walks of the
reader over it find no corruption.
-/

namespace ErofsUtils
open ByteMemory CString

/-- The device as positions of 64 bits address it. -/
def XattrDev.byteMem (dev : XattrDev) : Mem := fun p => dev.mem (u64 p)

section Verify

variable (dev : XattrDev) (sb : XattrSb)

/-- The loop of `erofs_verify_xattr` over the shared ids: the position behind them and what is
left. -/
def verifySharedXattrs : ℕ → ℕ → ℕ → ℤ → Except ℤ (ℕ × ℤ)
  | 0, _, addr, remaining => .ok (addr, remaining)
  | n + 1, ofs, addr, remaining =>
    if sb.blksiz < ofs then .error eFsCorrupted
    else
      let ofs := if sb.blksiz ≤ ofs then 0 else ofs
      verifySharedXattrs n (ofs + 4) (addr + 4) (remaining - 4)

/-- The loop of `erofs_verify_xattr` over the entries. A position is cut to 64 bits where it is
read. -/
def verifyXattrEntries : ℕ → ℕ → ℤ → ℤ
  | 0, _, _ => 0
  | fuel + 1, addr, remaining =>
    if remaining ≤ 0 then 0
    else match dev.erofsDevRead addr 4 with
      | .error err => err
      | .ok buf =>
        let entrySz := (XattrEntry.decode buf 0).size
        if remaining < entrySz then eFsCorrupted
        else verifyXattrEntries fuel (addr + entrySz) (remaining - entrySz)

def erofsVerifyXattr (vi : XattrInode) : ℤ :=
  if vi.xattrIsize = xattrHeaderSize then eFsCorrupted
  else if vi.xattrIsize < xattrHeaderSize ∧ vi.xattrIsize ≠ 0 then eFsCorrupted
  else
    let addr := vi.xattrPos sb
    match dev.erofsDevRead addr xattrHeaderSize with
    | .error err => err
    | .ok buf =>
      match verifySharedXattrs sb (buf 4).toNat (u64 addr % sb.blksiz + xattrHeaderSize)
          (addr + xattrHeaderSize) (vi.xattrIsize - xattrHeaderSize) with
      | .error err => err
      | .ok (addr, remaining) => verifyXattrEntries dev remaining.toNat addr remaining

end Verify

/-- What the header and the shared ids of the area at a position take. -/
def xattrHeaderSpan (mem : Mem) (pos : ℕ) : ℕ := xattrHeaderSize + 4 * (mem (pos + 4)).toNat

/-- An area of a header, the shared ids that the header counts, and whole entries. -/
def WholeXattrArea (mem : Mem) (pos isize : ℕ) : Prop :=
  xattrHeaderSpan mem pos ≤ isize ∧
    ∃ rs, XattrEntries mem (pos + xattrHeaderSpan mem pos) (isize - xattrHeaderSpan mem pos) rs

def XattrDev.withErrors (dev : XattrDev) (readErr : ℕ → ℕ → Option ℤ)
    (h : ∀ pos len err, readErr pos len = some err → err < 0) : XattrDev :=
  { dev with readErr, readErr_neg := h }

/-- No call of the reader finds the area corrupted, whichever reads fail. -/
def ReadsUncorrupted (dev : XattrDev) (sb : XattrSb) (vi : XattrInode) : Prop :=
  ∀ readErr h, let dev := dev.withErrors readErr h
    (∀ name buffer size, (erofsGetxattr dev sb vi name buffer size).1 ≠ eFsCorrupted) ∧
      ∀ buffer size, (erofsListxattr dev sb vi buffer size).1 ≠ eFsCorrupted

section Positions

variable {dev : XattrDev} {sb : XattrSb} {vi : XattrInode}

theorem xattrPos_mod (sb : XattrSb) (vi : XattrInode) : vi.xattrPos sb % 32 = 0 := by
  have hblk : sb.metaBlkaddr * sb.blksiz % 32 = 0 := by
    have h32 : 32 ∣ sb.blksiz := by
      have h := (blksiz_spec sb).1
      omega
    exact Nat.mod_eq_zero_of_dvd (h32.mul_left _)
  have hsize : vi.inodeIsize % 32 = 0 := by
    unfold XattrInode.inodeIsize
    split <;> rfl
  rw [XattrInode.xattrPos, XattrInode.iloc, u64]
  omega

/-- An iterator at the area of an inode has the whole header in its block. -/
theorem header_inside {it : XattrIter} (hat : it.At dev sb (vi.xattrPos sb))
    (hlt : it.ofs < sb.blksiz) : it.ofs + xattrHeaderSize ≤ sb.blksiz := by
  have h32 : 32 ∣ sb.blksiz := by
    have h := (blksiz_spec sb).1
    omega
  have hpos := hat.pos_eq.of_dvd (h32.mul_left (2 ^ 32))
  have hblk : it.blkaddr * sb.blksiz % 32 = 0 := Nat.mod_eq_zero_of_dvd (h32.mul_left _)
  have hmod := xattrPos_mod sb vi
  unfold Nat.ModEq at hpos
  rw [xattrHeaderSize]
  omega

/-- The two ways to address the device agree on its first blocks. -/
theorem byteMem_eq_blockMem {p : ℕ} (h : p < 2 ^ 32 * sb.blksiz) :
    dev.byteMem p = dev.blockMem sb p := by
  have hle := Nat.le_of_dvd (by decide) (blocks_dvd sb)
  rw [XattrDev.byteMem, XattrDev.blockMem, u64_of_lt (by omega), Nat.mod_eq_of_lt h]

end Positions

section Whole

variable {mem mem' : Mem} {pos len : ℕ}

theorem decode_congr (h : ∀ k < 4, mem' (pos + k) = mem (pos + k)) :
    XattrEntry.decode mem' pos = XattrEntry.decode mem pos := by
  have hbyte (k w : ℕ) (hk : k + w ≤ 4) : leNat mem' (pos + k) w = leNat mem (pos + k) w := by
    apply leNat_congr
    intro j hj
    rw [Nat.add_assoc]
    exact h (k + j) (by omega)
  have h0 := hbyte 0 1 (by decide)
  rw [Nat.add_zero] at h0
  rw [XattrEntry.decode, XattrEntry.decode, h0, hbyte 1 1 (by decide), hbyte 2 2 (by decide)]

theorem four_le_size (e : XattrEntry) : 4 ≤ e.size := by
  have hle : 4 + e.eNameLen + e.eValueSize ≤ e.size := le_roundUp (by decide)
  omega

theorem XattrEntries.congr {rs : List XattrRecord} (hrs : XattrEntries mem pos len rs)
    (h : ∀ k, pos ≤ k → k < pos + len → mem' k = mem k) :
    ∃ rs', XattrEntries mem' pos len rs' := by
  induction hrs with
  | nil pos => exact ⟨[], .nil pos⟩
  | @cons pos len rs rest ih =>
      have hsize : (XattrRecord.read mem' pos).size = (XattrRecord.read mem pos).size := by
        have h4 := four_le_size (XattrRecord.read mem pos).entry
        have hlen : 4 ≤ (XattrRecord.read mem pos).size := h4
        have hdec : XattrEntry.decode mem' pos = XattrEntry.decode mem pos :=
          decode_congr fun k hk => h (pos + k) (by omega) (by omega)
        rw [XattrRecord.size, XattrRecord.size, XattrRecord.entry_read, XattrRecord.entry_read, hdec]
      obtain ⟨rs', hrs'⟩ := ih fun k hk hlt => h k (by omega) (by omega)
      rw [← hsize] at hrs' ⊢
      exact ⟨_, .cons hrs'⟩

theorem WholeXattrArea.congr {isize : ℕ} (harea : WholeXattrArea mem pos isize)
    (h : ∀ k, pos ≤ k → k < pos + isize → mem' k = mem k) : WholeXattrArea mem' pos isize := by
  obtain ⟨hle, rs, hrs⟩ := harea
  have hspan : xattrHeaderSpan mem' pos = xattrHeaderSpan mem pos := by
    have h12 : xattrHeaderSize ≤ xattrHeaderSpan mem pos := Nat.le_add_right _ _
    rw [xattrHeaderSize] at h12
    rw [xattrHeaderSpan, xattrHeaderSpan, h (pos + 4) (by omega) (by omega)]
  rw [WholeXattrArea, hspan]
  exact ⟨hle, hrs.congr fun k hk hlt => h k (by omega) (by omega)⟩

end Whole

section Accepted

variable {dev : XattrDev} {sb : XattrSb} {vi : XattrInode}

theorem verifySharedXattrs_spec {n ofs addr : ℕ} {remaining : ℤ} (h4 : ofs % 4 = 0)
    (hofs : ofs ≤ sb.blksiz) :
    verifySharedXattrs sb n ofs addr remaining = .ok (addr + 4 * n, remaining - 4 * n) := by
  induction n generalizing ofs addr remaining with
  | zero => simp [verifySharedXattrs]
  | succ n ih =>
      have hblk := blksiz_spec sb
      rw [verifySharedXattrs, if_neg (Nat.not_lt.mpr hofs)]
      dsimp only
      rw [ih (by split <;> omega) (by split <;> omega)]
      congr 2
      · omega
      · push_cast
        ring

theorem verifyXattrEntries_sound {fuel addr len : ℕ} (h4 : addr % 4 = 0) (hfuel : len ≤ fuel)
    (h : verifyXattrEntries dev fuel addr len = 0) :
    ∃ rs, XattrEntries dev.byteMem addr len rs := by
  induction fuel generalizing addr len with
  | zero =>
      obtain rfl : len = 0 := by omega
      exact ⟨[], .nil addr⟩
  | succ fuel ih =>
      rw [verifyXattrEntries] at h
      split at h
      · obtain rfl : len = 0 := by omega
        exact ⟨[], .nil addr⟩
      unfold XattrDev.erofsDevRead at h
      cases herr : dev.readErr (u64 addr) 4 with
      | some err =>
          rw [herr] at h
          have hneg := dev.readErr_neg _ _ _ herr
          dsimp only at h
          omega
      | none =>
          rw [herr] at h
          dsimp only at h
          -- an aligned entry does not wrap around
          have hdec : XattrEntry.decode (fun i => dev.mem (u64 addr + i)) 0 =
              XattrEntry.decode dev.byteMem addr := by
            have hbyte (k : ℕ) (hk : k < 4) : dev.byteMem (addr + k) = dev.mem (u64 addr + k) := by
              rw [XattrDev.byteMem]
              congr 1
              rw [u64, u64]
              omega
            have hw (k w : ℕ) (hk : k + w ≤ 4) :
                leNat (fun i => dev.mem (u64 addr + i)) k w = leNat dev.byteMem (addr + k) w := by
              apply leNat_congr
              intro j hj
              rw [Nat.add_assoc, hbyte (k + j) (by omega)]
            have h0 := hw 0 1 (by decide)
            rw [Nat.add_zero] at h0
            rw [XattrEntry.decode, XattrEntry.decode, h0, hw (0 + 1) 1 (by decide),
              hw (0 + 2) 2 (by decide)]
          rw [hdec] at h
          split at h
          · exact absurd h (by decide)
          · next hfits =>
              have hsize : (XattrEntry.decode dev.byteMem addr).size =
                  (XattrRecord.read dev.byteMem addr).size := by
                rw [XattrRecord.size, XattrRecord.entry_read]
              have hpos := (XattrRecord.read dev.byteMem addr).size_pos
              have hmod := (XattrRecord.read dev.byteMem addr).size_mod
              rw [hsize] at h hfits
              obtain ⟨rest, rfl⟩ : ∃ rest, len = (XattrRecord.read dev.byteMem addr).size + rest :=
                Nat.exists_eq_add_of_le (by omega)
              rw [show (((XattrRecord.read dev.byteMem addr).size + rest : ℕ) : ℤ) -
                (XattrRecord.read dev.byteMem addr).size = (rest : ℕ) by push_cast; ring] at h
              obtain ⟨rs, hrs⟩ := ih (by omega) (by omega) h
              exact ⟨_, .cons hrs⟩

theorem xattrIsize_of_accepted (hpos : 0 < vi.xattrIsize)
    (h : erofsVerifyXattr dev sb vi = 0) : xattrHeaderSize < vi.xattrIsize := by
  unfold erofsVerifyXattr at h
  split at h
  · exact absurd h (by decide)
  · split at h
    · exact absurd h (by decide)
    · omega

/-- An area that passes is whole exactly when the shared ids fit in it. -/
theorem wholeXattrArea_iff (hpos : 0 < vi.xattrIsize) (h : erofsVerifyXattr dev sb vi = 0) :
    WholeXattrArea dev.byteMem (vi.xattrPos sb) vi.xattrIsize ↔
      xattrHeaderSpan dev.byteMem (vi.xattrPos sb) ≤ vi.xattrIsize := by
  have h12 := xattrIsize_of_accepted hpos h
  refine ⟨fun harea => harea.1, fun hle => ⟨hle, ?_⟩⟩
  unfold erofsVerifyXattr at h
  rw [if_neg h12.ne', if_neg (by omega)] at h
  unfold XattrDev.erofsDevRead at h
  dsimp only at h
  cases herr : dev.readErr (u64 (vi.xattrPos sb)) xattrHeaderSize with
  | some err =>
      rw [herr] at h
      have hneg := dev.readErr_neg _ _ _ herr
      dsimp only at h
      omega
  | none =>
      rw [herr] at h
      dsimp only at h
      have hmod := xattrPos_mod sb vi
      have hblk := blksiz_spec sb
      have hbyte : dev.mem (u64 (vi.xattrPos sb) + 4) = dev.byteMem (vi.xattrPos sb + 4) := by
        rw [XattrDev.byteMem]
        congr 1
        rw [u64, u64]
        omega
      have hofs : u64 (vi.xattrPos sb) % sb.blksiz % 32 = 0 := by
        rw [Nat.mod_mod_of_dvd _ (by omega), u64]
        omega
      have hlt := Nat.mod_lt (u64 (vi.xattrPos sb)) (blksiz_pos sb)
      rw [hbyte, verifySharedXattrs_spec (by rw [xattrHeaderSize]; omega)
        (by rw [xattrHeaderSize]; omega)] at h
      dsimp only at h
      have hspan : xattrHeaderSpan dev.byteMem (vi.xattrPos sb) =
          xattrHeaderSize + 4 * (dev.byteMem (vi.xattrPos sb + 4)).toNat := rfl
      generalize xattrHeaderSpan dev.byteMem (vi.xattrPos sb) = span at hspan hle ⊢
      have hrest : ((vi.xattrIsize : ℤ) - xattrHeaderSize -
          4 * (dev.byteMem (vi.xattrPos sb + 4)).toNat) = ((vi.xattrIsize - span : ℕ) : ℤ) := by
        omega
      rw [hrest, Int.toNat_natCast, Nat.add_assoc (vi.xattrPos sb), ← hspan] at h
      refine verifyXattrEntries_sound ?_ le_rfl h
      rw [hspan, xattrHeaderSize]
      omega

end Accepted

section Reader

variable {dev : XattrDev} {sb : XattrSb} {vi : XattrInode}

def XattrDev.sharedIds (dev : XattrDev) (sb : XattrSb) (vi : XattrInode) : List ℕ :=
  let pos := vi.xattrPos sb
  (List.range (dev.blockMem sb (pos + 4)).toNat).map fun i =>
    leNat (dev.blockMem sb) (pos + xattrHeaderSize + 4 * i) 4

theorem readSharedXattrs_spec {n pos : ℕ} {it : XattrIter} (hat : it.At dev sb pos)
    (h4 : pos % 4 = 0) (hofs : it.ofs ≤ sb.blksiz) :
    dev.Reads (readSharedXattrs dev sb n it) fun ids =>
      ids = (List.range n).map fun i => leNat (dev.blockMem sb) (pos + 4 * i) 4 := by
  induction n generalizing pos it with
  | zero => exact rfl
  | succ n ih =>
      have hblk := blksiz_spec sb
      have hstep : dev.Reads
          (if it.ofs < sb.blksiz then .ok it else xattrIterRead dev sb (u32 (it.blkaddr + 1)) 0)
          fun it' => it'.At dev sb pos ∧ it'.ofs < sb.blksiz := by
        split
        · next hlt => exact ⟨hat, hlt⟩
        · next hge =>
            have hend : it.ofs = sb.blksiz := le_antisymm hofs (Nat.not_lt.mp hge)
            have hnext : u32 (it.blkaddr + 1) * sb.blksiz + 0 ≡ pos [MOD 2 ^ 32 * sb.blksiz] := by
              have hpos := hat.pos_eq
              rw [hend, ← Nat.succ_mul] at hpos
              exact (u32_block_modEq sb _).trans hpos
            refine (xattrIterRead_spec (u32_lt _) hnext).imp ?_
            rintro it' ⟨hat', h0⟩
            exact ⟨hat', h0 ▸ blksiz_pos sb⟩
      rw [readSharedXattrs]
      cases hr : (if it.ofs < sb.blksiz then Except.ok it
          else xattrIterRead dev sb (u32 (it.blkaddr + 1)) 0) with
      | error err =>
          rw [hr] at hstep
          exact hstep
      | ok it' =>
          rw [hr] at hstep
          obtain ⟨hat', hlt⟩ := hstep
          have hmod := hat'.ofs_mod
          have hrest := ih (hat'.add 4) (by omega) (by dsimp only; omega)
          dsimp only
          cases hids : readSharedXattrs dev sb n { it' with ofs := it'.ofs + 4 } with
          | error err =>
              rw [hids] at hrest
              exact hrest
          | ok ids =>
              rw [hids] at hrest
              have hid := hat'.leNat_eq (k := 0) (w := 4) (by omega)
              rw [Nat.add_zero, Nat.add_zero] at hid
              change leNat it'.kaddr it'.ofs 4 :: ids = _
              rw [List.range_succ_eq_map, List.map_cons, List.map_map, hid, hrest]
              congr 1
              apply List.map_congr_left
              intro i _
              simp only [Function.comp_apply, Nat.mul_succ]
              congr 1
              omega

theorem initInodeXattrs_spec (h : xattrHeaderSize < vi.xattrIsize) :
    dev.Reads (initInodeXattrs dev sb vi) fun ids => ids = dev.sharedIds sb vi := by
  have hread := xattrIterAt_spec dev sb (vi.xattrPos sb)
  unfold initInodeXattrs
  rw [if_neg h.ne', if_neg (by omega)]
  cases hr : xattrIterAt dev sb (vi.xattrPos sb) with
  | error err =>
      rw [hr] at hread
      exact hread
  | ok it =>
      rw [hr] at hread
      obtain ⟨hat, hlt⟩ := hread
      have hroom := header_inside hat hlt
      have hmod := xattrPos_mod sb vi
      have h12 : xattrHeaderSize = 12 := rfl
      dsimp only
      rw [hat.kaddr_eq (by omega)]
      exact readSharedXattrs_spec (hat.add xattrHeaderSize) (by omega) hroom

theorem inlineXattrIterPre_spec {ids : List ℕ}
    (h : inlinexattrHeaderSize ids < vi.xattrIsize) :
    dev.Reads (inlineXattrIterPre dev sb vi ids) fun r =>
      r.1.At dev sb (vi.xattrPos sb + inlinexattrHeaderSize ids) ∧
        r.2 = vi.xattrIsize - inlinexattrHeaderSize ids := by
  have hread := xattrIterAt_spec dev sb (vi.xattrPos sb + inlinexattrHeaderSize ids)
  unfold inlineXattrIterPre
  rw [if_neg (Nat.not_le.mpr h)]
  cases hr : xattrIterAt dev sb (vi.xattrPos sb + inlinexattrHeaderSize ids) with
  | error err =>
      rw [hr] at hread
      exact hread
  | ok it =>
      rw [hr] at hread
      exact ⟨hread.1, rfl⟩

theorem inlinexattrHeaderSize_eq (dev : XattrDev) (sb : XattrSb) (vi : XattrInode) :
    inlinexattrHeaderSize (dev.sharedIds sb vi) =
      xattrHeaderSpan (dev.blockMem sb) (vi.xattrPos sb) := by
  rw [inlinexattrHeaderSize, XattrDev.sharedIds, List.length_map, List.length_range,
    xattrHeaderSpan]

theorem inlinexattrHeaderSize_mod (ids : List ℕ) : inlinexattrHeaderSize ids % 4 = 0 := by
  rw [inlinexattrHeaderSize, xattrHeaderSize]
  omega

end Reader

section Codes

variable {dev : XattrDev} {sb : XattrSb} {vi : XattrInode}
variable {σ : Type*} {op : XattrIterHandlers σ} {p : ℤ → Prop}

theorem XattrIterHandlers.handles_of_codes (hentry : ∀ e st, p (op.entry e st).1)
    (hname : ∀ k bs st, p (op.name k bs st).1) (halloc : ∀ n st, p (op.allocBuffer n st).1)
    (h0 : p 0) (r : XattrRecord) (st : σ) : op.Handles r st fun err _ => p err := by
  refine ⟨fun _ => hentry _ _, fun _ => ⟨fun _ _ => True, trivial, ?_, ?_⟩⟩
  · intro k len st _ _
    dsimp only
    split
    · trivial
    · exact hname _ _ _
  · intro st _
    refine ⟨fun _ => halloc _ _, fun _ => ⟨fun _ _ => True, trivial, ?_, ?_⟩⟩
    · intro _ _ _ _ _
      trivial
    · intro _ _
      exact h0

theorem XattrIterHandlers.Handles.imp {r : XattrRecord} {st : σ} {q q' : ℤ → σ → Prop}
    (h : op.Handles r st q) (hq : ∀ err st, q err st → q' err st) : op.Handles r st q' := by
  obtain ⟨hstop, hgo⟩ := h
  refine ⟨fun he => hq _ _ (hstop he), fun he => ?_⟩
  obtain ⟨I, hI, hname, halloc⟩ := hgo he
  refine ⟨I, hI, ?_, ?_⟩
  · intro k len st hst hle
    have hcall := hname k len st hst hle
    dsimp only at hcall ⊢
    split
    · next h0 => rwa [if_pos h0] at hcall
    · next h0 =>
        rw [if_neg h0] at hcall
        exact hq _ _ hcall
  · intro st hst
    obtain ⟨hastop, hago⟩ := halloc st hst
    refine ⟨fun ha => hq _ _ (hastop ha), fun ha => ?_⟩
    obtain ⟨J, hJ, hvalue, hend⟩ := hago ha
    exact ⟨J, hJ, hvalue, fun st hst => hq _ _ (hend st hst)⟩

theorem foreachRet_ne {err : ℤ} (h : err ≠ eFsCorrupted) : foreachRet err ≠ eFsCorrupted := by
  unfold foreachRet
  split
  · exact h
  · decide

/-- Callbacks that never report a corruption keep the loops from it. -/
theorem keeps_uncorrupted (h : ∀ r st, op.Handles r st fun err _ => err ≠ eFsCorrupted)
    (next : ℤ) : op.Keeps next (fun _ _ => True) fun ret _ => ret ≠ eFsCorrupted := by
  intro r rs st _
  refine (h r st).imp fun err _ herr => ?_
  dsimp only
  split
  · trivial
  · exact foreachRet_ne herr

theorem findXattrHandlers_uncorrupted (sb : XattrSb) (r : XattrRecord) (st : GetxattrIter) :
    (findXattrHandlers sb).Handles r st fun err _ => err ≠ eFsCorrupted := by
  refine XattrIterHandlers.handles_of_codes ?_ ?_ ?_ (by decide) r st
  · intro e st
    change (xattrEntrymatch sb e st).1 ≠ _
    unfold xattrEntrymatch
    repeat' split
    all_goals simp [eNoAttr, eFsCorrupted]
  · intro k bs st
    change (xattrNamematch k bs st).1 ≠ _
    unfold xattrNamematch
    split <;> simp [eNoAttr, eFsCorrupted]
  · intro n st
    change (if st.buffer.isNone then 1 else if st.bufferSize < n then eRange else 0) ≠ _
    repeat' split
    all_goals simp [eRange, eFsCorrupted]

theorem listXattrHandlers_uncorrupted (sb : XattrSb) (r : XattrRecord) (st : ListxattrIter) :
    (listXattrHandlers sb).Handles r st fun err _ => err ≠ eFsCorrupted := by
  refine XattrIterHandlers.handles_of_codes ?_ ?_ ?_ (by decide) r st
  · intro e st
    change (xattrEntrylist sb e st).1 ≠ _
    unfold xattrEntrylist
    dsimp only
    repeat' split
    all_goals simp [eRange, eFsCorrupted]
  · intro k bs st
    exact (by decide : (0 : ℤ) ≠ eFsCorrupted)
  · intro n st
    exact (by decide : (1 : ℤ) ≠ eFsCorrupted)

theorem XattrDev.Done.uncorrupted {next : ℤ} {r : ℤ × σ} (hnext : next ≠ eFsCorrupted)
    (h : dev.Done next (fun _ _ => True) (fun ret _ => ret ≠ eFsCorrupted) r) :
    r.1 ≠ eFsCorrupted := by
  rcases h with ⟨hio, -⟩ | ⟨hend, -⟩ | ⟨-, h⟩
  · rw [hio]
    decide
  · rwa [hend]
  · exact h

theorem inline_uncorrupted {it : XattrIter} {st : σ} {pos remaining : ℕ} {next : ℤ}
    (hop : ∀ r st, op.Handles r st fun err _ => err ≠ eFsCorrupted) (hnext : next ≠ eFsCorrupted)
    (hio : next ≠ eIo) (hat : it.At dev sb pos) (h4 : pos % 4 = 0) (hpos : 0 < remaining)
    (hrs : ∃ rs, XattrEntries (dev.blockMem sb) pos remaining rs) :
    (xattrInlineLoop dev sb op next remaining remaining it st remaining).1 ≠ eFsCorrupted := by
  obtain ⟨rs, hrs⟩ := hrs
  refine XattrDev.Done.uncorrupted hnext (xattrInlineLoop_rule (keeps_uncorrupted hop next) hrs hat
    h4 le_rfl trivial ?_ hio)
  intro hnil
  exact absurd (hrs.nil_iff.mp hnil) hpos.ne'

theorem shared_uncorrupted {ids : List ℕ} {st : σ} {next : ℤ}
    (hop : ∀ r st, op.Handles r st fun err _ => err ≠ eFsCorrupted) (hnext : next ≠ eFsCorrupted)
    (hio : next ≠ eIo) :
    (xattrSharedLoop dev sb op next ids next none st).1 ≠ eFsCorrupted :=
  XattrDev.Done.uncorrupted hnext (xattrSharedLoop_rule (keeps_uncorrupted hop next) nofun trivial
    (fun _ => rfl) hio)

/-- Callbacks that let the walk go on make it find entries that are not whole. -/
theorem xattrInlineLoop_corrupted {p : σ → Prop} {fuel remaining pos : ℕ} {ret : ℤ}
    {it : XattrIter} {st : σ} (hdev : ¬ dev.Fails)
    (hop : ∀ r st, p st → op.Handles r st fun err st' => foreachRet err = 0 ∧ p st')
    (hat : it.At dev sb pos) (h4 : pos % 4 = 0) (hfuel : remaining ≤ fuel) (hst : p st)
    (hrs : ¬ ∃ rs, XattrEntries (dev.blockMem sb) pos remaining rs) :
    (xattrInlineLoop dev sb op 0 fuel ret it st remaining).1 = eFsCorrupted := by
  induction fuel generalizing pos remaining ret it st with
  | zero =>
      obtain rfl : remaining = 0 := by omega
      exact absurd ⟨[], .nil pos⟩ hrs
  | succ fuel ih =>
      have hmore : remaining ≠ 0 := by
        rintro rfl
        exact hrs ⟨[], .nil pos⟩
      have hsize := (XattrRecord.read (dev.blockMem sb) pos).size_pos
      have hmod := (XattrRecord.read (dev.blockMem sb) pos).size_mod
      have hwalk := @xattrForeach_rule _ _ _ _ _ _ _ _ (some remaining) hat h4 (hop _ _ hst)
      rw [xattrInlineLoop, if_neg hmore]
      dsimp only
      generalize xattrForeach dev sb op it st (some remaining) = r at hwalk ⊢
      rcases hwalk with ⟨-, hfails⟩ | ⟨hcorrupt, -⟩ | ⟨⟨err, herr, h0, hst'⟩, hat', hfits, htl⟩
      · exact absurd hfails hdev
      · rw [if_pos (by rw [hcorrupt]; decide), hcorrupt]
      · rw [herr, h0, if_neg (by decide), htl, Option.map_some, Option.getD_some]
        refine ih hat' (by omega) (by omega) hst' ?_
        rintro ⟨rs, hrs'⟩
        have hcons := XattrEntries.cons hrs'
        rw [Nat.add_sub_cancel' (hfits _ rfl)] at hcons
        exact hrs ⟨_, hcons⟩

theorem listXattrHandlers_counts (sb : XattrSb) (r : XattrRecord) (st : ListxattrIter)
    (hst : st.buffer = none) :
    (listXattrHandlers sb).Handles r st fun err st' => foreachRet err = 0 ∧ st'.buffer = none := by
  have hentry : ((listXattrHandlers sb).entry r.entry st).1 = 1 ∧
      ((listXattrHandlers sb).entry r.entry st).2.buffer = none := by
    change (xattrEntrylist sb r.entry st).1 = 1 ∧ (xattrEntrylist sb r.entry st).2.buffer = none
    unfold xattrEntrylist
    split
    · exact ⟨rfl, hst⟩
    · split
      · exact ⟨rfl, hst⟩
      · simp [hst]
  refine ⟨fun _ => ⟨?_, hentry.2⟩, fun h => absurd (hentry.1.symm.trans h) (by decide)⟩
  rw [hentry.1]
  rfl

/-- The entries behind the shared ids are whole where the reader looks for them. -/
def ReaderArea (dev : XattrDev) (sb : XattrSb) (vi : XattrInode) : Prop :=
  xattrHeaderSpan (dev.blockMem sb) (vi.xattrPos sb) < vi.xattrIsize →
    WholeXattrArea (dev.blockMem sb) (vi.xattrPos sb) vi.xattrIsize

theorem inlineXattrLoop_uncorrupted {st : σ} {next : ℤ} (harea : ReaderArea dev sb vi)
    (hop : ∀ r st, op.Handles r st fun err _ => err ≠ eFsCorrupted) (hnext : next ≠ eFsCorrupted)
    (hio : next ≠ eIo) :
    match inlineXattrIterPre dev sb vi (dev.sharedIds sb vi) with
    | .error err => err ≠ eFsCorrupted
    | .ok (it, remaining) =>
      (xattrInlineLoop dev sb op next remaining remaining it st remaining).1 ≠ eFsCorrupted := by
  have hids := inlinexattrHeaderSize_eq dev sb vi
  have hheader := inlinexattrHeaderSize_mod (dev.sharedIds sb vi)
  have hmod := xattrPos_mod sb vi
  unfold ReaderArea at harea
  rw [← hids] at harea
  rcases Nat.lt_or_ge (inlinexattrHeaderSize (dev.sharedIds sb vi)) vi.xattrIsize with hlt | hge
  · have hpre := @inlineXattrIterPre_spec dev sb _ _ hlt
    cases hr : inlineXattrIterPre dev sb vi (dev.sharedIds sb vi) with
    | error err =>
        rw [hr] at hpre
        rw [hpre.1]
        exact (by decide : eIo ≠ eFsCorrupted)
    | ok r =>
        rw [hr] at hpre
        obtain ⟨it, remaining⟩ := r
        obtain ⟨hat, hrem⟩ := hpre
        obtain ⟨-, hrs⟩ := harea hlt
        dsimp only at hat hrem ⊢
        rw [← hids, ← hrem] at hrs
        exact inline_uncorrupted hop hnext hio hat (by omega) (by omega) hrs
  · unfold inlineXattrIterPre
    rw [if_pos hge]
    exact (by decide : eNoAttr ≠ eFsCorrupted)

theorem erofsGetxattr_uncorrupted {name : List UInt8} {buffer : Option Mem} {size : ℕ}
    (h : xattrHeaderSize < vi.xattrIsize) (harea : ReaderArea dev sb vi) :
    (erofsGetxattr dev sb vi name buffer size).1 ≠ eFsCorrupted := by
  have hinit := @initInodeXattrs_spec dev sb _ h
  unfold erofsGetxattr
  cases hr : initInodeXattrs dev sb vi with
  | error err =>
      rw [hr] at hinit
      rw [hinit.1]
      exact (by decide : eIo ≠ eFsCorrupted)
  | ok ids =>
      rw [hr] at hinit
      obtain rfl : ids = _ := hinit
      dsimp only
      split
      · exact (by decide : eNoAttr ≠ eFsCorrupted)
      split
      · exact (by decide : eRange ≠ eFsCorrupted)
      generalize ({ index := _, name := _, buffer, bufferSize := _, infixLen := 0 } :
        GetxattrIter) = st
      have hsize (n : ℕ) : (n : ℤ) ≠ eFsCorrupted := by
        unfold eFsCorrupted
        omega
      have hinline : (inlineGetxattr dev sb vi (dev.sharedIds sb vi) st).1 ≠ eFsCorrupted := by
        have hloop := @inlineXattrLoop_uncorrupted _ _ _ _ _ st eNoAttr harea
          (findXattrHandlers_uncorrupted sb) (by decide) (by decide)
        unfold inlineGetxattr
        cases hr : inlineXattrIterPre dev sb vi (dev.sharedIds sb vi) with
        | error err =>
            rw [hr] at hloop
            exact hloop
        | ok r =>
            rw [hr] at hloop
            dsimp only at hloop ⊢
            split
            · exact hloop
            · exact hsize _
      split
      · exact hinline
      · unfold sharedGetxattr
        dsimp only
        split
        · exact shared_uncorrupted (findXattrHandlers_uncorrupted sb) (by decide) (by decide)
        · exact hsize _

theorem erofsListxattr_uncorrupted {buffer : Option Mem} {size : ℕ}
    (h : xattrHeaderSize < vi.xattrIsize) (harea : ReaderArea dev sb vi) :
    (erofsListxattr dev sb vi buffer size).1 ≠ eFsCorrupted := by
  have hinit := @initInodeXattrs_spec dev sb _ h
  unfold erofsListxattr
  cases hr : initInodeXattrs dev sb vi with
  | error err =>
      rw [hr] at hinit
      rw [hinit.1]
      exact (by decide : eIo ≠ eFsCorrupted)
  | ok ids =>
      rw [hr] at hinit
      obtain rfl : ids = _ := hinit
      dsimp only
      generalize ({ buffer, bufferSize := _, bufferOfs := 0 } : ListxattrIter) = st
      have hsize (n : ℕ) : (n : ℤ) ≠ eFsCorrupted := by
        unfold eFsCorrupted
        omega
      have hinline : (inlineListxattr dev sb vi (dev.sharedIds sb vi) st).1 ≠ eFsCorrupted := by
        have hloop := @inlineXattrLoop_uncorrupted _ _ _ _ _ st 0 harea
          (listXattrHandlers_uncorrupted sb) (by decide) (by decide)
        unfold inlineListxattr
        cases hr : inlineXattrIterPre dev sb vi (dev.sharedIds sb vi) with
        | error err =>
            rw [hr] at hloop
            exact hloop
        | ok r =>
            rw [hr] at hloop
            dsimp only at hloop ⊢
            split
            · exact hloop
            · exact hsize _
      split
      · exact hinline
      · unfold sharedListxattr
        dsimp only
        split
        · exact shared_uncorrupted (listXattrHandlers_uncorrupted sb) (by decide) (by decide)
        · exact hsize _

/-- Without failing reads a listing that only counts finds entries that are not whole. -/
theorem erofsListxattr_corrupted (hdev : ¬ dev.Fails) (h : xattrHeaderSize < vi.xattrIsize)
    (harea : ¬ ReaderArea dev sb vi) : (erofsListxattr dev sb vi none 0).1 = eFsCorrupted := by
  have hids := inlinexattrHeaderSize_eq dev sb vi
  unfold ReaderArea at harea
  rw [Classical.not_imp, ← hids, WholeXattrArea, ← hids] at harea
  obtain ⟨hspan, harea⟩ := harea
  have hinit := @initInodeXattrs_spec dev sb _ h
  have hpre := @inlineXattrIterPre_spec dev sb _ _ hspan
  have hheader := inlinexattrHeaderSize_mod (dev.sharedIds sb vi)
  have hmod := xattrPos_mod sb vi
  unfold erofsListxattr
  cases hr : initInodeXattrs dev sb vi with
  | error err =>
      rw [hr] at hinit
      exact absurd hinit.2 hdev
  | ok ids =>
      rw [hr] at hinit
      obtain rfl : ids = _ := hinit
      have hinline : (inlineListxattr dev sb vi (dev.sharedIds sb vi)
          { buffer := none, bufferSize := u32 0, bufferOfs := 0 }).1 = eFsCorrupted := by
        unfold inlineListxattr
        cases hr : inlineXattrIterPre dev sb vi (dev.sharedIds sb vi) with
        | error err =>
            rw [hr] at hpre
            exact absurd hpre.2 hdev
        | ok r =>
            rw [hr] at hpre
            obtain ⟨it, remaining⟩ := r
            obtain ⟨hat, hrem⟩ := hpre
            dsimp only at hat hrem ⊢
            have hloop := @xattrInlineLoop_corrupted _ _ _ (listXattrHandlers sb)
              (fun st => st.buffer = none) remaining _ _ remaining _
              { buffer := none, bufferSize := u32 0, bufferOfs := 0 } hdev (listXattrHandlers_counts sb) hat (by omega) le_rfl rfl (by
                rw [hrem]
                exact fun hrs => harea ⟨hspan.le, hrs⟩)
            rw [hloop]
            rfl
      dsimp only
      rw [hinline, if_pos (by decide)]

/-- The reader is kept from corruption exactly when the area is whole where it looks for it. -/
theorem readsUncorrupted_iff (h : xattrHeaderSize < vi.xattrIsize) :
    ReadsUncorrupted dev sb vi ↔ ReaderArea dev sb vi := by
  constructor
  · intro hreads
    by_contra harea
    obtain ⟨-, hlist⟩ := hreads (fun _ _ => none) nofun
    refine hlist none 0 (erofsListxattr_corrupted ?_ h harea)
    rintro ⟨pos, len, err, herr⟩
    cases herr
  · intro harea readErr herr
    exact ⟨fun _ _ _ => erofsGetxattr_uncorrupted h harea,
      fun _ _ => erofsListxattr_uncorrupted h harea⟩

end Codes

/-- An area that `erofs_verify_xattr` accepts is well formed and read without a corruption exactly
when the shared ids that it counts fit in it, and it lies on blocks that the reader can number, or
else is whole at the blocks that it reads instead. -/
theorem erofsVerifyXattr_wellFormed_iff {dev : XattrDev} {sb : XattrSb} {vi : XattrInode}
    (hpos : 0 < vi.xattrIsize) (h : erofsVerifyXattr dev sb vi = 0) :
    (WholeXattrArea dev.byteMem (vi.xattrPos sb) vi.xattrIsize ∧ ReadsUncorrupted dev sb vi) ↔
      xattrHeaderSpan dev.byteMem (vi.xattrPos sb) ≤ vi.xattrIsize ∧
        (vi.xattrPos sb + vi.xattrIsize ≤ 2 ^ 32 * sb.blksiz ∨ ReaderArea dev sb vi) := by
  have h12 := xattrIsize_of_accepted hpos h
  rw [wholeXattrArea_iff hpos h, readsUncorrupted_iff h12]
  constructor
  · rintro ⟨hspan, hreader⟩
    exact ⟨hspan, Or.inr hreader⟩
  · rintro ⟨hspan, hnear | hreader⟩
    · refine ⟨hspan, fun _ => ?_⟩
      refine ((wholeXattrArea_iff hpos h).mpr hspan).congr fun k _ hlt => ?_
      exact (byteMem_eq_blockMem (by omega)).symm
    · exact ⟨hspan, hreader⟩

def XattrDev.readable (mem : Mem) : XattrDev where
  mem := mem
  readErr := fun _ _ => none
  readErr_neg := nofun

/-- A file system of 4 KiB blocks with its inodes from the first block on. -/
def plainXattrSb : XattrSb where
  blkszbits := 12
  metaBlkaddr := 0
  xattrBlkaddr := 0
  xattrPrefixes := []
  blkszbits_ge := XattrSb.bits4k_ge
  blkszbits_le := XattrSb.bits4k_le

def smallXattrInode : XattrInode where
  nid := 0
  extended := false
  iXattrIcount := 2

def twoEntryInode : XattrInode where
  nid := 0
  extended := false
  iXattrIcount := 5

def sharedInode : XattrInode where
  nid := 0
  extended := false
  iXattrIcount := 7

/-- One shared id, and behind it `user.a` with one byte and `user.bc` with five. -/
def sharedBytes : List UInt8 :=
  [0, 0, 0, 0, 1, 0, 0, 0, 0, 0, 0, 0, 200, 0, 0, 0, 1, 1, 1, 0, 97, 49, 0, 0,
    2, 1, 5, 0, 98, 99, 50, 51, 52, 53, 54, 0]

/-- `user.d`, the entry of the shared id. -/
def sharedEntry : List UInt8 := [1, 1, 2, 0, 100, 55, 56, 0]

def sharedDev : XattrDev := XattrDev.readable fun p =>
  if p < 32 then 0 else if p < 800 then (sharedBytes[p - 32]?).getD 0
  else (sharedEntry[p - 800]?).getD 0

theorem erofsVerifyXattr_wellFormed_iff_shared :
    (WholeXattrArea sharedDev.byteMem (sharedInode.xattrPos plainXattrSb) sharedInode.xattrIsize ∧
      ReadsUncorrupted sharedDev plainXattrSb sharedInode) ↔
      xattrHeaderSpan sharedDev.byteMem (sharedInode.xattrPos plainXattrSb) ≤
          sharedInode.xattrIsize ∧
        (sharedInode.xattrPos plainXattrSb + sharedInode.xattrIsize ≤ 2 ^ 32 * plainXattrSb.blksiz ∨
          ReaderArea sharedDev plainXattrSb sharedInode) :=
  erofsVerifyXattr_wellFormed_iff (by decide) (by decide +kernel)

/-- A header that counts two shared ids, with an empty entry behind it. -/
def overcountedDev : XattrDev := XattrDev.readable fun p => if p = 36 then 2 else 0

/-- It is accepted although its shared ids do not fit in it. -/
theorem overcounted_accepted :
    erofsVerifyXattr overcountedDev plainXattrSb smallXattrInode = 0 ∧
      ¬ WholeXattrArea overcountedDev.byteMem (smallXattrInode.xattrPos plainXattrSb)
        smallXattrInode.xattrIsize := by
  refine ⟨by decide, fun harea => ?_⟩
  have hspan := harea.1
  revert hspan
  decide

end ErofsUtils
