import ErofsUtils.BufMgrEvolve

/-!
# Inode numbers

The nid of an inode is its distance from the metadata start in slots of 32 bytes. The start is
fixed once, from where the root inode lies, so that the nid of the root has 16 bits. Later inodes
are placed in any block with room for them, which may be one in front of the start.
-/

namespace ErofsUtils

/-- `EROFS_MAX_BLOCK_SIZE`; mkfs refuses larger blocks. The build sets it to the size of a page,
which is at most 64 KiB. -/
def erofsMaxBlockSize : ℕ := 65536

def erofsIslotbits : ℕ := 5

/-- The largest offset of the root inode from the metadata start. -/
def rootnidMaxoffset : ℕ := 0xffff * 2 ^ erofsIslotbits

/-- An inode with its buffer head, and its nid when one has been stored. -/
structure InodeBuf where
  bid : ℕ
  hid : ℕ
  nid : Option ℕ
  deriving DecidableEq

/-- A build: the buffer manager, `meta_blkaddr` once it is fixed, the inodes in the order of their
allocation, and whether the assertion of `erofs_lookupnid` has failed. -/
structure NidState where
  mgr : BufMgr
  metaBlkaddr : Option ℕ
  inodes : List InodeBuf
  bug : Bool

namespace BufMgr

/-- `erofs_btell` of the start of a head, `none` when the head is gone or has no address. -/
def btell (s : BufMgr) (bid hid : ℕ) : Option ℕ :=
  match splitAtBlock bid s.blocks with
  | none => none
  | some (_, bb, _) =>
    if bb.blkaddr = nullAddr then none
    else (bb.buffers.find? fun h => h.id = hid).map fun h => bb.blkaddr * s.sb.size + h.off

end BufMgr

/-- `meta_offset` of `erofs_fixup_meta_blkaddr`. -/
def metaOffset (sb : BlockSize) (off : ℕ) : ℕ :=
  if rootnidMaxoffset < off then roundUp (off - rootnidMaxoffset) sb.size else 0

def nidOf (off start : ℕ) : ℕ := sub64 off start / 2 ^ erofsIslotbits

def BlockSize.iloc (sb : BlockSize) (metaBlkaddr nid : ℕ) : ℕ :=
  metaBlkaddr * sb.size + nid * 2 ^ erofsIslotbits

/-- `(long long)inode->nid <= 0`. -/
def InodeBuf.unassigned (ino : InodeBuf) : Bool :=
  match ino.nid with
  | none => true
  | some nid => nid = 0 ∨ 2 ^ 63 ≤ nid

inductive NidOp
  | buf (op : BufOp)
  | fixup
  | lookupnid (i : ℕ)

namespace NidState

variable (st : NidState)

def erofsFixupMetaBlkaddr : NidState :=
  match st.inodes with
  | [] => st
  | root :: rest =>
    let mgr := st.mgr.erofsMapbh (some root.bid)
    match mgr.btell root.bid root.hid with
    | none => { st with mgr := mgr }
    | some off =>
      let start := metaOffset mgr.sb off
      { st with
        mgr := mgr
        metaBlkaddr := some (start / mgr.sb.size)
        inodes := { root with nid := some (nidOf off start) } :: rest }

/-- `erofs_lookupnid` on the inode at index `i`; an inode without its head has a nid. -/
def erofsLookupnid (i : ℕ) : NidState :=
  match st.inodes[i]?, st.metaBlkaddr with
  | some ino, some start =>
    if ino.unassigned then
      let mgr := st.mgr.erofsMapbh (some ino.bid)
      match mgr.btell ino.bid ino.hid with
      | none => { st with mgr := mgr }
      | some off =>
        let metaOffset := start * mgr.sb.size
        { st with
          mgr := mgr
          bug := st.bug || decide (off < metaOffset)
          inodes := st.inodes.set i { ino with nid := some (nidOf off metaOffset) } }
    else st
  | _, _ => st

def inodesAfter : BufOp → List InodeBuf
  | .balloc .inode size requiredExt inlineExt =>
    match (st.mgr.erofsBalloc .inode size requiredExt inlineExt).2 with
    | .ok (bid, hid) => st.inodes ++ [⟨bid, hid, none⟩]
    | .error _ => st.inodes
  | _ => st.inodes

def step : NidOp → NidState
  | .buf op => { st with mgr := st.mgr.step op, inodes := st.inodesAfter op }
  | .fixup => st.erofsFixupMetaBlkaddr
  | .lookupnid i => st.erofsLookupnid i

/-- No mapped block that ends in front of the metadata start would take the inode. -/
def RoomAbove (size requiredExt inlineExt : ℕ) : Prop :=
  ∀ start, st.metaBlkaddr = some start → ∀ p bb q,
    st.mgr.PlaceFor .metadata size requiredExt inlineExt 32 p bb q → bb.IsMapped →
      start * st.mgr.sb.size ≤ bb.blkaddr * st.mgr.sb.size + bb.off

/-- A buffer that is given back with `tryrevoke` lies behind the metadata start. -/
def RevokesAbove (bid : ℕ) : Prop :=
  ∀ start, st.metaBlkaddr = some start → ∀ p bb q,
    splitAtBlock bid st.mgr.blocks = some (p, bb, q) → start ≤ bb.blkaddr

/-- What the calls of a build meet: numbers do not wrap, an inode has a size, the root is the only
inode when the start is fixed, and neither an inode nor a revoked buffer is in front of it. -/
def Ok : NidOp → Prop
  | .buf op => op.Fits st.mgr ∧
    match op with
    | .balloc .inode size requiredExt inlineExt =>
      0 < size ∧ st.RoomAbove size requiredExt inlineExt
    | .bdrop bid _ true => st.RevokesAbove bid
    | _ => True
  | .fixup => st.metaBlkaddr = none ∧ ∃ root, st.inodes = [root] ∧
    (BufOp.mapbh (some root.bid)).Fits st.mgr
  | .lookupnid i => ∀ ino, st.inodes[i]? = some ino → (BufOp.mapbh (some ino.bid)).Fits st.mgr

def init (sb : BlockSize) (startblk metablkcnt : ℕ) : NidState :=
  ⟨erofsBufferInit sb startblk metablkcnt, none, [], false⟩

end NidState

/-- The states of builds whose calls meet `ok`. -/
inductive NidReach (ok : NidState → NidOp → Prop) : NidState → Prop
  | init (sb : BlockSize) (startblk metablkcnt : ℕ) (hsb : sb.size ≤ erofsMaxBlockSize) :
    NidReach ok (.init sb startblk metablkcnt)
  | step {st : NidState} (op : NidOp) (hst : NidReach ok st) (hop : ok st op) :
    NidReach ok (st.step op)

/-- The metadata start is right for every inode: no lookup has failed, the nid of the root has 16
bits, every inode that has an address lies behind the start, and readers find it by its nid. -/
structure NidsRight (st : NidState) (start : ℕ) : Prop where
  noBug : st.bug = false
  root : ∃ root rest nid, st.inodes = root :: rest ∧ root.nid = some nid ∧ nid ≤ 0xffff
  above : ∀ ino ∈ st.inodes, ∀ off, st.mgr.btell ino.bid ino.hid = some off →
    start * st.mgr.sb.size ≤ off
  iloc : ∀ ino ∈ st.inodes, ∀ off nid, st.mgr.btell ino.bid ino.hid = some off →
    ino.nid = some nid → st.mgr.sb.iloc start nid = off

namespace BufMgr

theorem btell_some {s : BufMgr} {bid hid off : ℕ} (h : s.btell bid hid = some off) :
    ∃ b ∈ s.blocks, ∃ k ∈ b.buffers, k.id = hid ∧ b.IsMapped ∧
      off = b.blkaddr * s.sb.size + k.off := by
  rw [btell] at h
  cases hsplit : splitAtBlock bid s.blocks with
  | none =>
      rw [hsplit] at h
      cases h
  | some r =>
      obtain ⟨p, bb, q⟩ := r
      rw [hsplit] at h
      dsimp only at h
      split at h
      · cases h
      · next hm =>
          obtain ⟨k, hk, rfl⟩ := Option.map_eq_some_iff.mp h
          have hblock : bb ∈ s.blocks := by
            rw [(splitAtBlock_some hsplit).1]
            exact List.mem_append_right _ List.mem_cons_self
          have hid := List.find?_some hk
          exact ⟨bb, hblock, k, List.mem_of_find?_eq_some hk, of_decide_eq_true hid, hm, rfl⟩

theorem Inv.lt_stop {s : BufMgr} (h : s.Inv) {b : BufferBlock} (hb : b ∈ s.blocks)
    (hm : b.IsMapped) {off : ℕ} (hoff : off < b.off) :
    b.blkaddr * s.sb.size + off < b.stop s.sb * s.sb.size ∧ b.stop s.sb ≤ s.tailBlkaddr ∧
      b.stop s.sb < nullAddr := by
  refine ⟨?_, h.below b hb hm (s.sb.blocksOf_pos.mpr (by omega)), h.limit b hb hm⟩
  have hmul := s.sb.le_blocksOf_mul b.off
  rw [BufferBlock.stop, Nat.add_mul, BufferBlock.nblocks]
  omega

end BufMgr

theorem BlockSize.slot_dvd (sb : BlockSize) : 2 ^ erofsIslotbits ∣ sb.size :=
  Nat.pow_dvd_pow 2 ((by decide : erofsIslotbits ≤ 9).trans sb.low)

theorem nidOf_mul {off start : ℕ} (hle : start ≤ off) (hoff : off < 2 ^ 64)
    (hslot : 2 ^ erofsIslotbits ∣ off - start) :
    start + nidOf off start * 2 ^ erofsIslotbits = off := by
  rw [nidOf, sub64_of_le hle hoff, Nat.div_mul_cancel hslot]
  omega

theorem metaOffset_spec {sb : BlockSize} (hsmall : sb.size ≤ erofsMaxBlockSize) (off : ℕ) :
    sb.size ∣ metaOffset sb off ∧ metaOffset sb off ≤ off ∧
      off - metaOffset sb off ≤ rootnidMaxoffset := by
  have hpos := sb.size_pos
  rw [metaOffset]
  split
  · next hlt =>
      have hge : off - rootnidMaxoffset ≤ roundUp (off - rootnidMaxoffset) sb.size :=
        le_roundUp hpos
      have hup : roundUp (off - rootnidMaxoffset) sb.size < off - rootnidMaxoffset + sb.size :=
        roundUp_lt hpos
      have hmax : erofsMaxBlockSize ≤ rootnidMaxoffset := by decide
      exact ⟨Nat.dvd_mul_left _ _, by omega, by omega⟩
  · exact ⟨dvd_zero _, Nat.zero_le _, by omega⟩

/-- A buffer head of an inode: once the metadata start is fixed and the head has an address, it
is behind the start, and the nid of the inode is its distance. -/
structure HeadPlaced (sb : BlockSize) (metaBlkaddr : Option ℕ) (nid : Option ℕ)
    (b : BufferBlock) (h : BufferHead) : Prop where
  slot : 2 ^ erofsIslotbits ∣ h.off
  inside : h.off < b.off
  above : ∀ start, metaBlkaddr = some start → b.IsMapped →
    start * sb.size ≤ b.blkaddr * sb.size + h.off
  stored : ∀ start n, metaBlkaddr = some start → nid = some n → b.IsMapped ∧
    sb.iloc start n = b.blkaddr * sb.size + h.off

structure NidInv (st : NidState) : Prop where
  mgr : st.mgr.Inv
  named : st.mgr.HeadsNamed
  small : st.mgr.sb.size ≤ erofsMaxBlockSize
  known : ∀ ino ∈ st.inodes, ino.hid < st.mgr.fresh
  floor : ∀ start, st.metaBlkaddr = some start → start ≤ st.mgr.tailBlkaddr
  placed : ∀ ino ∈ st.inodes, ∀ b ∈ st.mgr.blocks, ∀ h ∈ b.buffers, h.id = ino.hid →
    HeadPlaced st.mgr.sb st.metaBlkaddr ino.nid b h
  noBug : st.bug = false
  root : ∀ start, st.metaBlkaddr = some start →
    ∃ nid, st.inodes[0]?.bind InodeBuf.nid = some nid ∧ nid ≤ 0xffff
  unfixed : st.metaBlkaddr = none → ∀ ino ∈ st.inodes, ino.nid = none

section Steps

variable {st : NidState}

theorem nidInv_init (sb : BlockSize) (startblk metablkcnt : ℕ)
    (hsb : sb.size ≤ erofsMaxBlockSize) : NidInv (.init sb startblk metablkcnt) where
  mgr := BufMgr.inv_init sb startblk metablkcnt
  named := ⟨List.nodup_nil, fun _ hid => by cases hid⟩
  small := hsb
  known := fun _ hino => by cases hino
  floor := fun _ hstart => by cases hstart
  placed := fun _ hino => by cases hino
  noBug := rfl
  root := fun _ hstart => by cases hstart
  unfixed := fun _ _ hino => by cases hino

/-- A head that stays where it is stays in place, and so does one whose block is mapped behind
the metadata start. -/
theorem HeadPlaced.kept {sb : BlockSize} {start nid : Option ℕ} {tail : ℕ} {b b' : BufferBlock}
    {h h' : BufferHead} (hp : HeadPlaced sb start nid b h) (hk : BufMgr.HeadKept tail b h b' h')
    (hfloor : ∀ m, start = some m → m ≤ tail) : HeadPlaced sb start nid b' h' where
  slot := hk.off ▸ hp.slot
  inside := hk.off ▸ hp.inside.trans_le hk.grown
  above := by
    intro m hm hmapped
    rw [hk.off]
    cases hk.addr with
    | inl heq =>
        rw [BufferBlock.IsMapped, heq] at hmapped
        rw [heq]
        exact hp.above m hm hmapped
    | inr hlate =>
        have hle : m * sb.size ≤ b'.blkaddr * sb.size :=
          Nat.mul_le_mul_right _ ((hfloor m hm).trans hlate.2)
        omega
  stored := by
    intro m n hm hn
    obtain ⟨hmapped, hiloc⟩ := hp.stored m n hm hn
    cases hk.addr with
    | inl heq =>
        rw [BufferBlock.IsMapped, heq, hk.off]
        exact ⟨hmapped, hiloc⟩
    | inr hlate => exact absurd hmapped hlate.1

/-- The heads of the known inodes stay in place while the buffer manager goes on. -/
theorem NidInv.placed_kept (h : NidInv st) {mgr : BufMgr} (he : BufMgr.HeadsEvolve st.mgr mgr)
    {ino : InodeBuf} (hino : ino ∈ st.inodes) {b : BufferBlock} (hb : b ∈ mgr.blocks)
    {k : BufferHead} (hk : k ∈ b.buffers) (hid : k.id = ino.hid) :
    HeadPlaced mgr.sb st.metaBlkaddr ino.nid b k := by
  have hknown := h.known ino hino
  rw [he.sb]
  cases he.heads b hb k hk with
  | inl hnew => omega
  | inr hold =>
      obtain ⟨c, hc, l, hl, hkept⟩ := hold
      have hplaced := h.placed ino hino c hc l hl (hkept.id ▸ hid)
      exact hplaced.kept hkept h.floor

/-- The buffer manager goes on, and the inodes stay the same. -/
theorem NidInv.evolve (h : NidInv st) {mgr : BufMgr} (he : BufMgr.HeadsEvolve st.mgr mgr)
    (hinv : mgr.Inv) (hfloor : ∀ start, st.metaBlkaddr = some start → start ≤ mgr.tailBlkaddr) :
    NidInv { st with mgr := mgr } where
  mgr := hinv
  named := he.named h.named
  small := he.sb ▸ h.small
  known := fun ino hino => (h.known ino hino).trans_le he.fresh
  floor := hfloor
  placed := fun _ hino _ hb _ hk hid => h.placed_kept he hino hb hk hid
  noBug := h.noBug
  root := h.root
  unfixed := h.unfixed

theorem NidInv.push (h : NidInv st) {ino : InodeBuf} (hnid : ino.nid = none)
    (hknown : ino.hid < st.mgr.fresh)
    (hplaced : ∀ b ∈ st.mgr.blocks, ∀ k ∈ b.buffers, k.id = ino.hid →
      HeadPlaced st.mgr.sb st.metaBlkaddr none b k) :
    NidInv { st with inodes := st.inodes ++ [ino] } where
  mgr := h.mgr
  named := h.named
  small := h.small
  floor := h.floor
  noBug := h.noBug
  known := by
    intro i hi
    cases List.mem_append.mp hi with
    | inl hi => exact h.known i hi
    | inr hi =>
        rw [List.mem_singleton] at hi
        rw [hi]
        exact hknown
  placed := by
    intro i hi b hb k hk hid
    cases List.mem_append.mp hi with
    | inl hi => exact h.placed i hi b hb k hk hid
    | inr hi =>
        rw [List.mem_singleton] at hi
        rw [hi] at hid ⊢
        rw [hnid]
        exact hplaced b hb k hk hid
  root := by
    intro start hstart
    obtain ⟨nid, hroot, hle⟩ := h.root start hstart
    refine ⟨nid, ?_, hle⟩
    cases hi : st.inodes with
    | nil =>
        rw [hi] at hroot
        cases hroot
    | cons root rest =>
        rw [hi] at hroot
        exact hroot
  unfixed := by
    intro hnone i hi
    cases List.mem_append.mp hi with
    | inl hi => exact h.unfixed hnone i hi
    | inr hi =>
        rw [List.mem_singleton] at hi
        rw [hi]
        exact hnid

theorem NidInv.floor_step (h : NidInv st) {op : BufOp} (hok : st.Ok (.buf op)) (start : ℕ)
    (hstart : st.metaBlkaddr = some start) : start ≤ (st.mgr.step op).tailBlkaddr := by
  cases (BufMgr.HeadsEvolve.step hok.1).2 with
  | inl hle => exact (h.floor start hstart).trans hle
  | inr hback =>
      obtain ⟨bid, hid, p, bb, q, rfl, hsplit, hback⟩ := hback
      rw [hback]
      exact hok.2 start hstart p bb q hsplit

/-- A new inode goes to a block without an address or to one with room behind the start. -/
theorem NidInv.placed_new (h : NidInv st) {size requiredExt inlineExt bid hid : ℕ}
    (hok : st.Ok (.buf (.balloc .inode size requiredExt inlineExt)))
    (hres : (st.mgr.erofsBalloc .inode size requiredExt inlineExt).2 = .ok (bid, hid)) :
    hid < (st.mgr.erofsBalloc .inode size requiredExt inlineExt).1.fresh ∧
      ∀ b ∈ (st.mgr.erofsBalloc .inode size requiredExt inlineExt).1.blocks, ∀ k ∈ b.buffers,
        k.id = hid → HeadPlaced st.mgr.sb st.metaBlkaddr none b k := by
  obtain ⟨hfits, hsize, hroom⟩ := hok
  have hnamed := (BufMgr.Evolves.erofsBalloc hfits).named h.named
  obtain ⟨-, b, hb, k, hk, hid, hdvd, hend, hplace⟩ :=
    BufMgr.erofsBalloc_head h.mgr
      (show getAlignsize st.mgr.sb .inode = some (32, .metadata) from rfl) hfits hres
  refine ⟨hid ▸ hnamed.fresh _ (BufMgr.mem_headIds.mpr ⟨b, hb, k, hk, rfl⟩), ?_⟩
  intro b' hb' k' hk' hid'
  obtain ⟨rfl, rfl⟩ := hnamed.unique hb' hk' hb hk (hid'.trans hid.symm)
  refine ⟨hdvd, by omega, ?_, fun _ _ _ hn => by cases hn⟩
  intro start hstart hm
  obtain ⟨p, bb, q, hfor, haddr, hoff⟩ := hplace hm
  have hmapped : bb.IsMapped := by
    rw [BufferBlock.IsMapped, haddr]
    exact hm
  have habove := hroom start hstart p bb q hfor hmapped
  rw [haddr] at habove
  omega

theorem NidInv.bufStep (h : NidInv st) {op : BufOp} (hok : st.Ok (.buf op)) :
    NidInv (st.step (.buf op)) := by
  have hevolve := h.evolve (BufMgr.HeadsEvolve.step hok.1).1 (h.mgr.step hok.1)
    (h.floor_step hok)
  cases op with
  | balloc type size requiredExt inlineExt =>
      cases type with
      | inode =>
          change NidInv { st with
            mgr := (st.mgr.erofsBalloc .inode size requiredExt inlineExt).1
            inodes := st.inodesAfter (.balloc .inode size requiredExt inlineExt) }
          rw [NidState.inodesAfter]
          cases hres : (st.mgr.erofsBalloc .inode size requiredExt inlineExt).2 with
          | error e => exact hevolve
          | ok r =>
              obtain ⟨bid, hid⟩ := r
              obtain ⟨hknown, hplaced⟩ := h.placed_new hok hres
              have hsb := (BufMgr.HeadsEvolve.step hok.1).1.sb
              rw [← hsb] at hplaced
              exact hevolve.push (show (⟨bid, hid, none⟩ : InodeBuf).nid = none from rfl) hknown hplaced
      | _ => exact hevolve
  | _ => exact hevolve

/-- A number below `NULL_ADDR` of blocks is below `2 ^ 64` bytes. -/
theorem NidInv.lt_two_pow (h : NidInv st) {n : ℕ} (hn : n < nullAddr) :
    n * st.mgr.sb.size < 2 ^ 64 := by
  have hnull := nullAddr_lt
  have hmax : erofsMaxBlockSize = 2 ^ 16 := rfl
  calc n * st.mgr.sb.size ≤ 2 ^ 32 * 2 ^ 16 := Nat.mul_le_mul (by omega) (hmax ▸ h.small)
    _ < 2 ^ 64 := by decide

/-- Where `erofs_btell` finds an inode: a placed head within the addresses of its block. -/
theorem NidInv.btell_placed (h : NidInv st) {ino : InodeBuf} (hino : ino ∈ st.inodes) {off : ℕ}
    (htell : st.mgr.btell ino.bid ino.hid = some off) :
    ∃ b ∈ st.mgr.blocks, ∃ k ∈ b.buffers, k.id = ino.hid ∧ b.IsMapped ∧
      off = b.blkaddr * st.mgr.sb.size + k.off ∧
      HeadPlaced st.mgr.sb st.metaBlkaddr ino.nid b k ∧ off < 2 ^ 64 ∧
      off < st.mgr.tailBlkaddr * st.mgr.sb.size := by
  obtain ⟨b, hb, k, hk, hid, hm, hoff⟩ := BufMgr.btell_some htell
  have hplaced := h.placed ino hino b hb k hk hid
  obtain ⟨hlt, htail, hlimit⟩ := h.mgr.lt_stop hb hm hplaced.inside
  have hbound := h.lt_two_pow hlimit
  have hmul := Nat.mul_le_mul_right st.mgr.sb.size htail
  exact ⟨b, hb, k, hk, hid, hm, hoff, hplaced, by omega, by omega⟩

/-- An inode gets its nid; its heads are in place with it. -/
theorem NidInv.assign (h : NidInv st) {i : ℕ} {ino : InodeBuf} (hi : st.inodes[i]? = some ino)
    {start nid : ℕ} (hstart : st.metaBlkaddr = some start)
    (hroot : i = 0 → nid ≤ 0xffff)
    (hplaced : ∀ b ∈ st.mgr.blocks, ∀ k ∈ b.buffers, k.id = ino.hid →
      HeadPlaced st.mgr.sb st.metaBlkaddr (some nid) b k) :
    NidInv { st with inodes := st.inodes.set i { ino with nid := some nid } } where
  mgr := h.mgr
  named := h.named
  small := h.small
  floor := h.floor
  noBug := h.noBug
  known := by
    intro j hj
    cases List.mem_or_eq_of_mem_set hj with
    | inl hj => exact h.known j hj
    | inr hj =>
        rw [hj]
        exact h.known ino (List.mem_of_getElem? hi)
  placed := by
    intro j hj b hb k hk hid
    cases List.mem_or_eq_of_mem_set hj with
    | inl hj => exact h.placed j hj b hb k hk hid
    | inr hj =>
        rw [hj] at hid ⊢
        exact hplaced b hb k hk hid
  root := by
    intro m hm
    cases i with
    | zero =>
        cases hl : st.inodes with
        | nil =>
            rw [hl] at hi
            cases hi
        | cons root rest => exact ⟨nid, rfl, hroot rfl⟩
    | succ i =>
        obtain ⟨n, hn, hle⟩ := h.root m hm
        refine ⟨n, ?_, hle⟩
        rw [List.getElem?_set_ne (Nat.succ_ne_zero i)]
        exact hn
  unfixed := by
    intro hnone
    rw [hstart] at hnone
    cases hnone

theorem NidInv.mapbh (h : NidInv st) {bid : ℕ} (hfit : (BufOp.mapbh (some bid)).Fits st.mgr) :
    NidInv { st with mgr := st.mgr.erofsMapbh (some bid) } := by
  have he := BufMgr.Evolves.erofsMapbh st.mgr (some bid)
  exact h.evolve he.toHeadsEvolve (h.mgr.step hfit) fun start hstart =>
    (h.floor start hstart).trans he.tail

theorem HeadPlaced.nid {sb : BlockSize} {nid : Option ℕ} {b : BufferBlock} {k : BufferHead}
    {m : Option ℕ} (hp : HeadPlaced sb m nid b k) (hm : b.IsMapped) (start : ℕ)
    (hle : start * sb.size ≤ b.blkaddr * sb.size + k.off)
    (hoff : b.blkaddr * sb.size + k.off < 2 ^ 64) :
    HeadPlaced sb (some start) (some (nidOf (b.blkaddr * sb.size + k.off) (start * sb.size)))
      b k where
  slot := hp.slot
  inside := hp.inside
  above := by
    intro n hn _
    cases hn
    exact hle
  stored := by
    intro n nid hn hnid
    cases hn
    cases hnid
    have hslot : 2 ^ erofsIslotbits ∣ b.blkaddr * sb.size + k.off - start * sb.size :=
      Nat.dvd_sub (Nat.dvd_add (sb.slot_dvd.mul_left _) hp.slot) (sb.slot_dvd.mul_left _)
    exact ⟨hm, nidOf_mul hle hoff hslot⟩

/-- The first lookup gives an inode the nid of where it lies; that of the root stays 0. -/
theorem NidInv.lookupStep (h : NidInv st) {i : ℕ} (hok : st.Ok (.lookupnid i)) :
    NidInv (st.step (.lookupnid i)) := by
  change NidInv (st.erofsLookupnid i)
  rw [NidState.erofsLookupnid]
  cases hi : st.inodes[i]? with
  | none => exact h
  | some ino =>
      cases hstart : st.metaBlkaddr with
      | none => exact h
      | some start =>
          dsimp only
          cases hun : ino.unassigned with
          | false => exact h
          | true =>
              rw [if_pos rfl]
              have hmap := h.mapbh (hok ino hi)
              cases htell : (st.mgr.erofsMapbh (some ino.bid)).btell ino.bid ino.hid with
              | none => exact hstart ▸ hmap
              | some off =>
                  dsimp only
                  obtain ⟨b, hb, k, hk, hid, hm, rfl, hplaced, hoff, -⟩ :=
                    hmap.btell_placed (List.mem_of_getElem? hi) htell
                  have habove := hplaced.above start hstart hm
                  rw [decide_eq_false (Nat.not_lt.mpr habove), Bool.or_false, ← hstart]
                  apply hmap.assign hi hstart
                  · rintro rfl
                    obtain ⟨n, hn, hle⟩ := h.root start hstart
                    rw [hi] at hn
                    change ino.nid = some n at hn
                    rw [InodeBuf.unassigned, hn] at hun
                    have hzero : n = 0 := by
                      have := of_decide_eq_true hun
                      omega
                    have hiloc := (hplaced.stored start n hstart hn).2
                    rw [hzero, BlockSize.iloc, Nat.zero_mul, Nat.add_zero] at hiloc
                    rw [← hiloc, nidOf, sub64_of_le (le_refl _) (by omega), Nat.sub_self,
                      Nat.zero_div]
                    exact Nat.zero_le _
                  · intro c hc l hl hid'
                    obtain ⟨rfl, rfl⟩ := hmap.named.unique hc hl hb hk (hid'.trans hid.symm)
                    change HeadPlaced _ st.metaBlkaddr _ _ _
                    rw [hstart]
                    exact hplaced.nid hm start habove hoff

/-- The metadata start is where the root gets a nid of 16 bits. -/
theorem NidInv.fixupStep (h : NidInv st) (hok : st.Ok .fixup) : NidInv (st.step .fixup) := by
  obtain ⟨hnone, root, hroot, hfit⟩ := hok
  have hmap := h.mapbh hfit
  change NidInv st.erofsFixupMetaBlkaddr
  rw [NidState.erofsFixupMetaBlkaddr, hroot]
  dsimp only
  rw [hroot] at hmap
  cases htell : (st.mgr.erofsMapbh (some root.bid)).btell root.bid root.hid with
  | none => exact hmap
  | some off =>
      dsimp only
      obtain ⟨b, hb, k, hk, hid, hm, rfl, hplaced, hoff, htail⟩ :=
        hmap.btell_placed List.mem_cons_self htell
      generalize hoffEq : b.blkaddr * (st.mgr.erofsMapbh (some root.bid)).sb.size + k.off = off
        at *
      obtain ⟨hdvd, hle, hmax⟩ := metaOffset_spec hmap.small off
      have hmul := Nat.div_mul_cancel hdvd
      have hpos := (st.mgr.erofsMapbh (some root.bid)).sb.size_pos
      have hnid := hplaced.nid hm
        (metaOffset (st.mgr.erofsMapbh (some root.bid)).sb off /
          (st.mgr.erofsMapbh (some root.bid)).sb.size) (by rw [hmul, hoffEq]; exact hle)
        (by rw [hoffEq]; exact hoff)
      rw [hmul, hoffEq] at hnid
      refine ⟨hmap.mgr, hmap.named, hmap.small, ?_, ?_, ?_, hmap.noBug, ?_, ?_⟩
      · intro ino hino
        rw [List.mem_singleton] at hino
        rw [hino]
        exact hmap.known root List.mem_cons_self
      · intro start hstart
        cases hstart
        exact Nat.le_of_lt (Nat.div_lt_of_lt_mul (Nat.mul_comm _ _ ▸ hle.trans_lt htail))
      · intro ino hino c hc l hl hid'
        rw [List.mem_singleton] at hino
        subst hino
        obtain ⟨rfl, rfl⟩ := hmap.named.unique hc hl hb hk (hid'.trans hid.symm)
        exact hnid
      · intro start hstart
        refine ⟨_, rfl, ?_⟩
        rw [nidOf, sub64_of_le hle hoff]
        exact Nat.div_le_of_le_mul (by rw [Nat.mul_comm]; exact hmax)
      · intro hn
        cases hn

theorem NidInv.step (h : NidInv st) {op : NidOp} (hok : st.Ok op) : NidInv (st.step op) := by
  cases op with
  | buf op => exact h.bufStep hok
  | fixup => exact h.fixupStep hok
  | lookupnid i => exact h.lookupStep hok

theorem NidInv.right (h : NidInv st) {start : ℕ} (hstart : st.metaBlkaddr = some start) :
    NidsRight st start where
  noBug := h.noBug
  root := by
    obtain ⟨nid, hroot, hle⟩ := h.root start hstart
    cases hi : st.inodes with
    | nil =>
        rw [hi] at hroot
        cases hroot
    | cons root rest =>
        rw [hi] at hroot
        exact ⟨root, rest, nid, rfl, hroot, hle⟩
  above := by
    intro ino hino off htell
    obtain ⟨b, -, k, -, -, hm, rfl, hplaced, -⟩ := h.btell_placed hino htell
    exact hplaced.above start hstart hm
  iloc := by
    intro ino hino off nid htell hnid
    obtain ⟨b, -, k, -, -, -, rfl, hplaced, -⟩ := h.btell_placed hino htell
    exact (hplaced.stored start nid hstart hnid).2

end Steps

theorem NidReach.inv {st : NidState} (hst : NidReach (fun st op => st.Ok op) st) :
    NidInv st := by
  induction hst with
  | init sb startblk metablkcnt hsb => exact nidInv_init sb startblk metablkcnt hsb
  | step op _ hop ih => exact ih.step hop

/-- In every build that meets the conditions, once the metadata start is fixed: no lookup has
failed, the nid of the root has 16 bits, all inodes lie behind the start, and `erofs_iloc` leads
from the nid of an inode to where it is written. -/
theorem nidReach_right {st : NidState} {start : ℕ} (hst : NidReach (fun st op => st.Ok op) st)
    (hstart : st.metaBlkaddr = some start) : NidsRight st start :=
  hst.inv.right hstart

def NidState.init4k : NidState := .init ⟨12, BlockSize.bits4k_low, BlockSize.bits4k_high⟩ 0 0

def NidState.rootFixed : NidState :=
  (NidState.init4k.step (.buf (.balloc .inode 32 0 0))).step .fixup

/-- The root and one more inode in the first block. -/
theorem nidReach_right_two : NidsRight ((NidState.rootFixed.step
    (.buf (.balloc .inode 32 0 0))).step (.lookupnid 1)) 0 := by
  refine nidReach_right (.step _ (.step _ (.step _ (.step _ (.init _ 0 0 (by decide)) ?_) ?_) ?_)
    ?_) (by decide +kernel)
  · have hfit : BufferBlock.AttachFits NidState.init4k.mgr.sb ⟨0, .metadata, nullAddr, 0, []⟩
        32 32 0 := ⟨by decide +kernel, fun hm => absurd rfl hm⟩
    exact ⟨BufMgr.fits_balloc none rfl (by decide +kernel)
      (BufMgr.attachFits_of_split [] _ [] (by decide +kernel) hfit), by decide,
      fun _ hstart => by cases hstart⟩
  · refine ⟨by decide +kernel, ⟨0, 1, none⟩, by decide +kernel, ?_⟩
    intro _
    decide +kernel
  · have hfit : BufferBlock.AttachFits NidState.rootFixed.mgr.sb
        ⟨0, .metadata, 0, 32, [⟨1, 0, 32⟩]⟩ 32 32 0 :=
      ⟨by decide +kernel, fun _ => by decide +kernel⟩
    have hattach : NidState.rootFixed.mgr.AttachFits 0 32 32 0 :=
      BufMgr.attachFits_of_split [] _ [] (by decide +kernel) hfit
    refine ⟨BufMgr.fits_balloc (some 0) rfl (by decide +kernel) hattach, by decide, ?_⟩
    intro start hstart p bb q _ _
    have hzero : NidState.rootFixed.metaBlkaddr = some 0 := by decide +kernel
    obtain rfl := Option.some.inj (hzero.symm.trans hstart)
    rw [Nat.zero_mul]
    exact Nat.zero_le _
  · intro ino hino
    have hsecond : (NidState.rootFixed.step (.buf (.balloc .inode 32 0 0))).inodes[1]? =
        some ⟨0, 2, none⟩ := by decide +kernel
    obtain rfl := Option.some.inj (hsecond.symm.trans hino)
    intro _
    decide +kernel

theorem NidReach.run {st : NidState} (ops : List NidOp) (hst : NidReach (fun _ _ => True) st) :
    NidReach (fun _ _ => True) (ops.foldl NidState.step st) := by
  induction ops generalizing st with
  | nil => exact hst
  | cons op ops ih => exact ih (hst.step op trivial)

/-- A superblock, shared xattrs of more than two mebibytes, the root, and a small directory that
goes to the rest of the superblock's block. -/
def earlyInode : List NidOp :=
  [.buf (.balloc .metadata 0 0 0), .buf (.balloon 0 1 1152), .buf (.mapbh (some 0)),
    .buf (.balloc .xattr (2 ^ 21 + 3000) 0 0), .buf (.mapbh (some 2)), .buf (.bdrop 2 3 false),
    .buf (.balloc .inode 32 0 3000), .buf (.battach 4 5 .metadata 3000), .fixup,
    .buf (.balloc .inode 32 0 2000), .lookupnid 1]

/-- The directory has block 0 and the metadata starts at block 3. -/
theorem nidReach_before_start : ∃ st, NidReach (fun _ _ => True) st ∧
    ∃ start, st.metaBlkaddr = some start ∧ ¬ NidsRight st start := by
  refine ⟨earlyInode.foldl NidState.step .init4k, ?_, 3, by decide +kernel, fun h => ?_⟩
  · exact (NidReach.init _ 0 0 (by decide)).run earlyInode
  · have hbug : (earlyInode.foldl NidState.step .init4k).bug = true := by decide +kernel
    rw [h.noBug] at hbug
    cases hbug

end ErofsUtils
