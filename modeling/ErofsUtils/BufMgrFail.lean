import ErofsUtils.BufMgrPlace

/-!
# Allocations that fail

`erofs_balloc` and `erofs_battach` with the outcome of every `malloc` in them. A call that fails
leaves the manager as it was unless it has linked a new block by then: nothing takes the block out
of the list again. When there is no memory for the head it is even freed where it stands.
-/

namespace ErofsUtils

def eNoMem : ℤ := -12

/-- Whether `malloc` has memory for a buffer block and for a buffer head. -/
structure Memory where
  block : Bool
  head : Bool

/-- What a call comes back with; `freed` has the blocks that it gave to `free`. -/
structure CallEnd (α : Type) where
  mgr : BufMgr
  freed : List ℕ
  ret : Except ℤ α

namespace BufMgr

def ballocMem (s : BufMgr) (m : Memory) (type : BufType) (size requiredExt inlineExt : ℕ) :
    CallEnd (ℕ × ℕ) :=
  match getAlignsize s.sb type with
  | none => ⟨s, [], .error (-22)⟩
  | some (alignsize, btype) =>
    match s.erofsBfindForAttach btype size requiredExt inlineExt alignsize with
    | .error e => ⟨s, [], .error e⟩
    | .ok (some id) =>
      if ¬ m.head then ⟨s, [], .error eNoMem⟩
      else
        let r := s.ballocIn id size alignsize (u32 (requiredExt + inlineExt))
        ⟨r.1, [], r.2⟩
    | .ok none =>
      if ¬ m.block then ⟨s, [], .error eNoMem⟩
      -- the new block is in the list by now
      else if ¬ m.head then ⟨s.newBlock btype, [s.fresh], .error eNoMem⟩
      else
        let r := (s.newBlock btype).ballocIn s.fresh size alignsize (u32 (requiredExt + inlineExt))
        ⟨r.1, [], r.2⟩

def battachMem (s : BufMgr) (m : Memory) (bid hid : ℕ) (type : BufType) (size : ℕ) :
    CallEnd (ℕ × ℕ) :=
  match getAlignsize s.sb type with
  | none => ⟨s, [], .error (-22)⟩
  | some (alignsize, _) =>
    if ¬ s.isTail bid hid then ⟨s, [], .error (-22)⟩
    else if ¬ m.head then ⟨s, [], .error eNoMem⟩
    else
      let r := s.ballocIn bid size alignsize 0
      ⟨r.1, [], r.2⟩

end BufMgr

inductive AllocCall
  | balloc (type : BufType) (size requiredExt inlineExt : ℕ)
  | battach (bid hid : ℕ) (type : BufType) (size : ℕ)
  | balloon (bid hid incr : ℕ)

namespace AllocCall

/-- The call with its result reduced to success and failure. -/
def run (s : BufMgr) (m : Memory) : AllocCall → CallEnd Unit
  | balloc type size requiredExt inlineExt =>
    let r := s.ballocMem m type size requiredExt inlineExt
    ⟨r.mgr, r.freed, r.ret.map fun _ => ()⟩
  | battach bid hid type size =>
    let r := s.battachMem m bid hid type size
    ⟨r.mgr, r.freed, r.ret.map fun _ => ()⟩
  | balloon bid hid incr =>
    let r := s.erofsBhBalloon bid hid incr
    ⟨r.1, [], r.2.map fun _ => ()⟩

def op : AllocCall → BufOp
  | balloc type size requiredExt inlineExt => .balloc type size requiredExt inlineExt
  | battach bid hid type size => .battach bid hid type size
  | balloon bid hid incr => .balloon bid hid incr

/-- The list with its blocks, the buckets, the last mapped block and the tail are as before. -/
def Unchanged (s s' : BufMgr) : Prop :=
  s'.blocks = s.blocks ∧ s'.mappedList = s.mappedList ∧ s'.lastMapped = s.lastMapped ∧
    s'.tailBlkaddr = s.tailBlkaddr

/-- When the call fails nothing has changed and no freed block is in the list. -/
def Undone (c : AllocCall) (s : BufMgr) (m : Memory) : Prop :=
  ∀ e, (c.run s m).ret = .error e → Unchanged s (c.run s m).mgr ∧
    ∀ id ∈ (c.run s m).freed, id ∉ (c.run s m).mgr.blocks.map BufferBlock.id

/-- The call takes a new block and has the memory for it, but there is none for the head, or the
block stands in front of a mapped one and would have to grow. -/
def BlockLeft (s : BufMgr) (m : Memory) : AllocCall → Prop
  | balloc type size requiredExt inlineExt => m.block = true ∧
      ∃ align bt, getAlignsize s.sb type = some (align, bt) ∧
        s.erofsBfindForAttach bt size requiredExt inlineExt align = .ok none ∧
        (m.head = false ∨ nextAddr (s.behindNew bt) ≠ nullAddr ∧
          s.sb.size < battachRoom s.sb ⟨s.fresh, bt, nullAddr, 0, []⟩ size align
            (u32 (requiredExt + inlineExt)))
  | _ => False

end AllocCall

namespace BufMgr

/-- The states that a run comes to when every allocation in it meets `ok`, whatever memory there
is. -/
inductive MemReach (ok : BufMgr → Memory → AllocCall → Prop) : BufMgr → Prop
  | init (sb : BlockSize) (startblk metablkcnt : ℕ) :
    MemReach ok (erofsBufferInit sb startblk metablkcnt)
  | alloc {s : BufMgr} (m : Memory) (c : AllocCall) (hs : MemReach ok s) (hok : ok s m c) :
    MemReach ok (c.run s m).mgr
  | mapbh {s : BufMgr} (bb : Option ℕ) (hs : MemReach ok s) : MemReach ok (s.erofsMapbh bb)
  | bflush {s : BufMgr} (flush : ℕ → BhFlush) (bb : Option ℕ) (hs : MemReach ok s) :
    MemReach ok (s.erofsBflush flush bb).1
  | bdrop {s : BufMgr} (bid hid : ℕ) (tryrevoke : Bool) (hs : MemReach ok s) :
    MemReach ok (s.erofsBdrop bid hid tryrevoke)

section Attach

variable {s : BufMgr} {id size align extra : ℕ}

theorem nextAddr_of_unmapped {q : List BufferBlock} (h : ∀ c ∈ q, ¬ c.IsMapped) :
    nextAddr q = nullAddr := by
  cases q with
  | nil => rfl
  | cons c q => exact not_not.mp (h c List.mem_cons_self)

/-- The test that lets an attachment through is all that it can fail in. -/
theorem ballocIn_ok {p q : List BufferBlock} {bb : BufferBlock} {up : Bool}
    (hsplit : splitAtBlock id s.blocks = some (p, bb, q))
    (hcheck : battachCheck s.sb s.tailBlkaddr (nextAddr q) bb size align extra = some up) :
    (s.ballocIn id size align extra).2 = .ok (id, s.fresh) := by
  rw [ballocIn, attach, hsplit]
  dsimp only
  rw [hcheck]

theorem Named.ballocIn_new (h : s.Named) (type : BlockType) :
    (s.newBlock type).ballocIn s.fresh size align extra =
      (if nextAddr (s.behindNew type) ≠ nullAddr ∧
          s.sb.size < battachRoom s.sb ⟨s.fresh, type, nullAddr, 0, []⟩ size align extra
        then (s.newBlock type, .error (-22))
        else (((s.newBlock type).ballocIn s.fresh size align extra).1,
          .ok (s.fresh, s.fresh + 1))) := by
  obtain ⟨p, hsplit⟩ := h.newBlock_split type
  have hcheck : battachCheck (s.newBlock type).sb (s.newBlock type).tailBlkaddr
      (nextAddr (s.behindNew type)) ⟨s.fresh, type, nullAddr, 0, []⟩ size align extra =
        if nextAddr (s.behindNew type) ≠ nullAddr ∧
          s.sb.size < battachRoom s.sb ⟨s.fresh, type, nullAddr, 0, []⟩ size align extra
        then none else some false := battachCheck_new rfl
  split
  · next hfull =>
      rw [if_pos hfull] at hcheck
      rw [BufMgr.ballocIn, BufMgr.attach, hsplit]
      dsimp only
      rw [hcheck]
  · next hfits =>
      rw [if_neg hfits] at hcheck
      have hret := ballocIn_ok hsplit hcheck
      exact Prod.ext rfl hret

theorem Named.ballocIn_found (h : s.Named) {type : BlockType} {requiredExt inlineExt : ℕ}
    (hfind : s.erofsBfindForAttach type size requiredExt inlineExt align = .ok (some id)) :
    (s.ballocIn id size align (u32 (requiredExt + inlineExt))).2 = .ok (id, s.fresh) := by
  obtain ⟨p, bb, q, rfl, hplace⟩ := bfind_some h.nodup hfind
  obtain ⟨up, hcheck⟩ := hplace.check
  exact ballocIn_ok hplace.split hcheck

/-- `erofs_balloc` fails without a change, does as when there is memory, or leaves a block. -/
theorem Named.ballocMem_cases (h : s.Named) (m : Memory) (type : BufType)
    (size requiredExt inlineExt : ℕ) :
    (∃ e, s.ballocMem m type size requiredExt inlineExt = ⟨s, [], .error e⟩) ∨
    (∃ r, s.ballocMem m type size requiredExt inlineExt =
      ⟨(s.erofsBalloc type size requiredExt inlineExt).1, [], .ok r⟩) ∨
    ((AllocCall.balloc type size requiredExt inlineExt).BlockLeft s m ∧
      ∃ bt freed e, s.ballocMem m type size requiredExt inlineExt =
        ⟨s.newBlock bt, freed, .error e⟩) := by
  rw [ballocMem, erofsBalloc]
  cases halign : getAlignsize s.sb type with
  | none => exact Or.inl ⟨_, rfl⟩
  | some r =>
      obtain ⟨align, bt⟩ := r
      dsimp only
      cases hfind : s.erofsBfindForAttach bt size requiredExt inlineExt align with
      | error e => exact Or.inl ⟨e, rfl⟩
      | ok found =>
          cases found with
          | some id =>
              dsimp only
              by_cases hm : m.head = true
              · rw [if_neg (not_not.mpr hm), h.ballocIn_found hfind]
                exact Or.inr (Or.inl ⟨_, rfl⟩)
              · rw [if_pos hm]
                exact Or.inl ⟨_, rfl⟩
          | none =>
              dsimp only
              by_cases hb : m.block = true
              · rw [if_neg (not_not.mpr hb)]
                by_cases hm : m.head = true
                · rw [if_neg (not_not.mpr hm)]
                  rw [h.ballocIn_new bt]
                  split
                  · next hfull =>
                      exact Or.inr (Or.inr ⟨⟨hb, align, bt, halign, hfind, Or.inr hfull⟩,
                        bt, _, _, rfl⟩)
                  · exact Or.inr (Or.inl ⟨_, rfl⟩)
                · rw [if_pos hm]
                  exact Or.inr (Or.inr ⟨⟨hb, align, bt, halign, hfind,
                    Or.inl (Bool.eq_false_iff.mpr hm)⟩, bt, _, _, rfl⟩)
              · rw [if_pos hb]
                exact Or.inl ⟨_, rfl⟩

theorem Named.ballocMem_left (h : s.Named) {m : Memory} {type : BufType}
    {requiredExt inlineExt : ℕ}
    (hleft : (AllocCall.balloc type size requiredExt inlineExt).BlockLeft s m) :
    ∃ bt freed e, s.ballocMem m type size requiredExt inlineExt =
      ⟨s.newBlock bt, freed, .error e⟩ := by
  obtain ⟨hb, align, bt, halign, hfind, hhead⟩ := hleft
  rw [ballocMem, halign]
  dsimp only
  rw [hfind]
  dsimp only
  rw [if_neg (not_not.mpr hb)]
  by_cases hm : m.head = true
  · rw [if_neg (not_not.mpr hm)]
    cases hhead with
    | inl hf =>
        rw [hf] at hm
        cases hm
    | inr hfull =>
        rw [h.ballocIn_new bt, if_pos hfull]
        exact ⟨bt, _, _, rfl⟩
  · rw [if_pos hm]
    exact ⟨bt, _, _, rfl⟩

theorem ballocIn_cases (s : BufMgr) (id size align extra : ℕ) :
    (∃ e, s.ballocIn id size align extra = (s, .error e)) ∨
      ∃ s' r, s.ballocIn id size align extra = (s', .ok r) := by
  rw [ballocIn]
  split
  · exact Or.inl ⟨_, rfl⟩
  · exact Or.inr ⟨_, _, rfl⟩

theorem battachMem_cases (s : BufMgr) (m : Memory) (bid hid : ℕ) (type : BufType) (size : ℕ) :
    (∃ e, s.battachMem m bid hid type size = ⟨s, [], .error e⟩) ∨
      ∃ r, s.battachMem m bid hid type size =
        ⟨(s.erofsBattach bid hid type size).1, [], .ok r⟩ := by
  rw [battachMem, erofsBattach]
  cases getAlignsize s.sb type with
  | none => exact Or.inl ⟨_, rfl⟩
  | some r =>
      obtain ⟨align, bt⟩ := r
      dsimp only
      by_cases ht : s.isTail bid hid = true
      · rw [if_neg (not_not.mpr ht), if_pos ht]
        by_cases hm : m.head = true
        · rw [if_neg (not_not.mpr hm)]
          cases s.ballocIn_cases bid size align 0 with
          | inl hin =>
              obtain ⟨e, he⟩ := hin
              rw [he]
              exact Or.inl ⟨e, rfl⟩
          | inr hin =>
              obtain ⟨s', r, hr⟩ := hin
              rw [hr]
              exact Or.inr ⟨r, rfl⟩
        · rw [if_pos hm]
          exact Or.inl ⟨_, rfl⟩
      · rw [if_pos ht]
        exact Or.inl ⟨_, rfl⟩

theorem erofsBhBalloon_cases (s : BufMgr) (bid hid incr : ℕ) :
    (∃ e, s.erofsBhBalloon bid hid incr = (s, .error e)) ∨
      ∃ s' r, s.erofsBhBalloon bid hid incr = (s', .ok r) := by
  rw [erofsBhBalloon]
  split
  · split
    · exact Or.inl ⟨_, rfl⟩
    · exact Or.inr ⟨_, _, rfl⟩
  · exact Or.inl ⟨_, rfl⟩

end Attach

end BufMgr

namespace AllocCall

open BufMgr

variable {s : BufMgr} {m : Memory}

theorem run_cases (h : s.Named) (c : AllocCall) :
    (∃ e, c.run s m = ⟨s, [], .error e⟩) ∨ c.run s m = ⟨s.step c.op, [], .ok ()⟩ ∨
      (c.BlockLeft s m ∧ ∃ bt freed e, c.run s m = ⟨s.newBlock bt, freed, .error e⟩) := by
  cases c with
  | balloc type size requiredExt inlineExt =>
      rw [run]
      rcases h.ballocMem_cases m type size requiredExt inlineExt with
        ⟨e, he⟩ | ⟨r, hr⟩ | ⟨hleft, bt, freed, e, he⟩
      · rw [he]
        exact Or.inl ⟨e, rfl⟩
      · rw [hr]
        exact Or.inr (Or.inl rfl)
      · rw [he]
        exact Or.inr (Or.inr ⟨hleft, bt, freed, e, rfl⟩)
  | battach bid hid type size =>
      rw [run]
      rcases s.battachMem_cases m bid hid type size with ⟨e, he⟩ | ⟨r, hr⟩
      · rw [he]
        exact Or.inl ⟨e, rfl⟩
      · rw [hr]
        exact Or.inr (Or.inl rfl)
  | balloon bid hid incr =>
      rw [run, op, BufMgr.step]
      rcases s.erofsBhBalloon_cases bid hid incr with ⟨e, he⟩ | ⟨s', r, hr⟩
      · rw [he]
        exact Or.inl ⟨e, rfl⟩
      · rw [hr]
        exact Or.inr (Or.inl rfl)

theorem run_of_left (h : s.Named) {c : AllocCall} (hleft : c.BlockLeft s m) :
    ∃ bt freed e, c.run s m = ⟨s.newBlock bt, freed, .error e⟩ := by
  cases c with
  | balloc type size requiredExt inlineExt =>
      obtain ⟨bt, freed, e, he⟩ := h.ballocMem_left hleft
      rw [run, he]
      exact ⟨bt, freed, e, rfl⟩
  | battach bid hid type size => exact absurd hleft id
  | balloon bid hid incr => exact absurd hleft id

/-- While the calls of a run fit, no allocation is refused because of the block behind. -/
theorem blockLeft_iff (h : s.Inv) {type : BufType} {size requiredExt inlineExt : ℕ} :
    (balloc type size requiredExt inlineExt).BlockLeft s m ↔ m.block = true ∧ m.head = false ∧
      ∃ align bt, getAlignsize s.sb type = some (align, bt) ∧
        s.erofsBfindForAttach bt size requiredExt inlineExt align = .ok none := by
  constructor
  · rintro ⟨hb, align, bt, halign, hfind, hhead⟩
    refine ⟨hb, ?_, align, bt, halign, hfind⟩
    cases hhead with
    | inl hm => exact hm
    | inr hfull => exact absurd (nextAddr_of_unmapped (h.behindNew_unmapped bt)) hfull.1
  · rintro ⟨hb, hm, align, bt, halign, hfind⟩
    exact ⟨hb, align, bt, halign, hfind, Or.inl hm⟩

end AllocCall

namespace BufMgr

open AllocCall

variable {s : BufMgr}

theorem MemReach.named (hs : MemReach (fun s m c => ¬ c.BlockLeft s m) s) : s.Named := by
  induction hs with
  | init sb startblk metablkcnt => exact named_init sb startblk metablkcnt
  | alloc m c _ hok ih =>
      rcases run_cases (m := m) ih c with ⟨e, he⟩ | hr | ⟨hleft, -⟩
      · rw [he]
        exact ih
      · rw [hr]
        exact ih.step c.op
      · exact absurd hleft hok
  | mapbh bb _ ih => exact ih.step (.mapbh bb)
  | bflush flush bb _ ih => exact ih.step (.bflush flush bb)
  | bdrop bid hid tryrevoke _ ih => exact ih.step (.bdrop bid hid tryrevoke)

/-- In every state of a run in which no call leaves a block behind, a call that fails is undone
exactly when it does not leave one either. -/
theorem failedCall_undone_iff (hs : MemReach (fun s m c => ¬ c.BlockLeft s m) s) (m : Memory)
    (c : AllocCall) : c.Undone s m ↔ ¬ c.BlockLeft s m := by
  have hnamed := hs.named
  constructor
  · intro h hleft
    obtain ⟨bt, freed, e, hrun⟩ := run_of_left hnamed hleft
    have hsame := (h e (by rw [hrun])).1.1
    rw [hrun] at hsame
    obtain ⟨p, hs, hs'⟩ := s.newBlock_blocks bt
    have hlen := congrArg List.length hsame
    rw [hs', hs, List.length_append, List.length_append, List.length_cons] at hlen
    omega
  · intro hok e he
    rcases run_cases (m := m) hnamed c with ⟨e', hrun⟩ | hrun | ⟨hleft, -⟩
    · rw [hrun]
      exact ⟨⟨rfl, rfl, rfl, rfl⟩, fun id hid => absurd hid List.not_mem_nil⟩
    · rw [hrun] at he
      cases he
    · exact absurd hleft hok

theorem not_blockLeft {m : Memory} {type : BufType} {align : ℕ} {bt : BlockType}
    {size requiredExt inlineExt : ℕ} (halign : getAlignsize s.sb type = some (align, bt))
    (hhead : m.head = true) (hnext : nextAddr (s.behindNew bt) = nullAddr) :
    ¬ (balloc type size requiredExt inlineExt).BlockLeft s m := by
  rintro ⟨-, align', bt', halign', -, hleft⟩
  rw [halign] at halign'
  cases halign'
  rcases hleft with hno | ⟨hne, -⟩
  · rw [hhead] at hno
    cases hno
  · exact hne hnext

/-- A mapped block of data, and one of metadata with an inode in it. -/
def twoBlocks : BufMgr :=
  let s := ((balloc .data 4096 0 0).run fresh4k ⟨true, true⟩).mgr.erofsMapbh none
  ((balloc .inode 96 0 0).run s ⟨true, true⟩).mgr

theorem twoBlocks_memReach : MemReach (fun s m c => ¬ c.BlockLeft s m) twoBlocks :=
  .alloc _ _ (.mapbh none (.alloc _ _ (.init _ 0 0) (not_blockLeft rfl rfl rfl)))
    (not_blockLeft rfl rfl rfl)

/-- `erofs_balloc` of another inode when `malloc` has no head for it. -/
theorem failedCall_undone_noHead :
    (balloc .inode 64 0 0).Undone twoBlocks ⟨true, false⟩ ↔
      ¬ (balloc .inode 64 0 0).BlockLeft twoBlocks ⟨true, false⟩ :=
  failedCall_undone_iff twoBlocks_memReach ⟨true, false⟩ (.balloc .inode 64 0 0)

theorem failedCall_blockLeft : ¬ ∀ s : BufMgr, MemReach (fun _ _ _ => True) s →
    ∀ (m : Memory) (c : AllocCall), c.Undone s m := by
  intro h
  have hundone := h fresh4k (.init _ 0 0) ⟨true, false⟩ (.balloc .data 4096 0 0) eNoMem rfl
  have hblocks : ((AllocCall.balloc .data 4096 0 0).run fresh4k ⟨true, false⟩).mgr.blocks =
      [⟨0, .data, nullAddr, 0, []⟩] := rfl
  have hsame := hundone.1.1
  rw [hblocks] at hsame
  cases hsame

end BufMgr

end ErofsUtils
