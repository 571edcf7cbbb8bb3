import ErofsUtils.BufMgrSound

/-!
# The block that an allocation goes to

What `erofs_bfind_for_attach` promises of the block that it picks: it is in the list, has the
type that was asked for and is partly filled, the attachment passes the test of `__erofs_battach`,
and the inline part stays in the image block in which the rest ends. This holds in every state in
which the blocks have names of their own, and no call ever gives a name twice.
-/

namespace ErofsUtils
namespace BufMgr

/-- No two blocks have the same identifier, none has one that is still to come, and the last
mapped block is in the list. -/
structure Named (s : BufMgr) : Prop where
  nodup : (s.blocks.map BufferBlock.id).Nodup
  fresh : ∀ id ∈ s.blocks.map BufferBlock.id, id < s.fresh
  last : ∀ id, s.lastMapped = some id → id ∈ s.blocks.map BufferBlock.id

section Named

variable {s s' : BufMgr} {p q : List BufferBlock}

theorem Named.congr (h : s.Named)
    (hids : s'.blocks.map BufferBlock.id = s.blocks.map BufferBlock.id)
    (hfresh : s.fresh ≤ s'.fresh) (hlast : s'.lastMapped = s.lastMapped) : s'.Named := by
  constructor
  · rw [hids]
    exact h.nodup
  · intro id hid
    rw [hids] at hid
    exact (h.fresh id hid).trans_le hfresh
  · intro id hid
    rw [hids]
    exact h.last id (hlast ▸ hid)

theorem attach_ids {id incr align extra ret : ℕ} {bh : Option ℕ}
    (h : s.attach id bh incr align extra = some (s', ret)) :
    s'.blocks.map BufferBlock.id = s.blocks.map BufferBlock.id ∧ s'.fresh = s.fresh ∧
      s'.lastMapped = s.lastMapped := by
  rw [attach] at h
  split at h
  · cases h
  · next p bb q hsplit =>
      split at h
      · cases h
      · rw [Option.some.injEq, Prod.mk.injEq] at h
        rw [← h.1, (splitAtBlock_some hsplit).1]
        exact ⟨by simp, rfl, rfl⟩

theorem Named.attach {id incr align extra ret : ℕ} {bh : Option ℕ} (h : s.Named)
    (ha : s.attach id bh incr align extra = some (s', ret)) : s'.Named := by
  obtain ⟨hids, hfresh, hlast⟩ := attach_ids ha
  exact h.congr hids hfresh.ge hlast

theorem Named.ballocIn (h : s.Named) (id size align extra : ℕ) :
    (s.ballocIn id size align extra).1.Named := by
  rw [BufMgr.ballocIn]
  cases ha : s.attach id (some s.fresh) size align extra with
  | none => exact h
  | some r =>
      obtain ⟨s', ret⟩ := r
      obtain ⟨hids, -, hlast⟩ := attach_ids ha
      exact h.congr hids (Nat.le_succ _) hlast

theorem Named.newBlock (h : s.Named) (type : BlockType) : (s.newBlock type).Named := by
  obtain ⟨p, hs, hs'⟩ := s.newBlock_blocks type
  have hperm : ((s.newBlock type).blocks.map BufferBlock.id).Perm
      (s.fresh :: s.blocks.map BufferBlock.id) := by
    rw [hs', hs, List.map_append, List.map_cons, List.map_append]
    exact List.perm_middle
  constructor
  · rw [hperm.nodup_iff, List.nodup_cons]
    exact ⟨fun hin => absurd (h.fresh _ hin) (lt_irrefl _), h.nodup⟩
  · intro id hid
    rw [hperm.mem_iff, List.mem_cons] at hid
    change id < s.fresh + 1
    cases hid with
    | inl hid => omega
    | inr hid =>
        have := h.fresh id hid
        omega
  · intro id hid
    rw [hperm.mem_iff]
    exact List.mem_cons_of_mem _ (h.last id hid)

theorem mapped_id (s : BufMgr) (bb : BufferBlock) : (s.mapped bb).id = bb.id := by
  rw [mapped]
  split <;> rfl

theorem Named.mapBlock (h : s.Named) {t : BufferBlock} (hs : s.blocks = p ++ t :: q) :
    (s.mapBlock p t q).Named := by
  have hids : (s.mapBlock p t q).blocks.map BufferBlock.id = s.blocks.map BufferBlock.id := by
    change (p ++ s.mapped t :: q).map BufferBlock.id = _
    rw [hs, List.map_append, List.map_append, List.map_cons, List.map_cons, mapped_id]
  constructor
  · rw [hids]
    exact h.nodup
  · rw [hids]
    exact h.fresh
  · intro id hid
    rw [hids]
    change (if t.blkaddr = nullAddr then some t.id else s.lastMapped) = some id at hid
    split at hid
    · rw [Option.some.injEq] at hid
      rw [← hid, hs]
      exact List.mem_map_of_mem (List.mem_append_right p List.mem_cons_self)
    · exact h.last id hid

theorem Named.mapbhLoop {bb : Option ℕ} (h : s.Named) (hs : s.blocks = p ++ q) :
    (mapbhLoop bb s p q).Named := by
  induction q generalizing s p with
  | nil => exact h
  | cons t q ih =>
      rw [BufMgr.mapbhLoop]
      split
      · exact h.mapBlock hs
      · apply ih (h.mapBlock hs)
        rw [List.append_assoc, List.singleton_append]
        rfl

theorem Named.erofsMapbh (h : s.Named) (bb : Option ℕ) : (s.erofsMapbh bb).Named := by
  rw [BufMgr.erofsMapbh]
  split
  · exact h
  · exact h.mapbhLoop s.splitLastMapped_append

/-- A freed block hands `last_mapped_block` on to the one in front of it. -/
theorem Named.bfree (h : s.Named) {bb : BufferBlock} (hs : s.blocks = p ++ bb :: q) :
    (s.bfree p bb q).Named := by
  have hids : s.blocks.map BufferBlock.id =
      p.map BufferBlock.id ++ bb.id :: q.map BufferBlock.id := by
    rw [hs, List.map_append, List.map_cons]
  have hgone : ((s.bfree p bb q).blocks.map BufferBlock.id) =
      p.map BufferBlock.id ++ q.map BufferBlock.id := List.map_append
  have hsub : ((s.bfree p bb q).blocks.map BufferBlock.id).Sublist
      (s.blocks.map BufferBlock.id) := by
    rw [hgone, hids]
    exact (List.Sublist.refl _).append (List.sublist_cons_self _ _)
  refine ⟨h.nodup.sublist hsub, fun id hid => h.fresh id (hsub.mem hid), ?_⟩
  intro id hid
  rw [hgone]
  change (if s.lastMapped = some bb.id then p.getLast?.map BufferBlock.id else s.lastMapped) =
    some id at hid
  split at hid
  · obtain ⟨b, hb, rfl⟩ := Option.map_eq_some_iff.mp hid
    exact List.mem_append_left _ (List.mem_map_of_mem (List.mem_of_getLast? hb))
  · next hne =>
      have hin := h.last id hid
      rw [hids, List.mem_append, List.mem_cons] at hin
      rw [List.mem_append]
      rcases hin with hin | rfl | hin
      · exact Or.inl hin
      · exact absurd hid hne
      · exact Or.inr hin

theorem Named.dropHeads (h : s.Named) {t : BufferBlock} (hs : s.blocks = p ++ t :: q)
    (buffers : List BufferHead) :
    ({ s with blocks := p ++ { t with buffers := buffers } :: q } : BufMgr).Named := by
  refine h.congr ?_ le_rfl rfl
  rw [hs, List.map_append, List.map_cons, List.map_append, List.map_cons]

theorem Named.withTail (h : s.Named) (tail metablkcnt : ℕ) :
    ({ s with tailBlkaddr := tail, metablkcnt := metablkcnt } : BufMgr).Named :=
  ⟨h.nodup, h.fresh, h.last⟩

theorem Named.bflushLoop {flush : ℕ → BhFlush} {bb : Option ℕ} (h : s.Named)
    (hs : s.blocks = p ++ q) : (bflushLoop flush bb s p q).1.Named := by
  induction q generalizing s p with
  | nil => exact h
  | cons t q ih =>
      have hdrop : ∀ buffers, ({ s.mapBlock p t q with
          blocks := p ++ { s.mapped t with buffers := buffers } :: q } : BufMgr).Named :=
        fun buffers => (h.mapBlock hs).dropHeads rfl buffers
      rw [BufMgr.bflushLoop]
      split
      · exact h
      dsimp only
      split
      · exact hdrop _
      · split
        · apply ih (hdrop _)
          rw [List.append_assoc, List.singleton_append]
        · exact ih (((hdrop _).bfree rfl).withTail _ _) rfl

theorem Named.erofsBdrop (h : s.Named) (bid hid : ℕ) (tryrevoke : Bool) :
    (s.erofsBdrop bid hid tryrevoke).Named := by
  rw [BufMgr.erofsBdrop]
  cases hsplit : splitAtBlock bid s.blocks with
  | none => exact h
  | some r =>
      obtain ⟨p, bb, q⟩ := r
      have hs := (splitAtBlock_some hsplit).1
      dsimp only
      split
      · exact h.dropHeads hs _
      · split
        · exact (h.bfree hs).withTail _ _
        · exact (h.bfree hs).withTail _ _

theorem Named.step (h : s.Named) (op : BufOp) : (s.step op).Named := by
  cases op with
  | balloc type size requiredExt inlineExt =>
      rw [BufMgr.step, erofsBalloc]
      split
      · exact h
      split
      · exact h
      · exact h.ballocIn _ _ _ _
      · exact (h.newBlock _).ballocIn _ _ _ _
  | battach bid hid type size =>
      rw [BufMgr.step, erofsBattach]
      split
      · exact h
      split
      · exact h.ballocIn _ _ _ _
      · exact h
  | balloon bid hid incr =>
      rw [BufMgr.step, erofsBhBalloon]
      split
      · split
        · exact h
        · next ha => exact h.attach ha
      · exact h
  | mapbh bb => exact h.erofsMapbh bb
  | bflush flush bb => exact h.bflushLoop rfl
  | bdrop bid hid tryrevoke => exact h.erofsBdrop bid hid tryrevoke

theorem named_init (sb : BlockSize) (startblk metablkcnt : ℕ) :
    (erofsBufferInit sb startblk metablkcnt).Named :=
  ⟨List.nodup_nil, fun _ hid => absurd hid List.not_mem_nil, fun _ hid => nomatch hid⟩

theorem Reach.named {ok : BufMgr → BufOp → Prop} (hs : Reach ok s) : s.Named := by
  induction hs with
  | init sb startblk metablkcnt => exact named_init sb startblk metablkcnt
  | step op _ _ ih => exact ih.step op

end Named

section Place

variable (s : BufMgr) (type : BlockType) (size requiredExt inlineExt alignsize : ℕ)

/-- The bytes in use in the last image block of a block from the buckets, when nothing of the
allocation may leave that block. -/
def WithinBlock (bb : BufferBlock) : Prop :=
  u64 (size + requiredExt + inlineExt) < s.sb.size ∧
    bb.off % s.sb.size ≤ s.sb.size - u64 (size + requiredExt + inlineExt) -
      (s.sb.size - u64 (size + requiredExt + inlineExt)) % alignsize

def InlineFits (bb : BufferBlock) : Prop :=
  u32 (u32 (battachRet s.sb bb size alignsize + requiredExt) % s.sb.size + inlineExt) ≤ s.sb.size

structure PlaceFor (p : List BufferBlock) (bb : BufferBlock) (q : List BufferBlock) : Prop where
  split : splitAtBlock bb.id s.blocks = some (p, bb, q)
  type : bb.type = type
  partly : bb.off % s.sb.size ≠ 0
  check : ∃ up, battachCheck s.sb s.tailBlkaddr (nextAddr q) bb size alignsize
    (u32 (requiredExt + inlineExt)) = some up
  room : s.WithinBlock size requiredExt inlineExt alignsize bb ∨
    s.InlineFits size requiredExt inlineExt alignsize bb

/-- The block with this identifier is one that the search may pick. -/
def PlaceAt (id : ℕ) : Prop :=
  ∃ p bb q, bb.id = id ∧ s.PlaceFor type size requiredExt inlineExt alignsize p bb q

end Place

variable {s : BufMgr} {type : BlockType} {size requiredExt inlineExt alignsize : ℕ}

theorem firstMapped_some {n : ℕ} {p q : List BufferBlock} {cur : BufferBlock}
    (h : s.firstMapped type n = some (p, cur, q)) :
    splitAtBlock cur.id s.blocks = some (p, cur, q) ∧ cur.type = type ∧ cur.off % s.sb.size = n := by
  have hmem := List.mem_of_find?_eq_some h
  rw [List.mem_filterMap] at hmem
  obtain ⟨id, -, hsplit⟩ := hmem
  have hid := (splitAtBlock_some hsplit).2
  have hsome := List.find?_some h
  dsimp only at hsome
  rw [decide_eq_true_eq] at hsome
  rw [hid]
  exact ⟨hsplit, hsome⟩

/-- The search through the buckets, from `n` bytes in use down. -/
theorem findMapped_some {n id used : ℕ}
    (hn : n ≤ s.sb.size - u64 (size + requiredExt + inlineExt) -
      (s.sb.size - u64 (size + requiredExt + inlineExt)) % alignsize)
    (htotal : u64 (size + requiredExt + inlineExt) < s.sb.size)
    (h : s.findMapped type size requiredExt inlineExt alignsize n = some (id, used)) :
    s.PlaceAt type size requiredExt inlineExt alignsize id := by
  induction n with
  | zero => cases h
  | succ n ih =>
      have ih := ih (by omega)
      rw [findMapped] at h
      cases hf : s.firstMapped type (n + 1) with
      | none =>
          rw [hf] at h
          exact ih h
      | some r =>
          obtain ⟨p, cur, q⟩ := r
          rw [hf] at h
          dsimp only at h
          split at h
          · exact ih h
          cases hcheck : battachCheck s.sb s.tailBlkaddr (nextAddr q) cur size alignsize
              (u32 (requiredExt + inlineExt)) with
          | none =>
              rw [hcheck] at h
              exact ih h
          | some up =>
              rw [hcheck, Option.some.injEq, Prod.mk.injEq] at h
              obtain ⟨hsplit, htype, hoff⟩ := firstMapped_some hf
              refine ⟨p, cur, q, h.1, hsplit, htype, ?_, ⟨up, hcheck⟩, Or.inl ⟨htotal, ?_⟩⟩
              · rw [hoff]
                exact Nat.succ_ne_zero n
              · rw [hoff]
                exact hn

theorem splitAtBlock_mid (hnodup : (s.blocks.map BufferBlock.id).Nodup) {p q : List BufferBlock}
    {b : BufferBlock} (hs : s.blocks = p ++ b :: q) :
    splitAtBlock b.id s.blocks = some (p, b, q) := by
  rw [hs] at hnodup ⊢
  rw [List.map_append, List.map_cons, List.nodup_append] at hnodup
  apply splitAtBlock_append
  intro hin
  exact hnodup.2.2 _ hin _ List.mem_cons_self rfl

/-- The search through the blocks that can grow, which stand behind `p`. -/
theorem findExpandable_some (hnodup : (s.blocks.map BufferBlock.id).Nodup) {used0 : ℕ}
    {p l : List BufferBlock} {acc : Option ℕ × ℕ} (hs : s.blocks = p ++ l)
    (hacc : ∀ id, acc.1 = some id → s.PlaceAt type size requiredExt inlineExt alignsize id) :
    ∀ id, (s.findExpandable type size requiredExt inlineExt alignsize used0 l acc).1 = some id →
      s.PlaceAt type size requiredExt inlineExt alignsize id := by
  induction l generalizing p acc with
  | nil => exact hacc
  | cons cur rest ih =>
      have hnext : s.blocks = (p ++ [cur]) ++ rest := by
        rw [hs, List.append_assoc, List.singleton_append]
      rw [findExpandable]
      split
      · exact ih hnext hacc
      next hcur =>
      rw [not_or, not_not] at hcur
      cases hcheck : battachCheck s.sb s.tailBlkaddr (nextAddr rest) cur size alignsize
          (u32 (requiredExt + inlineExt)) with
      | none => exact ih hnext hacc
      | some up =>
          dsimp only
          split
          · exact ih hnext hacc
          next hused =>
          split
          · exact ih hnext hacc
          split
          · apply ih hnext
            intro id hid
            rw [Option.some.injEq] at hid
            exact ⟨p, cur, rest, hid, splitAtBlock_mid hnodup hs, hcur.2, hcur.1, ⟨up, hcheck⟩,
              Or.inr (Nat.le_of_not_lt hused)⟩
          · exact ih hnext hacc

theorem fromLastMapped_suffix (s : BufMgr) : ∃ p, s.blocks = p ++ s.fromLastMapped := by
  rw [fromLastMapped]
  cases s.lastMapped with
  | none => exact ⟨[], rfl⟩
  | some id =>
      dsimp only
      cases hsplit : splitAtBlock id s.blocks with
      | none => exact ⟨s.blocks, (List.append_nil _).symm⟩
      | some r =>
          obtain ⟨p, bb, q⟩ := r
          exact ⟨p, (splitAtBlock_some hsplit).1⟩

/-- `erofs_bfind_for_attach` picks only blocks that will take the allocation. -/
theorem bfind_some (hnodup : (s.blocks.map BufferBlock.id).Nodup) {id : ℕ}
    (h : s.erofsBfindForAttach type size requiredExt inlineExt alignsize = .ok (some id)) :
    s.PlaceAt type size requiredExt inlineExt alignsize id := by
  rw [erofsBfindForAttach] at h
  dsimp only at h
  split at h
  · cases h
  split at h
  · cases h
  rw [Except.ok.injEq] at h
  obtain ⟨p, hp⟩ := s.fromLastMapped_suffix
  apply findExpandable_some hnodup hp _ id h
  intro id hid
  split at hid
  · cases hid
  next found =>
  rw [Option.some.injEq] at hid
  subst hid
  split at found
  · cases found
  · next htotal =>
      exact findMapped_some le_rfl (Nat.lt_of_not_le htotal) found

/-- The test on a new block, which fails only where it would have to grow over the next one. -/
theorem battachCheck_new {tail next incr align extra : ℕ} {sb : BlockSize} {bb : BufferBlock}
    (haddr : bb.blkaddr = nullAddr) :
    battachCheck sb tail next bb incr align extra =
      if next ≠ nullAddr ∧ sb.size < battachRoom sb bb incr align extra then none
      else some false := by
  rw [battachCheck]
  by_cases hlt : battachRoom sb bb incr align extra < sb.size
  · rw [if_pos hlt, if_neg (fun hc => Nat.lt_asymm hlt hc.2)]
  · rw [if_neg hlt, if_pos haddr]
    exact if_congr and_comm rfl rfl

theorem Named.newBlock_split (h : s.Named) (type : BlockType) : ∃ p,
    splitAtBlock s.fresh (s.newBlock type).blocks =
      some (p, ⟨s.fresh, type, nullAddr, 0, []⟩, s.behindNew type) := by
  obtain ⟨p, -, hs'⟩ := s.newBlock_blocks type
  exact ⟨p, splitAtBlock_mid (h.newBlock type).nodup hs'⟩

theorem bfind_error {e : ℤ} :
    s.erofsBfindForAttach type size requiredExt inlineExt alignsize = .error e ↔
      e = -28 ∧ s.sb.size < u32 (u64 (size + requiredExt) % s.sb.size + inlineExt) := by
  rw [erofsBfindForAttach]
  dsimp only
  split
  · next hlt =>
      rw [Except.error.injEq]
      constructor
      · rintro rfl
        exact ⟨rfl, hlt⟩
      · rintro ⟨rfl, -⟩
        rfl
  · next hlt =>
      have hne : ¬ (e = -28 ∧ s.sb.size < u32 (u64 (size + requiredExt) % s.sb.size + inlineExt)) :=
        fun he => hlt he.2
      simp only [hne, iff_false]
      split <;> simp

section Attached

variable {s : BufMgr} {p q : List BufferBlock} {bb : BufferBlock} {size align : ℕ}

def attached (s : BufMgr) (p : List BufferBlock) (bb : BufferBlock) (q : List BufferBlock)
    (size align : ℕ) (up : Bool) : BufMgr :=
  { s with
    blocks := p ++ battachBlock bb size align (some s.fresh) :: q
    tailBlkaddr :=
      if up then u32 (bb.blkaddr + s.sb.blkRoundUp (battachBlock bb size align (some s.fresh)).off)
      else s.tailBlkaddr
    mappedList := s.bupdateMapped bb
    fresh := s.fresh + 1 }

theorem ballocIn_eq {id extra : ℕ} {up : Bool} (hsplit : splitAtBlock id s.blocks = some (p, bb, q))
    (hcheck : battachCheck s.sb s.tailBlkaddr (nextAddr q) bb size align extra = some up) :
    s.ballocIn id size align extra = (s.attached p bb q size align up, .ok (id, s.fresh)) := by
  rw [ballocIn, attach, hsplit]
  dsimp only
  rw [hcheck]
  rfl

end Attached

end BufMgr
end ErofsUtils
