import ErofsUtils.BufMgrAttach

/-!
# The invariant of the buffer manager

Blocks are mapped in list order, so the mapped ones are a prefix of the list; a mapped block
only grows when it is the last one and ends at the tail. One lemma for each thing that a call
can do to the list: change a block, insert one, remove one, map the next one.
-/

namespace ErofsUtils

theorem nullAddr_lt : nullAddr < 2 ^ 32 := by
  rw [nullAddr]
  omega

section Split

variable {id : ℕ} {b : BufferBlock} {l p q : List BufferBlock}

theorem splitAtBlock_some (h : splitAtBlock id l = some (p, b, q)) :
    l = p ++ b :: q ∧ b.id = id := by
  induction l generalizing p with
  | nil => cases h
  | cons c l ih =>
    by_cases hc : c.id = id
    · rw [splitAtBlock, if_pos hc] at h
      cases h
      exact ⟨rfl, hc⟩
    · rw [splitAtBlock, if_neg hc] at h
      obtain ⟨⟨p', b', q'⟩, hsplit, heq⟩ := Option.map_eq_some_iff.mp h
      cases heq
      obtain ⟨hl, hid⟩ := ih hsplit
      exact ⟨by rw [hl, List.cons_append], hid⟩

theorem splitAtBlock_of_mem (h : id ∈ l.map BufferBlock.id) : ∃ r, splitAtBlock id l = some r := by
  induction l with
  | nil => cases h
  | cons c l ih =>
    rw [splitAtBlock]
    split
    · exact ⟨_, rfl⟩
    · next hc =>
      rw [List.map_cons, List.mem_cons] at h
      obtain ⟨r, hr⟩ := ih (h.resolve_left (Ne.symm hc))
      exact ⟨_, by rw [hr]; rfl⟩

theorem splitAtBlock_append (h : b.id ∉ p.map BufferBlock.id) :
    splitAtBlock b.id (p ++ b :: q) = some (p, b, q) := by
  induction p with
  | nil => simp [splitAtBlock]
  | cons c p ih =>
    simp only [List.map_cons, List.mem_cons, not_or] at h
    rw [List.cons_append, splitAtBlock, if_neg (Ne.symm h.1), ih h.2]
    rfl

end Split

def mappedIds (l : List BufferBlock) : List ℕ :=
  (l.filter fun b => b.IsMapped).map BufferBlock.id

section MappedIds

variable {l p q : List BufferBlock} {b : BufferBlock}

@[simp] theorem mappedIds_append : mappedIds (p ++ q) = mappedIds p ++ mappedIds q := by
  simp [mappedIds]

theorem mappedIds_cons_of_mapped (h : b.IsMapped) : mappedIds (b :: l) = b.id :: mappedIds l := by
  simp [mappedIds, h]

theorem mappedIds_cons_of_not (h : ¬ b.IsMapped) : mappedIds (b :: l) = mappedIds l := by
  simp [mappedIds, h]

theorem mappedIds_eq_nil (h : ∀ b ∈ l, ¬ b.IsMapped) : mappedIds l = [] := by
  simpa [mappedIds, List.filter_eq_nil_iff] using h

theorem mappedIds_of_mapped (h : ∀ b ∈ l, b.IsMapped) : mappedIds l = l.map BufferBlock.id := by
  rw [mappedIds, List.filter_eq_self.mpr (by simpa using h)]

theorem mem_of_mem_mappedIds {id : ℕ} (h : id ∈ mappedIds l) :
    ∃ b ∈ l, b.IsMapped ∧ b.id = id := by
  obtain ⟨b, hb, rfl⟩ := List.mem_map.mp h
  obtain ⟨hmem, hmapped⟩ := List.mem_filter.mp hb
  exact ⟨b, hmem, by simpa using hmapped, rfl⟩

end MappedIds

/-- A symmetric relation on all pairs survives the replacement of one member. -/
theorem pairwise_replace {α : Type*} {R : α → α → Prop} (hsymm : ∀ a b, R a b → R b a)
    {p q : List α} {b b' : α} (h : (p ++ b :: q).Pairwise R) (hnew : ∀ c ∈ p ++ q, R b' c) :
    (p ++ b' :: q).Pairwise R := by
  obtain ⟨hp, hq, hpq⟩ := List.pairwise_append.mp h
  refine List.pairwise_append.mpr ⟨hp, List.pairwise_cons.mpr ⟨?_, hq.of_cons⟩, ?_⟩
  · exact fun c hc => hnew c (List.mem_append_right p hc)
  · intro a ha c hc
    rcases List.mem_cons.mp hc with rfl | hc
    · exact hsymm _ _ (hnew a (List.mem_append_left q ha))
    · exact hpq a ha c (List.mem_cons_of_mem b hc)

namespace BufMgr

/-- The invariant of the buffer manager. The first three and the last are about the
representation: names are unique and no number has wrapped. -/
structure Inv (s : BufMgr) : Prop where
  nodup : (s.blocks.map BufferBlock.id).Nodup
  fresh : ∀ b ∈ s.blocks, b.id < s.fresh
  bytes : ∀ b ∈ s.blocks, b.off + s.sb.size < 2 ^ 64
  heads : ∀ b ∈ s.blocks, b.HeadsOk
  order : s.blocks.Pairwise fun b c => c.IsMapped → b.IsMapped
  last : s.lastMapped = (mappedIds s.blocks).getLast?
  apart : s.blocks.Pairwise (BufferBlock.Apart s.sb)
  below : ∀ b ∈ s.blocks, b.IsMapped → 0 < b.nblocks s.sb → b.stop s.sb ≤ s.tailBlkaddr
  limit : ∀ b ∈ s.blocks, b.IsMapped → b.stop s.sb < nullAddr

theorem inv_init (sb : BlockSize) (startblk metablkcnt : ℕ) :
    (erofsBufferInit sb startblk metablkcnt).Inv := by
  constructor <;> simp [erofsBufferInit, mappedIds]

variable {s s' : BufMgr} {p q : List BufferBlock} {b b' : BufferBlock}

/-- One block changes its contents and keeps its address; the tail does not go back. -/
theorem Inv.replace (h : s.Inv) (hs : s.blocks = p ++ b :: q) (hs' : s'.blocks = p ++ b' :: q)
    (hsb : s'.sb = s.sb) (hfresh : s.fresh ≤ s'.fresh) (hlast : s'.lastMapped = s.lastMapped)
    (htail : s.tailBlkaddr ≤ s'.tailBlkaddr) (hid : b'.id = b.id)
    (haddr : b'.blkaddr = b.blkaddr) (hbytes : b'.off + s.sb.size < 2 ^ 64)
    (hheads : b'.HeadsOk) (hapart : ∀ c ∈ p ++ q, BufferBlock.Apart s.sb b' c)
    (hbelow : b'.IsMapped → 0 < b'.nblocks s.sb → b'.stop s.sb ≤ s'.tailBlkaddr)
    (hlimit : b'.IsMapped → b'.stop s.sb < nullAddr) : s'.Inv := by
  have hmap : b'.IsMapped ↔ b.IsMapped := by rw [BufferBlock.IsMapped, haddr]; rfl
  have hids : s'.blocks.map BufferBlock.id = s.blocks.map BufferBlock.id := by
    rw [hs, hs']
    simp [hid]
  -- every block is an old one or the new one
  have hmem : ∀ c ∈ s'.blocks, c = b' ∨ c ∈ s.blocks := by
    intro c hc
    rw [hs'] at hc
    rw [hs]
    simp only [List.mem_append, List.mem_cons] at hc ⊢
    tauto
  have hbmem : b ∈ s.blocks := by rw [hs]; simp
  constructor
  · rw [hids]
    exact h.nodup
  · intro c hc
    rcases hmem c hc with rfl | hc
    · rw [hid]
      exact (h.fresh b hbmem).trans_le hfresh
    · exact (h.fresh c hc).trans_le hfresh
  · intro c hc
    rw [hsb]
    rcases hmem c hc with rfl | hc
    · exact hbytes
    · exact h.bytes c hc
  · intro c hc
    rcases hmem c hc with rfl | hc
    · exact hheads
    · exact h.heads c hc
  · have hord := h.order
    rw [hs, List.pairwise_append, List.pairwise_cons] at hord
    rw [hs', List.pairwise_append, List.pairwise_cons]
    refine ⟨hord.1, ⟨fun c hc hm => hmap.mpr (hord.2.1.1 c hc hm), hord.2.1.2⟩, ?_⟩
    intro a ha c hc hm
    rcases List.mem_cons.mp hc with rfl | hc
    · exact hord.2.2 a ha b List.mem_cons_self (hmap.mp hm)
    · exact hord.2.2 a ha c (List.mem_cons_of_mem b hc) hm
  · rw [hlast, h.last, hs, hs']
    by_cases hm : b.IsMapped
    · simp [mappedIds_cons_of_mapped hm, mappedIds_cons_of_mapped (hmap.mpr hm), hid]
    · simp [mappedIds_cons_of_not hm, mappedIds_cons_of_not (fun h' => hm (hmap.mp h'))]
  · rw [hs', hsb]
    have hap := h.apart
    rw [hs] at hap
    exact pairwise_replace (fun _ _ => BufferBlock.Apart.symm s.sb) hap hapart
  · intro c hc hm hpos
    rw [hsb] at hpos ⊢
    rcases hmem c hc with rfl | hc
    · exact hbelow hm hpos
    · exact (h.below c hc hm hpos).trans htail
  · intro c hc hm
    rw [hsb]
    rcases hmem c hc with rfl | hc
    · exact hlimit hm
    · exact h.limit c hc hm

theorem Inv.apart_mid (h : s.Inv) (hs : s.blocks = p ++ b :: q) {c : BufferBlock}
    (hc : c ∈ p ++ q) : BufferBlock.Apart s.sb b c := by
  have hap := h.apart
  rw [hs, List.pairwise_append, List.pairwise_cons] at hap
  rcases List.mem_append.mp hc with hc | hc
  · exact (hap.2.2 c hc b List.mem_cons_self).symm
  · exact hap.2.1.1 c hc

theorem Inv.stop_le_blkaddr (h : s.Inv) (hs : s.blocks = p ++ b :: q) (hb : b.IsMapped)
    (htail : s.tailBlkaddr = b.stop s.sb) {c : BufferBlock} (hc : c ∈ p ++ q)
    (hm : c.IsMapped) (hpos : 0 < c.nblocks s.sb) : c.stop s.sb ≤ b.blkaddr := by
  have hcmem : c ∈ s.blocks := by
    rw [hs]
    simp only [List.mem_append, List.mem_cons] at hc ⊢
    tauto
  have hle := h.below c hcmem hm hpos
  have hap := h.apart_mid hs hc
  rcases Nat.eq_zero_or_pos (b.nblocks s.sb) with h0 | h0
  · have hend : b.stop s.sb = b.blkaddr := by rw [BufferBlock.stop, h0, Nat.add_zero]
    rw [htail, hend] at hle
    exact hle
  · rcases hap hb hm h0 hpos with hlt | hlt
    · have : c.blkaddr < c.stop s.sb := Nat.lt_add_of_pos_right hpos
      omega
    · exact hlt

/-- `__erofs_battach` keeps the invariant. -/
theorem Inv.attach {id incr align extra ret : ℕ} {bh : Option ℕ} {bb : BufferBlock}
    (h : s.Inv) (halign : 0 < align) (hdvd : align ∣ s.sb.size)
    (hsplit : splitAtBlock id s.blocks = some (p, bb, q))
    (hfit : bb.AttachFits s.sb incr align extra)
    (ha : s.attach id bh incr align extra = some (s', ret)) :
    s'.Inv := by
  obtain ⟨hs, -⟩ := splitAtBlock_some hsplit
  rw [BufMgr.attach, hsplit] at ha
  simp only at ha
  cases hcheck : battachCheck s.sb s.tailBlkaddr (nextAddr q) bb incr align extra with
  | none => simp [hcheck] at ha
  | some up =>
    simp only [hcheck, Option.some.injEq, Prod.mk.injEq] at ha
    obtain ⟨rfl, -⟩ := ha
    have hle : align ≤ s.sb.size := Nat.le_of_dvd s.sb.size_pos hdvd
    have hmem : bb ∈ s.blocks := by rw [hs]; simp
    have hoff := battachBlock_off halign hle hfit bh
    have hbytes := hfit.bytes
    have hround : s.sb.blkRoundUp (battachBlock bb incr align bh).off =
        s.sb.blocksOf (roundUp bb.off align + incr) := by
      rw [hoff, s.sb.blkRoundUp_eq (by omega)]
    have hstop : (battachBlock bb incr align bh).stop s.sb =
        bb.blkaddr + s.sb.blocksOf (roundUp bb.off align + incr) := by
      rw [BufferBlock.stop, BufferBlock.nblocks, hoff, battachBlock_blkaddr]
    have hlimit : bb.IsMapped → (battachBlock bb incr align bh).stop s.sb < nullAddr := by
      intro hm
      rw [hstop]
      exact hfit.addr hm
    have htrunc : bb.IsMapped → u32 ((battachBlock bb incr align bh).stop s.sb) =
        (battachBlock bb incr align bh).stop s.sb := by
      intro hm
      have hlt := (hlimit hm).trans nullAddr_lt
      rw [u32, Nat.mod_eq_of_lt hlt]
    -- the three ways in which the test passes
    have hcases := battachCheck_cases halign hdvd hfit hcheck
    refine h.replace hs rfl rfl le_rfl rfl ?_ battachBlock_id battachBlock_blkaddr ?_
      ((h.heads bb hmem).attach halign hle hfit bh) ?_ ?_ ?_
    · rcases hcases with ⟨hsame, hup⟩ | ⟨-, -, rfl⟩ | ⟨-, hm, htail, rfl⟩
      · cases up with
        | false => simp
        | true =>
          obtain ⟨hm, htail⟩ := hup rfl
          simp only [if_true]
          rw [hround, ← hstop, htrunc hm, hstop, hsame, htail, BufferBlock.stop]
      · simp
      · simp only [if_true]
        rw [hround, ← hstop, htrunc hm, hstop, htail, BufferBlock.stop]
        refine Nat.add_le_add_left (s.sb.blocksOf_mono ?_) _
        exact (le_roundUp halign).trans (Nat.le_add_right _ _)
    · rw [hoff]
      omega
    · intro c hc hbm hcm hb0 hc0
      rw [BufferBlock.nblocks, hoff] at hb0
      rw [hstop, battachBlock_blkaddr]
      rcases hcases with ⟨hsame, -⟩ | ⟨-, hm, -⟩ | ⟨-, hm, htail, -⟩
      · rw [hsame] at hb0 ⊢
        exact h.apart_mid hs hc (isMapped_battachBlock.mp hbm) hcm hb0 hc0
      · exact absurd (isMapped_battachBlock.mp hbm) hm
      · exact .inr (h.stop_le_blkaddr hs hm htail hc hcm hc0)
    · intro hbm hb0
      rw [BufferBlock.nblocks, hoff] at hb0
      have hbm := isMapped_battachBlock.mp hbm
      rcases hcases with ⟨hsame, hup⟩ | ⟨-, hm, -⟩ | ⟨-, hm, htail, rfl⟩
      · cases up with
        | false =>
          rw [hstop, hsame]
          rw [hsame] at hb0
          exact h.below bb hmem hbm hb0
        | true =>
          simp only [if_true]
          rw [hround, ← hstop, htrunc hbm]
      · exact absurd hbm hm
      · simp only [if_true]
        rw [hround, ← hstop, htrunc hbm]
    · exact fun hbm => hlimit (isMapped_battachBlock.mp hbm)

theorem Inv.insert {bb : BufferBlock} (h : s.Inv) (hs : s.blocks = p ++ q)
    (hq : ∀ c ∈ q, ¬ c.IsMapped) (hid : bb.id = s.fresh) (haddr : bb.blkaddr = nullAddr)
    (hoff : bb.off = 0) (hbuf : bb.buffers = []) (hs' : s'.blocks = p ++ bb :: q)
    (hsb : s'.sb = s.sb) (hfresh : s'.fresh = s.fresh + 1) (hlast : s'.lastMapped = s.lastMapped)
    (htail : s'.tailBlkaddr = s.tailBlkaddr) : s'.Inv := by
  have hbb : ¬ bb.IsMapped := fun hm => hm haddr
  have hmem : ∀ c ∈ s'.blocks, c = bb ∨ c ∈ s.blocks := by
    intro c hc
    rw [hs'] at hc
    rw [hs]
    simp only [List.mem_append, List.mem_cons] at hc ⊢
    tauto
  have hperm : s'.blocks.Perm (bb :: s.blocks) := by
    rw [hs', hs]
    exact List.perm_middle
  constructor
  · refine (hperm.map BufferBlock.id).nodup_iff.mpr (List.nodup_cons.mpr ⟨?_, h.nodup⟩)
    rw [hid]
    intro hc
    obtain ⟨c, hc, hcid⟩ := List.mem_map.mp hc
    have := h.fresh c hc
    omega
  · intro c hc
    rw [hfresh]
    rcases hmem c hc with rfl | hc
    · omega
    · have := h.fresh c hc
      omega
  · intro c hc
    rw [hsb]
    rcases hmem c hc with rfl | hc
    · have := s.sb.size_le
      omega
    · exact h.bytes c hc
  · intro c hc
    rcases hmem c hc with rfl | hc
    · exact ⟨by rw [hbuf]; exact .nil, by rw [hbuf]; simp⟩
    · exact h.heads c hc
  · have hord := h.order
    rw [hs, List.pairwise_append] at hord
    rw [hs', List.pairwise_append, List.pairwise_cons]
    refine ⟨hord.1, ⟨fun c hc hm => absurd hm (hq c hc), hord.2.1⟩, ?_⟩
    intro a ha c hc hm
    rcases List.mem_cons.mp hc with rfl | hc
    · exact absurd hm hbb
    · exact absurd hm (hq c hc)
  · rw [hlast, h.last, hs, hs']
    simp [mappedIds_cons_of_not hbb]
  · rw [hsb]
    refine (hperm.pairwise_iff fun hab => BufferBlock.Apart.symm s.sb hab).mpr ?_
    exact List.pairwise_cons.mpr ⟨fun c _ hm => absurd hm hbb, h.apart⟩
  · intro c hc hm hpos
    rw [hsb] at hpos ⊢
    rw [htail]
    rcases hmem c hc with rfl | hc
    · exact absurd hm hbb
    · exact h.below c hc hm hpos
  · intro c hc hm
    rw [hsb]
    rcases hmem c hc with rfl | hc
    · exact absurd hm hbb
    · exact h.limit c hc hm

/-- A block leaves the list; the other ones stay below the tail. -/
theorem Inv.remove {bb : BufferBlock} (h : s.Inv) (hs : s.blocks = p ++ bb :: q)
    (hs' : s'.blocks = p ++ q) (hsb : s'.sb = s.sb) (hfresh : s'.fresh = s.fresh)
    (hlast : s'.lastMapped =
      if s.lastMapped = some bb.id then p.getLast?.map BufferBlock.id else s.lastMapped)
    (hbelow : ∀ c ∈ p ++ q, c.IsMapped → 0 < c.nblocks s.sb →
      c.stop s.sb ≤ s'.tailBlkaddr) : s'.Inv := by
  have hsub : (p ++ q).Sublist s.blocks := by
    rw [hs]
    exact (List.Sublist.refl p).append (List.sublist_cons_self bb q)
  have hnodup := h.nodup
  have hord := h.order
  have hbblast := h.last
  rw [hs] at hnodup hord hbblast
  rw [List.map_append, List.map_cons, List.nodup_append, List.nodup_cons] at hnodup
  rw [List.pairwise_append, List.pairwise_cons] at hord
  constructor
  · rw [hs']
    exact h.nodup.sublist (hsub.map _)
  · intro c hc
    rw [hfresh]
    exact h.fresh c (hsub.mem (hs' ▸ hc))
  · intro c hc
    rw [hsb]
    exact h.bytes c (hsub.mem (hs' ▸ hc))
  · exact fun c hc => h.heads c (hsub.mem (hs' ▸ hc))
  · rw [hs']
    exact h.order.sublist hsub
  · rw [hlast, hs']
    by_cases hm : bb.IsMapped
    · have hp : ∀ c ∈ p, c.IsMapped := fun c hc => hord.2.2 c hc bb List.mem_cons_self hm
      rw [mappedIds_append, mappedIds_cons_of_mapped hm] at hbblast
      cases hq : mappedIds q with
      | nil =>
        rw [hq, List.getLast?_append] at hbblast
        simp only [List.getLast?_singleton, Option.some_or] at hbblast
        rw [if_pos hbblast, mappedIds_append, hq, List.append_nil, mappedIds_of_mapped hp,
          List.getLast?_map]
      | cons id ids =>
        have hne : s.lastMapped ≠ some bb.id := by
          intro heq
          rw [hq, List.getLast?_append, List.getLast?_cons_cons, heq] at hbblast
          have hin : bb.id ∈ mappedIds q := by
            rw [hq]
            refine List.mem_of_getLast? ?_
            cases hlast? : (id :: ids).getLast? with
            | none => simp at hlast?
            | some i =>
              rw [hlast?] at hbblast
              simp only [Option.some_or] at hbblast
              exact hbblast.symm
          obtain ⟨c, hc, -, hcid⟩ := mem_of_mem_mappedIds hin
          exact hnodup.2.1.1 (hcid ▸ List.mem_map_of_mem hc)
        rw [if_neg hne, hbblast, mappedIds_append, hq, List.getLast?_append,
          List.getLast?_append, List.getLast?_cons_cons]
    · rw [mappedIds_append, mappedIds_cons_of_not hm, ← mappedIds_append] at hbblast
      have hne : s.lastMapped ≠ some bb.id := by
        intro heq
        rw [heq] at hbblast
        obtain ⟨c, hc, hcm, hcid⟩ := mem_of_mem_mappedIds (List.mem_of_getLast? hbblast.symm)
        rcases List.mem_append.mp hc with hc | hc
        · exact hnodup.2.2 _ (List.mem_map_of_mem hc) _ List.mem_cons_self hcid
        · exact hnodup.2.1.1 (hcid ▸ List.mem_map_of_mem hc)
      rw [if_neg hne, hbblast]
  · rw [hs', hsb]
    exact h.apart.sublist hsub
  · intro c hc hm hpos
    rw [hsb] at hpos ⊢
    exact hbelow c (hs' ▸ hc) hm hpos
  · intro c hc hm
    rw [hsb]
    exact h.limit c (hsub.mem (hs' ▸ hc)) hm

def endFrom (sb : BlockSize) (tail : ℕ) (t : BufferBlock) : ℕ :=
  (if t.blkaddr = nullAddr then tail else t.blkaddr) + t.nblocks sb

theorem mappedEnd_eq {t : BufferBlock} (hbytes : t.off + s.sb.size < 2 ^ 64)
    (hfit : endFrom s.sb s.tailBlkaddr t < nullAddr) :
    s.mappedEnd t = endFrom s.sb s.tailBlkaddr t ∧
      (s.mapped t).stop s.sb = endFrom s.sb s.tailBlkaddr t := by
  have hstop : (s.mapped t).stop s.sb = endFrom s.sb s.tailBlkaddr t := by
    rw [mapped, endFrom, BufferBlock.stop]
    split_ifs <;> rfl
  refine ⟨?_, hstop⟩
  have hsum : (s.mapped t).blkaddr + s.sb.blkRoundUp t.off = endFrom s.sb s.tailBlkaddr t := by
    rw [s.sb.blkRoundUp_eq hbytes, ← hstop, BufferBlock.stop, mapped]
    split_ifs <;> rfl
  rw [mappedEnd, hsum, u32, Nat.mod_eq_of_lt (hfit.trans nullAddr_lt)]

theorem isMapped_mapped {t : BufferBlock} (hfit : endFrom s.sb s.tailBlkaddr t < nullAddr) :
    (s.mapped t).IsMapped := by
  rw [BufferBlock.IsMapped, mapped]
  rw [endFrom] at hfit
  split_ifs at hfit ⊢ with hnull
  · exact (by omega : s.tailBlkaddr ≠ nullAddr)
  · exact hnull

/-- `__erofs_mapbh` keeps the invariant on the first block that is not mapped, and on those that
are. -/
theorem Inv.mapBlock {t : BufferBlock} (h : s.Inv) (hs : s.blocks = p ++ t :: q)
    (hp : ∀ c ∈ p, c.IsMapped) (hfit : endFrom s.sb s.tailBlkaddr t < nullAddr) :
    (s.mapBlock p t q).Inv := by
  have hmem : t ∈ s.blocks := by rw [hs]; simp
  obtain ⟨hend, hstop⟩ := mappedEnd_eq (h.bytes t hmem) hfit
  by_cases ht : t.IsMapped
  · have heq : s.mapped t = t := if_neg ht
    have hend' : s.mappedEnd t = t.stop s.sb := by rw [hend, ← hstop, heq]
    refine h.replace hs rfl rfl le_rfl (if_neg ht) (le_max_left _ _) (by rw [heq]) (by rw [heq])
      (by rw [heq]; exact h.bytes t hmem) (by rw [heq]; exact h.heads t hmem) ?_ ?_ ?_
    · rw [heq]
      exact fun c hc => h.apart_mid hs hc
    · intro _ _
      rw [heq, ← hend']
      exact le_max_right _ _
    · rw [heq]
      exact h.limit t hmem
  · have hnull : t.blkaddr = nullAddr := not_not.mp ht
    have heq : s.mapped t = { t with blkaddr := s.tailBlkaddr } := if_pos hnull
    have hmapped := isMapped_mapped hfit
    have hq : ∀ c ∈ q, ¬ c.IsMapped := by
      have hord := h.order
      rw [hs, List.pairwise_append, List.pairwise_cons] at hord
      exact fun c hc hm => ht (hord.2.1.1 c hc hm)
    have hin : ∀ c ∈ (s.mapBlock p t q).blocks, c = s.mapped t ∨ c ∈ s.blocks := by
      intro c hc
      change c ∈ p ++ s.mapped t :: q at hc
      rw [hs]
      simp only [List.mem_append, List.mem_cons] at hc ⊢
      tauto
    have hids : (s.mapBlock p t q).blocks.map BufferBlock.id = s.blocks.map BufferBlock.id := by
      change (p ++ s.mapped t :: q).map BufferBlock.id = _
      rw [hs, heq]
      simp
    constructor
    · rw [hids]
      exact h.nodup
    · intro c hc
      rcases hin c hc with rfl | hc
      · rw [heq]
        exact h.fresh t hmem
      · exact h.fresh c hc
    · intro c hc
      rcases hin c hc with rfl | hc
      · rw [heq]
        exact h.bytes t hmem
      · exact h.bytes c hc
    · intro c hc
      rcases hin c hc with rfl | hc
      · rw [heq]
        exact ⟨(h.heads t hmem).ordered, (h.heads t hmem).inside⟩
      · exact h.heads c hc
    · have hord := h.order
      rw [hs, List.pairwise_append, List.pairwise_cons] at hord
      refine List.pairwise_append.mpr ⟨hord.1, List.pairwise_cons.mpr ⟨?_, hord.2.1.2⟩, ?_⟩
      · exact fun c hc hm => absurd hm (hq c hc)
      · exact fun a ha _ _ _ => hp a ha
    · change (if t.blkaddr = nullAddr then some t.id else s.lastMapped) = _
      change _ = (mappedIds (p ++ s.mapped t :: q)).getLast?
      rw [if_pos hnull, mappedIds_append, mappedIds_cons_of_mapped hmapped, mappedIds_eq_nil hq,
        heq]
      simp
    · -- the new block starts where all the others have ended
      have hap := h.apart
      rw [hs] at hap
      refine pairwise_replace (fun _ _ => BufferBlock.Apart.symm s.sb) hap ?_
      intro c hc _ hcm _ hcpos
      refine .inr ?_
      rw [heq]
      refine h.below c ?_ hcm hcpos
      rw [hs]
      simp only [List.mem_append, List.mem_cons] at hc ⊢
      tauto
    · intro c hc hm hpos
      change c.stop s.sb ≤ max s.tailBlkaddr (s.mappedEnd t)
      rcases hin c hc with rfl | hc
      · rw [hend, hstop]
        exact le_max_right _ _
      · exact (h.below c hc hm hpos).trans (le_max_left _ _)
    · intro c hc hm
      rcases hin c hc with rfl | hc
      · change (s.mapped t).stop s.sb < nullAddr
        rw [hstop]
        exact hfit
      · exact h.limit c hc hm

/-- Every block that the loop of `erofs_mapbh` maps ends below `NULL_ADDR`. -/
def MapFits (sb : BlockSize) (bb : Option ℕ) : ℕ → List BufferBlock → Prop
  | _, [] => True
  | tail, t :: q =>
    endFrom sb tail t < nullAddr ∧
      (bb ≠ some t.id → MapFits sb bb (max tail (endFrom sb tail t)) q)

instance MapFits.decidable (sb : BlockSize) (bb : Option ℕ) :
    ∀ tail l, Decidable (MapFits sb bb tail l)
  | _, [] => .isTrue trivial
  | tail, t :: q =>
    have := MapFits.decidable sb bb (max tail (endFrom sb tail t)) q
    inferInstanceAs (Decidable (_ ∧ (_ → _)))

/-- Every block that the loop of `erofs_bflush` reaches ends below `NULL_ADDR`. -/
def FlushFits (sb : BlockSize) (flush : ℕ → BhFlush) (bb : Option ℕ) :
    ℕ → List BufferBlock → Prop
  | _, [] => True
  | tail, t :: q =>
    bb ≠ some t.id →
      endFrom sb tail t < nullAddr ∧
        ((flushHeads flush t.buffers).2.2 = none →
          FlushFits sb flush bb (max tail (endFrom sb tail t)) q)

theorem Inv.mapbhLoop {bb : Option ℕ} (h : s.Inv) (hs : s.blocks = p ++ q)
    (hp : ∀ c ∈ p, c.IsMapped) (hfit : MapFits s.sb bb s.tailBlkaddr q) :
    (mapbhLoop bb s p q).Inv := by
  induction q generalizing s p with
  | nil => exact h
  | cons t q ih =>
    obtain ⟨hend, hrest⟩ := hfit
    have hstep := h.mapBlock hs hp hend
    rw [BufMgr.mapbhLoop]
    split_ifs with hbb
    · exact hstep
    · have hmem : t ∈ s.blocks := by rw [hs]; simp
      refine ih hstep ?_ ?_ ?_
      · exact List.append_cons p (s.mapped t) q
      · intro c hc
        rcases List.mem_append.mp hc with hc | hc
        · exact hp c hc
        · rw [List.mem_singleton.mp hc]
          exact isMapped_mapped hend
      · have htail : (s.mapBlock p t q).tailBlkaddr =
            max s.tailBlkaddr (endFrom s.sb s.tailBlkaddr t) := by
          rw [← (mappedEnd_eq (h.bytes t hmem) hend).1]
          rfl
        rw [htail]
        exact hrest hbb

theorem splitLastMapped_append (s : BufMgr) :
    s.blocks = s.splitLastMapped.1 ++ s.splitLastMapped.2 := by
  rw [BufMgr.splitLastMapped]
  cases s.lastMapped with
  | none => rfl
  | some id =>
    dsimp only
    cases hsplit : splitAtBlock id s.blocks with
    | none => exact (List.append_nil _).symm
    | some r =>
      obtain ⟨p, bb, q⟩ := r
      rw [(splitAtBlock_some hsplit).1]
      simp

theorem Inv.splitLastMapped (h : s.Inv) :
    s.blocks = s.splitLastMapped.1 ++ s.splitLastMapped.2 ∧
      (∀ c ∈ s.splitLastMapped.1, c.IsMapped) ∧ ∀ c ∈ s.splitLastMapped.2, ¬ c.IsMapped := by
  have hlast := h.last
  cases hl : s.lastMapped with
  | none =>
    rw [hl] at hlast
    have hnil : mappedIds s.blocks = [] := List.getLast?_eq_none_iff.mp hlast.symm
    have hnone : ∀ c ∈ s.blocks, ¬ c.IsMapped := by
      simpa [mappedIds, List.filter_eq_nil_iff] using hnil
    simp only [BufMgr.splitLastMapped, hl]
    exact ⟨rfl, by simp, hnone⟩
  | some id =>
    rw [hl] at hlast
    obtain ⟨b, hb, hbm, hbid⟩ := mem_of_mem_mappedIds (List.mem_of_getLast? hlast.symm)
    obtain ⟨p, q, hpq⟩ := List.append_of_mem hb
    have hnodup := h.nodup
    have hord := h.order
    rw [hpq] at hnodup hord hlast
    rw [List.map_append, List.map_cons, List.nodup_append, List.nodup_cons] at hnodup
    rw [List.pairwise_append, List.pairwise_cons] at hord
    have hsplit : splitAtBlock id s.blocks = some (p, b, q) := by
      rw [hpq, ← hbid]
      refine splitAtBlock_append fun hin => ?_
      exact hnodup.2.2 _ hin _ List.mem_cons_self rfl
    simp only [BufMgr.splitLastMapped, hl, hsplit]
    refine ⟨by rw [hpq, List.append_assoc, List.singleton_append], ?_, ?_⟩
    · intro c hc
      rcases List.mem_append.mp hc with hc | hc
      · exact hord.2.2 c hc b List.mem_cons_self hbm
      · rw [List.mem_singleton.mp hc]
        exact hbm
    · intro c hc hm
      -- a mapped block behind `b` would be the last one
      rw [mappedIds_append, mappedIds_cons_of_mapped hbm, List.append_cons,
        List.getLast?_append] at hlast
      have hcid : c.id ∈ mappedIds q :=
        List.mem_map_of_mem (List.mem_filter.mpr ⟨hc, by simpa using hm⟩)
      cases hq : (mappedIds q).getLast? with
      | none =>
        rw [List.getLast?_eq_none_iff.mp hq] at hcid
        cases hcid
      | some i =>
        rw [hq, Option.some_or, Option.some.injEq] at hlast
        obtain ⟨d, hd, -, hdid⟩ := mem_of_mem_mappedIds (List.mem_of_getLast? hq)
        refine hnodup.2.1.1 ?_
        rw [hbid, hlast, ← hdid]
        exact List.mem_map_of_mem hd

theorem Inv.erofsMapbh {bb : Option ℕ} (h : s.Inv)
    (hfit : ¬ s.isMapped bb → MapFits s.sb bb s.tailBlkaddr s.splitLastMapped.2) :
    (s.erofsMapbh bb).Inv := by
  rw [BufMgr.erofsMapbh]
  split_ifs with hm
  · exact h
  · obtain ⟨hs, hp, -⟩ := h.splitLastMapped
    exact h.mapbhLoop hs hp (hfit hm)

theorem flushHeads_sublist (flush : ℕ → BhFlush) (hs : List BufferHead) :
    (flushHeads flush hs).1.Sublist hs := by
  induction hs with
  | nil => exact .slnil
  | cons h hs ih =>
    rw [flushHeads]
    cases flush h.id with
    | skip => exact ih.cons_cons h
    | done => exact ih.cons h
    | error ret => exact .refl _

theorem headsOk_sublist {t : BufferBlock} {hs : List BufferHead}
    (h : t.HeadsOk) (hsub : hs.Sublist t.buffers) : ({ t with buffers := hs } : BufferBlock).HeadsOk :=
  ⟨h.ordered.sublist hsub, fun x hx => h.inside x (hsub.mem hx)⟩

theorem Inv.dropHeads {t : BufferBlock} {hs : List BufferHead} (h : s.Inv)
    (hblk : s.blocks = p ++ t :: q) (hsub : hs.Sublist t.buffers) :
    ({ s with blocks := p ++ { t with buffers := hs } :: q } : BufMgr).Inv := by
  have hmem : t ∈ s.blocks := by rw [hblk]; simp
  exact h.replace hblk rfl rfl le_rfl rfl le_rfl rfl rfl (h.bytes t hmem)
    (headsOk_sublist (h.heads t hmem) hsub) (fun c hc => h.apart_mid hblk hc) (h.below t hmem)
    (h.limit t hmem)

theorem Inv.bflushLoop {flush : ℕ → BhFlush} {bb : Option ℕ} (h : s.Inv)
    (hs : s.blocks = p ++ q) (hp : ∀ c ∈ p, c.IsMapped)
    (hfit : FlushFits s.sb flush bb s.tailBlkaddr q) :
    (bflushLoop flush bb s p q).1.Inv := by
  induction q generalizing s p with
  | nil => exact h
  | cons t q ih =>
    rw [BufMgr.bflushLoop]
    split_ifs with hbb
    · exact h
    obtain ⟨hend, hrest⟩ := hfit hbb
    have hmem : t ∈ s.blocks := by rw [hs]; simp
    have hstep := h.mapBlock hs hp hend
    have hmapped := isMapped_mapped hend
    have htail : (s.mapBlock p t q).tailBlkaddr =
        max s.tailBlkaddr (endFrom s.sb s.tailBlkaddr t) := by
      rw [← (mappedEnd_eq (h.bytes t hmem) hend).1]
      rfl
    have hbuf : (s.mapped t).buffers = t.buffers := by
      rw [mapped]
      split_ifs <;> rfl
    have hsub : (flushHeads flush t.buffers).1.Sublist (s.mapped t).buffers := by
      rw [hbuf]
      exact flushHeads_sublist flush t.buffers
    have hdrop := hstep.dropHeads rfl hsub
    cases herr : (flushHeads flush t.buffers).2.2 with
    | some ret =>
      simp only [herr]
      exact hdrop
    | none =>
      have hrest := hrest herr
      simp only [herr]
      split_ifs with hskip
      · -- the block stays in the list
        refine ih hdrop ?_ ?_ ?_
        · exact List.append_cons p _ q
        · intro c hc
          rcases List.mem_append.mp hc with hc | hc
          · exact hp c hc
          · rw [List.mem_singleton.mp hc]
            exact hmapped
        · change FlushFits s.sb flush bb (s.mapBlock p t q).tailBlkaddr q
          rw [htail]
          exact hrest
      · refine ih ?_ ?_ hp ?_
        · refine hdrop.remove rfl rfl rfl rfl rfl ?_
          intro c hc hm hpos
          refine hdrop.below c ?_ hm hpos
          change c ∈ p ++ _ :: q
          simp only [List.mem_append, List.mem_cons] at hc ⊢
          tauto
        · rfl
        · change FlushFits s.sb flush bb (s.mapBlock p t q).tailBlkaddr q
          rw [htail]
          exact hrest

theorem Inv.erofsBdrop (h : s.Inv) (bid hid : ℕ) (tryrevoke : Bool) :
    (s.erofsBdrop bid hid tryrevoke).Inv := by
  rw [BufMgr.erofsBdrop]
  cases hsplit : splitAtBlock bid s.blocks with
  | none => exact h
  | some r =>
    obtain ⟨p, bb, q⟩ := r
    obtain ⟨hs, -⟩ := splitAtBlock_some hsplit
    have hmem : bb ∈ s.blocks := by rw [hs]; simp
    simp only
    split_ifs with hempty hroll
    · exact h.dropHeads hs List.filter_sublist
    · -- the tail goes back to the block, and everything else ends in front of it
      obtain ⟨-, hm, htail⟩ := hroll
      rw [s.sb.blkRoundUp_eq (h.bytes bb hmem)] at htail
      refine h.remove hs rfl rfl rfl rfl ?_
      exact fun c hc hcm hpos => h.stop_le_blkaddr hs hm htail hc hcm hpos
    · refine h.remove hs rfl rfl rfl rfl ?_
      intro c hc hcm hpos
      refine h.below c ?_ hcm hpos
      rw [hs]
      simp only [List.mem_append, List.mem_cons] at hc ⊢
      tauto

def behindNew (s : BufMgr) : BlockType → List BufferBlock
  | .metadata => []
  | .data =>
    match s.lastMapped.bind fun id => splitAtBlock id s.blocks with
    | none => s.blocks
    | some (_, _, q) => q

theorem newBlock_blocks (s : BufMgr) (type : BlockType) : ∃ p, s.blocks = p ++ s.behindNew type ∧
    (s.newBlock type).blocks = p ++ ⟨s.fresh, type, nullAddr, 0, []⟩ :: s.behindNew type := by
  cases type with
  | metadata => exact ⟨s.blocks, (List.append_nil _).symm, rfl⟩
  | data =>
    rw [BufMgr.newBlock, behindNew]
    dsimp only
    rw [insertBlock]
    cases s.lastMapped with
    | none => exact ⟨[], rfl, rfl⟩
    | some id =>
      rw [Option.bind_some]
      dsimp only
      cases hsplit : splitAtBlock id s.blocks with
      | none => exact ⟨[], rfl, rfl⟩
      | some r =>
        obtain ⟨p, b, q⟩ := r
        have hs := (splitAtBlock_some hsplit).1
        exact ⟨p ++ [b], by rw [hs]; simp, by simp⟩

theorem behindNew_data (hlast : ∀ id, s.lastMapped = some id → id ∈ s.blocks.map BufferBlock.id) :
    s.behindNew .data = s.splitLastMapped.2 := by
  rw [behindNew, BufMgr.splitLastMapped]
  cases hl : s.lastMapped with
  | none => rfl
  | some id =>
    obtain ⟨⟨p, b, q⟩, hsplit⟩ := splitAtBlock_of_mem (hlast id hl)
    rw [Option.bind_some]
    simp only [hsplit]

theorem Inv.last_mem (h : s.Inv) (id : ℕ) (hid : s.lastMapped = some id) :
    id ∈ s.blocks.map BufferBlock.id := by
  have hlast := h.last
  rw [hid] at hlast
  obtain ⟨b, hb, -, rfl⟩ := mem_of_mem_mappedIds (List.mem_of_getLast? hlast.symm)
  exact List.mem_map_of_mem hb

theorem Inv.behindNew_unmapped (h : s.Inv) (type : BlockType) :
    ∀ c ∈ s.behindNew type, ¬ c.IsMapped := by
  cases type with
  | metadata => exact fun c hc => absurd hc List.not_mem_nil
  | data =>
    rw [behindNew_data h.last_mem]
    exact h.splitLastMapped.2.2

theorem Inv.newBlock (h : s.Inv) (type : BlockType) : (s.newBlock type).Inv := by
  obtain ⟨p, hs, hs'⟩ := s.newBlock_blocks type
  exact h.insert hs (h.behindNew_unmapped type) rfl rfl rfl rfl hs' rfl rfl rfl rfl

/-- Attaching to the block with this name wraps nothing. -/
def AttachFits (s : BufMgr) (id incr align extra : ℕ) : Prop :=
  ∀ p bb q, splitAtBlock id s.blocks = some (p, bb, q) → bb.AttachFits s.sb incr align extra

theorem Inv.attach_named {id incr align extra ret : ℕ} {bh : Option ℕ} (h : s.Inv)
    (halign : 0 < align) (hdvd : align ∣ s.sb.size) (hfit : s.AttachFits id incr align extra)
    (ha : s.attach id bh incr align extra = some (s', ret)) : s'.Inv := by
  cases hsplit : splitAtBlock id s.blocks with
  | none =>
    rw [BufMgr.attach, hsplit] at ha
    cases ha
  | some r =>
    obtain ⟨p, bb, q⟩ := r
    exact h.attach halign hdvd hsplit (hfit p bb q hsplit) ha

theorem Inv.ballocIn {id size align extra : ℕ} (h : s.Inv) (halign : 0 < align)
    (hdvd : align ∣ s.sb.size) (hfit : s.AttachFits id size align extra) :
    (s.ballocIn id size align extra).1.Inv := by
  rw [BufMgr.ballocIn]
  cases ha : s.attach id (some s.fresh) size align extra with
  | none => exact h
  | some r =>
    obtain ⟨s', ret⟩ := r
    have hinv := h.attach_named halign hdvd hfit ha
    have hfresh : s'.fresh = s.fresh := by
      rw [BufMgr.attach] at ha
      split at ha
      · cases ha
      · split at ha
        · cases ha
        · rw [Option.some.injEq, Prod.mk.injEq] at ha
          rw [← ha.1]
    exact ⟨hinv.nodup, fun b hb => by have := hinv.fresh b hb; simp only; omega, hinv.bytes,
      hinv.heads, hinv.order, hinv.last, hinv.apart, hinv.below, hinv.limit⟩

end BufMgr

end ErofsUtils
