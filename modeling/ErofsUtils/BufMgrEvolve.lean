import Mathlib.Data.List.Flatten
import Mathlib.Data.List.Nodup
import ErofsUtils.BufMgrPlace

/-!
# Where buffer heads stay

A buffer head keeps its offset in its block for as long as it is there, and its block keeps its
address once it has one. A block that is mapped later gets an address at or behind the tail that
there was before.
-/

namespace ErofsUtils
namespace BufMgr

def headIds (l : List BufferBlock) : List ℕ :=
  l.flatMap fun b => b.buffers.map BufferHead.id

/-- No two heads have the same identifier, and none has one that is still to come. -/
structure HeadsNamed (s : BufMgr) : Prop where
  nodup : (headIds s.blocks).Nodup
  fresh : ∀ id ∈ headIds s.blocks, id < s.fresh

structure HeadKept (tail : ℕ) (b : BufferBlock) (h : BufferHead) (b' : BufferBlock)
    (h' : BufferHead) : Prop where
  id : h'.id = h.id
  off : h'.off = h.off
  grown : b.off ≤ b'.off
  addr : b'.blkaddr = b.blkaddr ∨ ¬ b.IsMapped ∧ tail ≤ b'.blkaddr

/-- Every head of the later state is a new one or one of the earlier state. -/
structure HeadsEvolve (s s' : BufMgr) : Prop where
  sb : s'.sb = s.sb
  fresh : s.fresh ≤ s'.fresh
  heads : ∀ b' ∈ s'.blocks, ∀ h' ∈ b'.buffers, (s.fresh ≤ h'.id ∧ h'.id < s'.fresh) ∨
    ∃ b ∈ s.blocks, ∃ h ∈ b.buffers, HeadKept s.tailBlkaddr b h b' h'
  named : s.HeadsNamed → s'.HeadsNamed

structure Evolves (s s' : BufMgr) : Prop extends HeadsEvolve s s' where
  tail : s.tailBlkaddr ≤ s'.tailBlkaddr

variable {s s' s'' : BufMgr} {p q : List BufferBlock}

theorem mem_headIds {l : List BufferBlock} {id : ℕ} :
    id ∈ headIds l ↔ ∃ b ∈ l, ∃ h ∈ b.buffers, h.id = id := by
  simp only [headIds, List.mem_flatMap, List.mem_map]

theorem headIds_split (p : List BufferBlock) (b : BufferBlock) (q : List BufferBlock) :
    headIds (p ++ b :: q) = headIds p ++ (b.buffers.map BufferHead.id ++ headIds q) := by
  rw [headIds, List.flatMap_append, List.flatMap_cons]
  rfl

theorem headIds_live (s : BufMgr) : s.live.map (fun a => a.2.id) = headIds s.blocks := by
  rw [live, List.map_flatMap]
  simp only [List.map_map]
  rfl

theorem HeadsNamed.unique (h : s.HeadsNamed) {b c : BufferBlock} {k l : BufferHead}
    (hb : b ∈ s.blocks) (hk : k ∈ b.buffers) (hc : c ∈ s.blocks) (hl : l ∈ c.buffers)
    (hid : k.id = l.id) : b = c ∧ k = l := by
  have hnodup := h.nodup
  rw [← headIds_live] at hnodup
  have hbk : (b, k) ∈ s.live := List.mem_flatMap.mpr ⟨b, hb, List.mem_map_of_mem hk⟩
  have hcl : (c, l) ∈ s.live := List.mem_flatMap.mpr ⟨c, hc, List.mem_map_of_mem hl⟩
  exact Prod.mk.inj (List.inj_on_of_nodup_map hnodup hbk hcl hid)

theorem HeadsNamed.of_sublist (h : s.HeadsNamed)
    (hids : List.Sublist (headIds s'.blocks) (headIds s.blocks)) (hfresh : s.fresh ≤ s'.fresh) :
    s'.HeadsNamed where
  nodup := hids.nodup h.nodup
  fresh := fun id hid => (h.fresh id (hids.subset hid)).trans_le hfresh

theorem HeadsNamed.replace {b b' : BufferBlock} (h : s.HeadsNamed) (hs : s.blocks = p ++ b :: q)
    (hs' : s'.blocks = p ++ b' :: q) (hfresh : s.fresh ≤ s'.fresh)
    (hids : List.Sublist (b'.buffers.map BufferHead.id) (b.buffers.map BufferHead.id)) :
    s'.HeadsNamed := by
  apply h.of_sublist _ hfresh
  rw [hs, hs', headIds_split, headIds_split]
  exact (List.Sublist.refl _).append (hids.append (List.Sublist.refl _))

theorem HeadsNamed.append {b b' : BufferBlock} (h : s.HeadsNamed) (hs : s.blocks = p ++ b :: q)
    (hs' : s'.blocks = p ++ b' :: q) (hfresh : s'.fresh = s.fresh + 1)
    (hids : b'.buffers.map BufferHead.id = b.buffers.map BufferHead.id ++ [s.fresh]) :
    s'.HeadsNamed := by
  have hold : headIds s.blocks = (headIds p ++ b.buffers.map BufferHead.id) ++ headIds q := by
    rw [hs, headIds_split, List.append_assoc]
  have hnew : headIds s'.blocks =
      (headIds p ++ b.buffers.map BufferHead.id) ++ s.fresh :: headIds q := by
    rw [hs', headIds_split, hids, List.append_assoc, List.append_assoc, List.singleton_append]
  constructor
  · rw [hnew, List.nodup_middle, ← hold, List.nodup_cons]
    exact ⟨fun hmem => Nat.lt_irrefl _ (h.fresh _ hmem), h.nodup⟩
  · intro id hid
    rw [hnew, List.mem_append, List.mem_cons, or_left_comm, ← List.mem_append, ← hold] at hid
    cases hid with
    | inl heq => omega
    | inr hid =>
        have := h.fresh id hid
        omega

theorem HeadKept.refl (tail : ℕ) (b : BufferBlock) (h : BufferHead) : HeadKept tail b h b h :=
  ⟨rfl, rfl, le_refl _, Or.inl rfl⟩

theorem HeadKept.trans {t t' : ℕ} {b b' b'' : BufferBlock} {h h' h'' : BufferHead}
    (hk : HeadKept t b h b' h') (hk' : HeadKept t' b' h' b'' h'') (htail : t ≤ t') :
    HeadKept t b h b'' h'' := by
  refine ⟨hk'.id.trans hk.id, hk'.off.trans hk.off, hk.grown.trans hk'.grown, ?_⟩
  cases hk.addr with
  | inl heq =>
      cases hk'.addr with
      | inl heq' => exact Or.inl (heq'.trans heq)
      | inr hlate =>
          refine Or.inr ⟨fun hm => hlate.1 ?_, htail.trans hlate.2⟩
          rw [BufferBlock.IsMapped, heq]
          exact hm
  | inr hlate =>
      cases hk'.addr with
      | inl heq' => exact Or.inr ⟨hlate.1, heq' ▸ hlate.2⟩
      | inr hlate' => exact Or.inr ⟨hlate.1, htail.trans hlate'.2⟩

theorem Evolves.refl (s : BufMgr) : Evolves s s where
  sb := rfl
  fresh := le_refl _
  heads := fun b hb h hh => Or.inr ⟨b, hb, h, hh, HeadKept.refl _ b h⟩
  named := id
  tail := le_refl _

theorem Evolves.transHeads (h : Evolves s s') (h' : HeadsEvolve s' s'') : HeadsEvolve s s'' where
  sb := h'.sb.trans h.sb
  fresh := h.fresh.trans h'.fresh
  named := fun hn => h'.named (h.named hn)
  heads := by
    intro b'' hb'' k'' hk''
    cases h'.heads b'' hb'' k'' hk'' with
    | inl hnew => exact Or.inl ⟨h.fresh.trans hnew.1, hnew.2⟩
    | inr hold =>
        obtain ⟨b', hb', k', hk', hkept'⟩ := hold
        cases h.heads b' hb' k' hk' with
        | inl hnew =>
            rw [← hkept'.id] at hnew
            exact Or.inl ⟨hnew.1, hnew.2.trans_le h'.fresh⟩
        | inr hold =>
            obtain ⟨b, hb, k, hk, hkept⟩ := hold
            exact Or.inr ⟨b, hb, k, hk, hkept.trans hkept' h.tail⟩

theorem Evolves.trans (h : Evolves s s') (h' : Evolves s' s'') : Evolves s s'' where
  toHeadsEvolve := h.transHeads h'.toHeadsEvolve
  tail := h.tail.trans h'.tail

theorem Evolves.replace {b b' : BufferBlock} (hs : s.blocks = p ++ b :: q)
    (hs' : s'.blocks = p ++ b' :: q) (hsb : s'.sb = s.sb) (hfresh : s.fresh ≤ s'.fresh)
    (htail : s.tailBlkaddr ≤ s'.tailBlkaddr) (hnamed : s.HeadsNamed → s'.HeadsNamed)
    (hheads : ∀ h' ∈ b'.buffers, (s.fresh ≤ h'.id ∧ h'.id < s'.fresh) ∨
      ∃ h ∈ b.buffers, HeadKept s.tailBlkaddr b h b' h') : Evolves s s' where
  sb := hsb
  fresh := hfresh
  named := hnamed
  tail := htail
  heads := by
    intro c hc k hk
    rw [hs', List.mem_append, List.mem_cons] at hc
    rcases hc with hc | hc | hc
    · have hmem : c ∈ s.blocks := by rw [hs]; exact List.mem_append_left _ hc
      exact Or.inr ⟨c, hmem, k, hk, HeadKept.refl _ c k⟩
    · subst hc
      cases hheads k hk with
      | inl hnew => exact Or.inl hnew
      | inr hold =>
          obtain ⟨h, hh, hkept⟩ := hold
          have hmem : b ∈ s.blocks := by rw [hs]; simp
          exact Or.inr ⟨b, hmem, h, hh, hkept⟩
    · have hmem : c ∈ s.blocks := by
        rw [hs]
        exact List.mem_append_right _ (List.mem_cons_of_mem _ hc)
      exact Or.inr ⟨c, hmem, k, hk, HeadKept.refl _ c k⟩

theorem HeadsEvolve.of_sublist (hsb : s'.sb = s.sb) (hfresh : s.fresh ≤ s'.fresh)
    (hblocks : List.Sublist s'.blocks s.blocks) : HeadsEvolve s s' where
  sb := hsb
  fresh := hfresh
  heads := fun b hb h hh => Or.inr ⟨b, hblocks.subset hb, h, hh, HeadKept.refl _ b h⟩
  named := fun hn => hn.of_sublist (hblocks.flatMap _) hfresh

theorem map_id_stretchLast (off : ℕ) (hs : List BufferHead) :
    (stretchLast off hs).map BufferHead.id = hs.map BufferHead.id := by
  induction hs with
  | nil => rfl
  | cons h hs ih =>
      cases hs with
      | nil => rfl
      | cons k ks =>
          rw [stretchLast, List.map_cons, List.map_cons, ih]
          exact List.cons_ne_nil _ _

theorem mem_of_mem_stretchLast {off : ℕ} {h' : BufferHead} {hs : List BufferHead}
    (hm : h' ∈ stretchLast off hs) : ∃ h ∈ hs, h'.id = h.id ∧ h'.off = h.off := by
  induction hs with
  | nil => cases hm
  | cons h hs ih =>
      cases hs with
      | nil =>
          rw [stretchLast, List.mem_singleton] at hm
          subst hm
          exact ⟨h, List.mem_cons_self, rfl, rfl⟩
      | cons k ks =>
          rw [stretchLast, List.mem_cons] at hm
          · cases hm with
            | inl heq => exact ⟨h, List.mem_cons_self, by rw [heq], by rw [heq]⟩
            | inr hm =>
                obtain ⟨l, hl, heq⟩ := ih hm
                exact ⟨l, List.mem_cons_of_mem _ hl, heq⟩
          · exact List.cons_ne_nil _ _

theorem tail_le_battach {tail next incr align extra : ℕ} {sb : BlockSize} {bb : BufferBlock}
    {up : Bool} (halign : 0 < align) (hdvd : align ∣ sb.size)
    (hfit : bb.AttachFits sb incr align extra) (bh : Option ℕ)
    (hcheck : battachCheck sb tail next bb incr align extra = some up) :
    tail ≤ if up then u32 (bb.blkaddr + sb.blkRoundUp (battachBlock bb incr align bh).off)
      else tail := by
  cases up with
  | false => exact le_refl _
  | true =>
      have hle : align ≤ sb.size := Nat.le_of_dvd sb.size_pos hdvd
      have hbytes := hfit.bytes
      obtain ⟨hm, htail⟩ := tail_of_battachCheck hcheck
      have hge : bb.off ≤ roundUp bb.off align := le_roundUp halign
      have hlimit := hfit.addr hm
      have hmono : sb.blocksOf bb.off ≤ sb.blocksOf (roundUp bb.off align + incr) :=
        sb.blocksOf_mono (by omega)
      have hnull := nullAddr_lt
      rw [if_pos rfl, battachBlock_off halign hle hfit, sb.blkRoundUp_eq (by omega),
        u32_of_lt (by omega), htail, sb.blkRoundUp_eq (by omega)]
      omega

theorem Evolves.ballocIn {id size align extra : ℕ} (halign : 0 < align)
    (hdvd : align ∣ s.sb.size) (hfit : s.AttachFits id size align extra) :
    Evolves s (s.ballocIn id size align extra).1 := by
  rw [BufMgr.ballocIn, BufMgr.attach]
  cases hsplit : splitAtBlock id s.blocks with
  | none => exact Evolves.refl s
  | some r =>
      obtain ⟨p, bb, q⟩ := r
      have hfits := hfit p bb q hsplit
      have hbytes := hfits.bytes
      have hle : align ≤ s.sb.size := Nat.le_of_dvd s.sb.size_pos hdvd
      have hge : bb.off ≤ roundUp bb.off align := le_roundUp halign
      dsimp only
      cases hcheck : battachCheck s.sb s.tailBlkaddr (nextAddr q) bb size align extra with
      | none => exact Evolves.refl s
      | some up =>
          refine Evolves.replace (splitAtBlock_some hsplit).1 rfl rfl (Nat.le_succ _)
            (tail_le_battach halign hdvd hfits _ hcheck) ?_ ?_
          · intro hn
            apply hn.append (splitAtBlock_some hsplit).1 rfl rfl
            change (bb.buffers ++ [_]).map BufferHead.id = _
            rw [List.map_append, List.map_singleton]
          intro h' hh'
          change h' ∈ bb.buffers ++ [_] at hh'
          cases List.mem_append.mp hh' with
          | inl hold =>
              refine Or.inr ⟨h', hold, rfl, rfl, ?_, Or.inl rfl⟩
              rw [battachBlock_off halign hle hfits]
              omega
          | inr hnew =>
              rw [List.mem_singleton] at hnew
              rw [hnew]
              exact Or.inl ⟨le_refl _, Nat.lt_succ_self _⟩

theorem Evolves.erofsBhBalloon {bid hid incr : ℕ} (hfit : s.AttachFits bid incr 1 0) :
    Evolves s (s.erofsBhBalloon bid hid incr).1 := by
  rw [BufMgr.erofsBhBalloon, BufMgr.attach]
  split
  · cases hsplit : splitAtBlock bid s.blocks with
    | none => exact Evolves.refl s
    | some r =>
        obtain ⟨p, bb, q⟩ := r
        have hfits := hfit p bb q hsplit
        have hge : bb.off ≤ roundUp bb.off 1 := le_roundUp one_pos
        dsimp only
        cases hcheck : battachCheck s.sb s.tailBlkaddr (nextAddr q) bb incr 1 0 with
        | none => exact Evolves.refl s
        | some up =>
            refine Evolves.replace (splitAtBlock_some hsplit).1 rfl rfl (le_refl _)
              (tail_le_battach one_pos (one_dvd _) hfits _ hcheck) ?_ ?_
            · intro hn
              refine hn.replace (splitAtBlock_some hsplit).1 rfl (le_refl _) ?_
              change List.Sublist ((stretchLast _ bb.buffers).map BufferHead.id) _
              rw [map_id_stretchLast]
            intro h' hh'
            obtain ⟨h, hh, hid, hoff⟩ := mem_of_mem_stretchLast hh'
            refine Or.inr ⟨h, hh, hid, hoff, ?_, Or.inl rfl⟩
            rw [battachBlock_off one_pos s.sb.size_pos hfits]
            omega
  · exact Evolves.refl s

theorem Evolves.newBlock (s : BufMgr) (type : BlockType) : Evolves s (s.newBlock type) where
  sb := rfl
  fresh := Nat.le_succ _
  tail := le_refl _
  named := by
    intro hn
    obtain ⟨p, hs, hs'⟩ := s.newBlock_blocks type
    apply hn.of_sublist _ (Nat.le_succ _)
    have hids : headIds (s.newBlock type).blocks = headIds s.blocks := by
      rw [hs, hs', headIds_split]
      exact List.flatMap_append.symm
    rw [hids]
  heads := by
    obtain ⟨p, hs, hs'⟩ := s.newBlock_blocks type
    intro b hb h hh
    rw [hs', List.mem_append, List.mem_cons] at hb
    have hmem : b ∈ s.blocks := by
      rw [hs, List.mem_append]
      rcases hb with hb | hb | hb
      · exact Or.inl hb
      · rw [hb] at hh
        cases hh
      · exact Or.inr hb
    exact Or.inr ⟨b, hmem, h, hh, HeadKept.refl _ b h⟩

theorem headKept_mapped (t : BufferBlock) {h : BufferHead} :
    HeadKept s.tailBlkaddr t h (s.mapped t) h := by
  rw [mapped]
  split
  · next hnull => exact ⟨rfl, rfl, le_refl _, Or.inr ⟨not_not.mpr hnull, le_refl _⟩⟩
  · exact HeadKept.refl _ t h

theorem mapped_buffers (s : BufMgr) (t : BufferBlock) : (s.mapped t).buffers = t.buffers := by
  rw [mapped]
  split <;> rfl

theorem Evolves.mapBlock {t : BufferBlock} (hs : s.blocks = p ++ t :: q) :
    Evolves s (s.mapBlock p t q) := by
  refine Evolves.replace hs rfl rfl (le_refl _) (le_max_left _ _) ?_ ?_
  · intro hn
    refine hn.replace hs rfl (le_refl _) ?_
    rw [mapped_buffers]
  intro h hh
  rw [mapped_buffers] at hh
  exact Or.inr ⟨h, hh, headKept_mapped t⟩

theorem Evolves.mapbhLoop {bb : Option ℕ} (hs : s.blocks = p ++ q) :
    Evolves s (mapbhLoop bb s p q) := by
  induction q generalizing s p with
  | nil => exact Evolves.refl s
  | cons t q ih =>
      have hmap := Evolves.mapBlock hs
      rw [BufMgr.mapbhLoop]
      split
      · exact hmap
      · apply hmap.trans
        apply ih
        rw [List.append_assoc, List.singleton_append]
        rfl

theorem Evolves.erofsMapbh (s : BufMgr) (bb : Option ℕ) : Evolves s (s.erofsMapbh bb) := by
  rw [BufMgr.erofsMapbh]
  split
  · exact Evolves.refl s
  · exact Evolves.mapbhLoop s.splitLastMapped_append

theorem Evolves.dropHeads {t : BufferBlock} {hs : List BufferHead} (hblk : s.blocks = p ++ t :: q)
    (hsub : List.Sublist hs t.buffers) :
    Evolves s { s with blocks := p ++ { t with buffers := hs } :: q } := by
  refine Evolves.replace hblk rfl rfl (le_refl _) (le_refl _) ?_ ?_
  · intro hn
    exact hn.replace hblk rfl (le_refl _) (hsub.map _)
  intro h hh
  exact Or.inr ⟨h, hsub.subset hh, rfl, rfl, le_refl _, Or.inl rfl⟩

theorem Evolves.remove {t : BufferBlock} (hblk : s.blocks = p ++ t :: q)
    (hs' : s'.blocks = p ++ q) (hsb : s'.sb = s.sb) (hfresh : s'.fresh = s.fresh)
    (htail : s'.tailBlkaddr = s.tailBlkaddr) : Evolves s s' := by
  refine ⟨HeadsEvolve.of_sublist hsb hfresh.ge ?_, htail.ge⟩
  rw [hs', hblk]
  exact (List.Sublist.refl p).append (List.sublist_cons_self t q)

theorem Evolves.bflushLoop {flush : ℕ → BhFlush} {bb : Option ℕ} (hs : s.blocks = p ++ q) :
    Evolves s (bflushLoop flush bb s p q).1 := by
  induction q generalizing s p with
  | nil => exact Evolves.refl s
  | cons t q ih =>
      have hmap := Evolves.mapBlock hs
      have hsub : List.Sublist (flushHeads flush t.buffers).1 (s.mapped t).buffers := by
        rw [mapped_buffers]
        exact flushHeads_sublist flush t.buffers
      have hdrop := hmap.trans (Evolves.dropHeads (s := s.mapBlock p t q) rfl hsub)
      rw [BufMgr.bflushLoop]
      split
      · exact Evolves.refl s
      dsimp only
      cases (flushHeads flush t.buffers).2.2 with
      | some ret => exact hdrop
      | none =>
          dsimp only
          split
          · apply hdrop.trans
            apply ih
            rw [List.append_assoc, List.singleton_append]
          · refine hdrop.trans (Evolves.trans ?_ (ih ?_))
            · exact Evolves.remove rfl rfl rfl rfl rfl
            · rfl

/-- A dropped head, where only `tryrevoke` may move the tail: back to a mapped block. -/
theorem HeadsEvolve.erofsBdrop (s : BufMgr) (bid hid : ℕ) (tryrevoke : Bool) :
    HeadsEvolve s (s.erofsBdrop bid hid tryrevoke) ∧
      (s.tailBlkaddr ≤ (s.erofsBdrop bid hid tryrevoke).tailBlkaddr ∨
        tryrevoke = true ∧ ∃ p bb q, splitAtBlock bid s.blocks = some (p, bb, q) ∧
          (s.erofsBdrop bid hid tryrevoke).tailBlkaddr = bb.blkaddr) := by
  rw [BufMgr.erofsBdrop]
  cases hsplit : splitAtBlock bid s.blocks with
  | none => exact ⟨(Evolves.refl s).toHeadsEvolve, Or.inl (le_refl _)⟩
  | some r =>
      obtain ⟨p, bb, q⟩ := r
      have hs := (splitAtBlock_some hsplit).1
      have hgone : List.Sublist (p ++ q) s.blocks := by
        rw [hs]
        exact (List.Sublist.refl p).append (List.sublist_cons_self bb q)
      dsimp only
      split
      · have hdrop : Evolves s { s with
            blocks := p ++ { bb with buffers := bb.buffers.filter fun h => h.id ≠ hid } :: q } :=
          Evolves.dropHeads hs List.filter_sublist
        exact ⟨hdrop.toHeadsEvolve, Or.inl hdrop.tail⟩
      · split
        · next hroll =>
          exact ⟨HeadsEvolve.of_sublist rfl (le_refl _) hgone,
            Or.inr ⟨hroll.1, p, bb, q, rfl, rfl⟩⟩
        · exact ⟨HeadsEvolve.of_sublist rfl (le_refl _) hgone, Or.inl (le_refl _)⟩

theorem Evolves.erofsBalloc {type : BufType} {size requiredExt inlineExt : ℕ}
    (hop : (BufOp.balloc type size requiredExt inlineExt).Fits s) :
    Evolves s (s.erofsBalloc type size requiredExt inlineExt).1 := by
  rw [BufMgr.erofsBalloc]
  cases halign : getAlignsize s.sb type with
  | none => exact Evolves.refl s
  | some r =>
      obtain ⟨align, bt⟩ := r
      obtain ⟨hpos, hdvd⟩ := getAlignsize_dvd halign
      obtain ⟨hfound, hnew⟩ := hop align bt halign
      dsimp only
      cases hfind : s.erofsBfindForAttach bt size requiredExt inlineExt align with
      | error e => exact Evolves.refl s
      | ok found =>
          cases found with
          | none => exact (Evolves.newBlock s bt).trans (Evolves.ballocIn hpos hdvd (hnew hfind))
          | some id => exact Evolves.ballocIn hpos hdvd (hfound id hfind)

theorem Evolves.erofsBattach {bid hid size : ℕ} {type : BufType}
    (hop : (BufOp.battach bid hid type size).Fits s) :
    Evolves s (s.erofsBattach bid hid type size).1 := by
  rw [BufMgr.erofsBattach]
  cases halign : getAlignsize s.sb type with
  | none => exact Evolves.refl s
  | some r =>
      obtain ⟨align, bt⟩ := r
      obtain ⟨hpos, hdvd⟩ := getAlignsize_dvd halign
      dsimp only
      split
      · exact Evolves.ballocIn hpos hdvd (hop align bt halign)
      · exact Evolves.refl s

/-- One call, which moves the tail back only where it revokes a mapped block. -/
theorem HeadsEvolve.step {op : BufOp} (hop : op.Fits s) : HeadsEvolve s (s.step op) ∧
    (s.tailBlkaddr ≤ (s.step op).tailBlkaddr ∨ ∃ bid hid p bb q, op = .bdrop bid hid true ∧
      splitAtBlock bid s.blocks = some (p, bb, q) ∧ (s.step op).tailBlkaddr = bb.blkaddr) := by
  have hgrow : Evolves s (s.step op) → HeadsEvolve s (s.step op) ∧
      (s.tailBlkaddr ≤ (s.step op).tailBlkaddr ∨ ∃ bid hid p bb q, op = .bdrop bid hid true ∧
        splitAtBlock bid s.blocks = some (p, bb, q) ∧ (s.step op).tailBlkaddr = bb.blkaddr) :=
    fun he => ⟨he.toHeadsEvolve, Or.inl he.tail⟩
  cases op with
  | balloc type size requiredExt inlineExt => exact hgrow (Evolves.erofsBalloc hop)
  | battach bid hid type size => exact hgrow (Evolves.erofsBattach hop)
  | balloon bid hid incr => exact hgrow (Evolves.erofsBhBalloon hop)
  | mapbh bb => exact hgrow (Evolves.erofsMapbh s bb)
  | bflush flush bb => exact hgrow (Evolves.bflushLoop (List.nil_append _).symm)
  | bdrop bid hid tryrevoke =>
      obtain ⟨he, htail⟩ := HeadsEvolve.erofsBdrop s bid hid tryrevoke
      cases htail with
      | inl hle => exact ⟨he, Or.inl hle⟩
      | inr hback =>
          obtain ⟨rfl, p, bb, q, hsplit, hback⟩ := hback
          exact ⟨he, Or.inr ⟨bid, hid, p, bb, q, rfl, hsplit, hback⟩⟩

theorem ballocIn_head {id size align extra bid hid : ℕ} (halign : 0 < align)
    (hdvd : align ∣ s.sb.size) (hfit : s.AttachFits id size align extra)
    (hres : (s.ballocIn id size align extra).2 = .ok (bid, hid)) :
    hid = s.fresh ∧ ∃ p bb q, splitAtBlock id s.blocks = some (p, bb, q) ∧
      ∃ b ∈ (s.ballocIn id size align extra).1.blocks, ∃ k ∈ b.buffers, k.id = hid ∧
        k.off = roundUp bb.off align ∧ b.off = k.off + size ∧
          b.blkaddr = bb.blkaddr := by
  cases hsplit : splitAtBlock id s.blocks with
  | none =>
      rw [BufMgr.ballocIn, BufMgr.attach, hsplit] at hres
      cases hres
  | some r =>
      obtain ⟨p, bb, q⟩ := r
      cases hcheck : battachCheck s.sb s.tailBlkaddr (nextAddr q) bb size align extra with
      | none =>
          rw [BufMgr.ballocIn, BufMgr.attach, hsplit] at hres
          dsimp only at hres
          rw [hcheck] at hres
          cases hres
      | some up =>
          have hfits := hfit p bb q hsplit
          have hbytes := hfits.bytes
          have hle : align ≤ s.sb.size := Nat.le_of_dvd s.sb.size_pos hdvd
          have hge : bb.off ≤ roundUp bb.off align := le_roundUp halign
          have hround : BlockSize.roundup bb.off align = roundUp bb.off align :=
            BlockSize.roundup_eq (by omega)
          rw [ballocIn_eq hsplit hcheck] at hres ⊢
          obtain ⟨-, rfl⟩ := Prod.mk.inj (Except.ok.inj hres)
          refine ⟨rfl, p, bb, q, rfl, battachBlock bb size align (some s.fresh),
            List.mem_append_right _ List.mem_cons_self,
            ⟨s.fresh, BlockSize.roundup bb.off align, size⟩,
            List.mem_append_right _ List.mem_cons_self, rfl, hround, ?_, rfl⟩
          rw [battachBlock_off halign hle hfits, hround]

theorem Inv.named (h : s.Inv) : s.Named where
  nodup := h.nodup
  last := h.last_mem
  fresh := by
    intro id hid
    obtain ⟨b, hb, rfl⟩ := List.mem_map.mp hid
    exact h.fresh b hb

/-- The head of a new allocation is aligned. Its block has an address only where the search
found it with room. -/
theorem erofsBalloc_head {type : BufType} {bt : BlockType}
    {size requiredExt inlineExt align bid hid : ℕ} (h : s.Inv)
    (halign : getAlignsize s.sb type = some (align, bt))
    (hop : (BufOp.balloc type size requiredExt inlineExt).Fits s)
    (hres : (s.erofsBalloc type size requiredExt inlineExt).2 = .ok (bid, hid)) :
    s.fresh ≤ hid ∧
      ∃ b ∈ (s.erofsBalloc type size requiredExt inlineExt).1.blocks, ∃ k ∈ b.buffers,
        k.id = hid ∧ align ∣ k.off ∧ b.off = k.off + size ∧ (b.IsMapped →
          ∃ p bb q, s.PlaceFor bt size requiredExt inlineExt align p bb q ∧
            bb.blkaddr = b.blkaddr ∧ bb.off ≤ k.off) := by
  obtain ⟨hpos, hdvd⟩ := getAlignsize_dvd halign
  obtain ⟨hfound, hnew⟩ := hop align bt halign
  rw [BufMgr.erofsBalloc, halign] at hres ⊢
  dsimp only at hres ⊢
  cases hfind : s.erofsBfindForAttach bt size requiredExt inlineExt align with
  | error e =>
      rw [hfind] at hres
      cases hres
  | ok found =>
      rw [hfind] at hres
      cases found with
      | none =>
          dsimp only at hres ⊢
          obtain ⟨rfl, p, bb, q, hsplit, b, hb, k, hk, hid, hoff, hend, haddr⟩ :=
            ballocIn_head (s := s.newBlock bt) hpos hdvd (hnew hfind) hres
          refine ⟨Nat.le_succ _, b, hb, k, hk, hid, ?_, hend, ?_⟩
          · rw [hoff]
            exact Nat.dvd_mul_left _ _
          · intro hm
            -- a new block has no address
            obtain ⟨p', hsplit'⟩ := h.named.newBlock_split bt
            rw [hsplit'] at hsplit
            obtain ⟨-, rfl, -⟩ : p' = p ∧ _ = bb ∧ _ = q := by simpa using hsplit
            exact absurd haddr hm
      | some id =>
          dsimp only at hres ⊢
          obtain ⟨rfl, p, bb, q, hsplit, b, hb, k, hk, hid, hoff, hend, haddr⟩ :=
            ballocIn_head hpos hdvd (hfound id hfind) hres
          refine ⟨le_refl _, b, hb, k, hk, hid, ?_, hend, ?_⟩
          · rw [hoff]
            exact Nat.dvd_mul_left _ _
          · intro _
            obtain ⟨p', bb', q', rfl, hplace⟩ := bfind_some h.nodup hfind
            rw [hplace.split] at hsplit
            obtain ⟨rfl, rfl, rfl⟩ : p' = p ∧ bb' = bb ∧ q' = q := by simpa using hsplit
            exact ⟨p', bb', q', hplace, haddr.symm, hoff ▸ le_roundUp hpos⟩

end BufMgr
end ErofsUtils
