import ErofsUtils.BufMgrInv

/-!
# The buffer manager keeps its allocations apart

What the invariant says about the image, over every sequence of calls: no byte of the image
belongs to two buffer heads. Addresses are 32 bits wide and `__erofs_mapbh` adds without a
check, so a run has to stay below `NULL_ADDR`; the last result shows two heads on one block
after a call that does not.
-/

namespace ErofsUtils

namespace BufMgr

def live (s : BufMgr) : List (BufferBlock × BufferHead) :=
  s.blocks.flatMap fun b => b.buffers.map (Prod.mk b)

def OnImage (sb : BlockSize) (a : BufferBlock × BufferHead) (x : ℕ) : Prop :=
  a.1.IsMapped ∧ a.1.blkaddr * sb.size + a.2.off ≤ x ∧
    x < a.1.blkaddr * sb.size + a.2.off + a.2.len

structure Sound (s : BufMgr) : Prop where
  heads : ∀ b ∈ s.blocks, b.HeadsOk
  mappedPrefix : ∃ m u, s.blocks = m ++ u ∧ (∀ b ∈ m, b.IsMapped) ∧ (∀ b ∈ u, ¬ b.IsMapped) ∧
    s.lastMapped = m.getLast?.map BufferBlock.id
  apart : s.blocks.Pairwise (BufferBlock.Apart s.sb)
  below : ∀ b ∈ s.blocks, b.IsMapped → 0 < b.nblocks s.sb → b.stop s.sb ≤ s.tailBlkaddr
  exclusive : s.live.Pairwise fun a c => ∀ x, ¬ (OnImage s.sb a x ∧ OnImage s.sb c x)

variable {s : BufMgr}

theorem OnImage.in_block {sb : BlockSize} {b : BufferBlock} {h : BufferHead} {x : ℕ}
    (hb : b.HeadsOk) (hh : h ∈ b.buffers) (hx : OnImage sb (b, h) x) :
    0 < b.nblocks sb ∧ b.blkaddr * sb.size ≤ x ∧ x < b.stop sb * sb.size := by
  obtain ⟨-, hlow, hhigh⟩ := hx
  have hin := hb.inside h hh
  have hmul := sb.le_blocksOf_mul b.off
  have hstop : b.stop sb * sb.size = b.blkaddr * sb.size + sb.blocksOf b.off * sb.size := by
    rw [BufferBlock.stop, Nat.add_mul]
    rfl
  have hpos : 0 < b.off := by
    simp only at hlow hhigh
    omega
  refine ⟨sb.blocksOf_pos.mpr hpos, ?_, ?_⟩ <;> simp only at hlow hhigh <;> omega

theorem Inv.exclusive (h : s.Inv) :
    s.live.Pairwise fun a c => ∀ x, ¬ (OnImage s.sb a x ∧ OnImage s.sb c x) := by
  rw [live, List.pairwise_flatMap]
  constructor
  · -- two heads of one block
    intro b hb
    rw [List.pairwise_map]
    refine (h.heads b hb).ordered.imp ?_
    rintro k l hkl x ⟨⟨-, -, hk⟩, ⟨-, hl, -⟩⟩
    simp only at hk hl
    omega
  · refine h.apart.imp_of_mem ?_
    intro b c hb hc hap y hy z hz x ⟨hxy, hxz⟩
    obtain ⟨k, hk, rfl⟩ := List.mem_map.mp hy
    obtain ⟨l, hl, rfl⟩ := List.mem_map.mp hz
    obtain ⟨hb0, hblow, hbhigh⟩ := hxy.in_block (h.heads b hb) hk
    obtain ⟨hc0, hclow, hchigh⟩ := hxz.in_block (h.heads c hc) hl
    rcases hap hxy.1 hxz.1 hb0 hc0 with hle | hle
    · have := Nat.mul_le_mul_right s.sb.size hle
      omega
    · have := Nat.mul_le_mul_right s.sb.size hle
      omega

theorem Inv.sound (h : s.Inv) : s.Sound := by
  refine ⟨h.heads, ?_, h.apart, h.below, h.exclusive⟩
  obtain ⟨hs, hm, hu⟩ := h.splitLastMapped
  refine ⟨_, _, hs, hm, hu, ?_⟩
  have hlast := h.last
  rw [hs, mappedIds_append, mappedIds_of_mapped hm, mappedIds_eq_nil hu, List.append_nil,
    List.getLast?_map] at hlast
  exact hlast

end BufMgr

/-- The call wraps no byte offset, and what it maps or grows ends below `NULL_ADDR`. -/
def BufOp.Fits (s : BufMgr) : BufOp → Prop
  | .balloc type size requiredExt inlineExt =>
    ∀ align bt, getAlignsize s.sb type = some (align, bt) →
      (∀ id, s.erofsBfindForAttach bt size requiredExt inlineExt align = .ok (some id) →
        s.AttachFits id size align (u32 (requiredExt + inlineExt))) ∧
      (s.erofsBfindForAttach bt size requiredExt inlineExt align = .ok none →
        (s.newBlock bt).AttachFits s.fresh size align (u32 (requiredExt + inlineExt)))
  | .battach bid _ type size =>
    ∀ align bt, getAlignsize s.sb type = some (align, bt) → s.AttachFits bid size align 0
  | .balloon bid _ incr => s.AttachFits bid incr 1 0
  | .mapbh bb =>
    ¬ s.isMapped bb → BufMgr.MapFits s.sb bb s.tailBlkaddr s.splitLastMapped.2
  | .bflush flush bb => BufMgr.FlushFits s.sb flush bb s.tailBlkaddr s.blocks
  | .bdrop _ _ _ => True

namespace BufMgr

/-- The states that calls meeting `ok` lead to, from a new buffer manager on. -/
inductive Reach (ok : BufMgr → BufOp → Prop) : BufMgr → Prop
  | init (sb : BlockSize) (startblk metablkcnt : ℕ) :
    Reach ok (erofsBufferInit sb startblk metablkcnt)
  | step {s : BufMgr} (op : BufOp) (hs : Reach ok s) (hop : ok s op) : Reach ok (s.step op)

variable {s : BufMgr}

theorem Inv.step (h : s.Inv) {op : BufOp} (hop : op.Fits s) : (s.step op).Inv := by
  cases op with
  | balloc type size requiredExt inlineExt =>
    rw [BufMgr.step, erofsBalloc]
    cases halign : getAlignsize s.sb type with
    | none => exact h
    | some r =>
      obtain ⟨align, bt⟩ := r
      obtain ⟨hpos, hdvd⟩ := getAlignsize_dvd halign
      obtain ⟨hfound, hnew⟩ := hop align bt halign
      cases hfind : s.erofsBfindForAttach bt size requiredExt inlineExt align with
      | error e => simpa only [hfind] using h
      | ok found =>
        cases found with
        | none => simpa only [hfind] using (h.newBlock bt).ballocIn hpos hdvd (hnew hfind)
        | some id => simpa only [hfind] using h.ballocIn hpos hdvd (hfound id hfind)
  | battach bid hid type size =>
    rw [BufMgr.step, erofsBattach]
    cases halign : getAlignsize s.sb type with
    | none => exact h
    | some r =>
      obtain ⟨align, bt⟩ := r
      obtain ⟨hpos, hdvd⟩ := getAlignsize_dvd halign
      simp only
      split_ifs
      · exact h.ballocIn hpos hdvd (hop align bt halign)
      · exact h
  | balloon bid hid incr =>
    rw [BufMgr.step, erofsBhBalloon]
    split_ifs
    · cases ha : s.attach bid none incr 1 0 with
      | none => exact h
      | some r => exact h.attach_named one_pos (one_dvd _) hop ha
    · exact h
  | mapbh bb => exact h.erofsMapbh hop
  | bflush flush bb => exact h.bflushLoop rfl (by simp) hop
  | bdrop bid hid tryrevoke => exact h.erofsBdrop bid hid tryrevoke

theorem Reach.inv (hs : Reach (fun s op => op.Fits s) s) : s.Inv := by
  induction hs with
  | init sb startblk metablkcnt => exact inv_init sb startblk metablkcnt
  | step op _ hop ih => exact ih.step hop

/-- In every run whose calls stay below the limits of their integers, the heads of a block are in
order, the mapped blocks are a prefix of the list that ends at the last mapped one, their
addresses are disjoint and below the tail, and no image byte belongs to two heads. -/
theorem reach_sound (hs : Reach (fun s op => op.Fits s) s) : s.Sound :=
  hs.inv.sound

/-- A buffer manager for blocks of 4096 bytes that starts at the first block. -/
def fresh4k : BufMgr := erofsBufferInit ⟨12, BlockSize.bits4k_low, BlockSize.bits4k_high⟩ 0 0

def limit4k : BufMgr := erofsBufferInit ⟨12, BlockSize.bits4k_low, BlockSize.bits4k_high⟩ (2 ^ 32 - 2) 0

theorem fits_balloc {type : BufType} {bt : BlockType} {size requiredExt inlineExt align : ℕ}
    (found : Option ℕ) (halign : getAlignsize s.sb type = some (align, bt))
    (hfind : s.erofsBfindForAttach bt size requiredExt inlineExt align = .ok found)
    (hfit : match found with
      | some id => s.AttachFits id size align (u32 (requiredExt + inlineExt))
      | none => (s.newBlock bt).AttachFits s.fresh size align (u32 (requiredExt + inlineExt))) :
    (BufOp.balloc type size requiredExt inlineExt).Fits s := by
  intro a b hab
  obtain ⟨rfl, rfl⟩ := Prod.mk.inj (Option.some.inj (halign.symm.trans hab))
  constructor
  · intro id hid
    obtain rfl := Except.ok.inj (hfind.symm.trans hid)
    exact hfit
  · intro hnew
    obtain rfl := Except.ok.inj (hfind.symm.trans hnew)
    exact hfit

theorem attachFits_of_split {id incr align extra : ℕ} (p : List BufferBlock) (bb : BufferBlock)
    (q : List BufferBlock) (hsplit : splitAtBlock id s.blocks = some (p, bb, q))
    (hfit : bb.AttachFits s.sb incr align extra) : s.AttachFits id incr align extra := by
  intro p' bb' q' hsplit'
  obtain ⟨-, hbb⟩ := Prod.mk.inj (Option.some.inj (hsplit.symm.trans hsplit'))
  rw [← (Prod.mk.inj hbb).1]
  exact hfit

def behindData (blocks : List BufferBlock) (fresh : ℕ) : BufMgr :=
  ⟨fresh4k.sb, ⟨0, .data, 0, 8192, [⟨1, 0, 8192⟩]⟩ :: blocks, 2, 0, some 0, [0], fresh⟩

theorem Reach.step_to {ok : BufMgr → BufOp → Prop} {s s' : BufMgr} (hs : Reach ok s) (op : BufOp)
    (hop : ok s op) (heq : s.step op = s') : Reach ok s' :=
  heq ▸ hs.step op hop

/-- Data, an inode behind it that grows, and another inode that is dropped. -/
theorem reach_sound_behindData :
    (behindData [⟨2, .metadata, nullAddr, 192, [⟨3, 0, 128⟩]⟩] 5).Sound := by
  have h0 : Reach (fun s op => op.Fits s) fresh4k := .init _ 0 0
  have h1 := h0.step (.balloc .data 8192 0 0) (fits_balloc none rfl (by decide +kernel)
    (attachFits_of_split _ _ _ rfl ⟨by decide +kernel, fun hm => absurd rfl hm⟩))
  have h2 : Reach (fun s op => op.Fits s) (behindData [] 2) :=
    h1.step (.mapbh none) fun _ => by decide +kernel
  have h3 : Reach (fun s op => op.Fits s)
      (behindData [⟨2, .metadata, nullAddr, 96, [⟨3, 0, 96⟩]⟩] 4) :=
    h2.step_to (.balloc .inode 96 0 500) (fits_balloc none rfl (by decide +kernel)
      (attachFits_of_split _ _ _ rfl ⟨by decide +kernel, fun hm => absurd rfl hm⟩))
      (by decide +kernel)
  have h4 : Reach (fun s op => op.Fits s)
      (behindData [⟨2, .metadata, nullAddr, 128, [⟨3, 0, 128⟩]⟩] 4) :=
    h3.step_to (.balloon 2 3 32)
      (attachFits_of_split _ _ _ rfl ⟨by decide +kernel, fun hm => absurd rfl hm⟩)
      (by decide +kernel)
  have h5 : Reach (fun s op => op.Fits s)
      (behindData [⟨2, .metadata, nullAddr, 192, [⟨3, 0, 128⟩, ⟨4, 128, 64⟩]⟩] 5) :=
    h4.step_to (.balloc .inode 64 0 0) (fits_balloc (some 2) rfl (by decide +kernel)
      (attachFits_of_split _ _ _ rfl ⟨by decide +kernel, fun hm => absurd rfl hm⟩))
      (by decide +kernel)
  have h6 : Reach (fun s op => op.Fits s)
      (behindData [⟨2, .metadata, nullAddr, 192, [⟨3, 0, 128⟩]⟩] 5) :=
    h5.step_to (.bdrop 2 4 true) trivial (by decide +kernel)
  exact reach_sound h6
/-- Sixteen tebibytes of data end at block `2 ^ 32`, which is stored as 0, so the next block is
mapped over the first one. -/
theorem reach_shared_block : ∃ s, Reach (fun _ _ => True) s ∧ ¬ s.Sound := by
  refine ⟨(((fresh4k.step (.balloc .data (2 ^ 44) 0 0)).step (.mapbh none)).step
    (.balloc .data 4096 0 0)).step (.mapbh none), ?_, fun hsound => ?_⟩
  · exact .step _ (.step _ (.step _ (.step _ (.init _ 0 0) trivial) trivial) trivial) trivial
  · have hlive : ((((fresh4k.step (.balloc .data (2 ^ 44) 0 0)).step (.mapbh none)).step
        (.balloc .data 4096 0 0)).step (.mapbh none)).live =
        [(⟨0, .data, 0, 2 ^ 44, [⟨1, 0, 2 ^ 44⟩]⟩, ⟨1, 0, 2 ^ 44⟩),
          (⟨2, .data, 0, 4096, [⟨3, 0, 4096⟩]⟩, ⟨3, 0, 4096⟩)] := by
      decide +kernel
    have hex := hsound.exclusive
    rw [hlive] at hex
    have := List.rel_of_pairwise_cons hex List.mem_cons_self 0
    exact this ⟨⟨by decide +kernel, by decide +kernel, by decide +kernel⟩,
      ⟨by decide +kernel, by decide +kernel, by decide +kernel⟩⟩

end BufMgr

end ErofsUtils
