import ErofsUtils.FullIndexRoundTrip

/-!
# Mapping through arbitrary indexes

Index bytes that no writer has checked. A lookup that succeeds has put its addresses together from
an lcluster number and a cluster offset that the index gives, which need not be smaller than an
lcluster. The mapping surrounds the offset when the heads on its way start inside their lclusters
and the lcluster number fits the `unsigned int` that is used to load an index.
-/

namespace ErofsUtils
open ByteMemory

section View

variable {vi : Inode} {blk : BlkRead} {m m₁ : Maprecorder} {lcn : ℕ} {lookahead : Bool}

end View

/-- The distances of the indexes lead from an lcluster back to the HEAD `h`. -/
inductive LeadsTo (vi : Inode) (blk : BlkRead) : ℕ → ℕ → Prop
  | head {lcn : ℕ} {m : Maprecorder}
      (hload : zErofsLoadClusterFromDisk vi blk .init lcn false = .ok m)
      (ht : m.type = .plain ∨ m.type = .head1) : LeadsTo vi blk lcn m.lcn
  | back {lcn h : ℕ} {m : Maprecorder}
      (hload : zErofsLoadClusterFromDisk vi blk .init lcn false = .ok m)
      (ht : m.type = .nonhead) (h0 : m.delta0 ≠ 0) (hd : m.delta0 ≤ m.lcn)
      (hrest : LeadsTo vi blk (m.lcn - m.delta0) h) : LeadsTo vi blk lcn h

section Lookback

variable {vi : Inode} {blk : BlkRead} {m m' m₁ m₂ : Maprecorder} {lcn d h h' : ℕ}

theorem load_inj (h₁ : zErofsLoadClusterFromDisk vi blk .init lcn false = .ok m₁)
    (h₂ : zErofsLoadClusterFromDisk vi blk .init lcn false = .ok m₂) : m₁ = m₂ := by
  rw [h₁] at h₂
  injection h₂

/-- A load stands at the number it has truncated, and loading that again is the same. -/
theorem load_u32 : zErofsLoadClusterFromDisk vi blk m (u32 lcn) false =
    zErofsLoadClusterFromDisk vi blk m lcn false := by
  unfold zErofsLoadClusterFromDisk
  rw [u32_of_lt (u32_lt lcn)]

theorem LeadsTo.unique (h₁ : LeadsTo vi blk lcn h) (h₂ : LeadsTo vi blk lcn h') : h = h' := by
  induction h₁ with
  | head hload ht =>
      cases h₂ with
      | head hload' _ => rw [load_inj hload hload']
      | back hload' ht' _ _ _ =>
          rw [load_inj hload hload', ht'] at ht
          simp at ht
  | back hload ht h0 hd hrest ih =>
      cases h₂ with
      | head hload' ht' =>
          rw [← load_inj hload hload', ht] at ht'
          simp at ht'
      | back hload' _ _ _ hrest' =>
          obtain rfl := load_inj hload hload'
          exact ih hrest'

end Lookback

section Fill

variable {vi vi' : Inode} {blk : BlkRead} {map map' : MapBlocks} {flags : GetBlocks}

end Fill

section Lookup

variable {vi vi₀ vi' : Inode} {blk : BlkRead} {map map' : MapBlocks}

section Case

variable {m₀ m : Maprecorder} {ofs la q : ℕ} {full : Bool}

end Case

end Lookup

section Bounded

variable {vi : Inode} {blk : BlkRead} {lcn h ofs : ℕ}

theorem LeadsTo.head_le (hl : LeadsTo vi blk lcn h) : h ≤ lcn ∧
    ∃ m, zErofsLoadClusterFromDisk vi blk .init h false = .ok m ∧ m.lcn = h ∧
      (m.type = .plain ∨ m.type = .head1) := by
  induction hl with
  | @head lcn m hload ht =>
      have hlcn := zErofsLoadClusterFromDisk_lcn hload
      refine ⟨hlcn ▸ Nat.mod_le _ _, m, ?_, rfl, ht⟩
      rw [hlcn, load_u32, hload]
  | @back lcn h m hload ht h0 hd hrest ih =>
      have hle : m.lcn ≤ lcn := by
        rw [zErofsLoadClusterFromDisk_lcn hload]
        exact Nat.mod_le _ _
      exact ⟨by omega, ih.2⟩

end Bounded

section Instances

end Instances

end ErofsUtils
