import ErofsUtils.XattrFormat

/-!
# The size of the xattr area of an inode

`erofs_prepare_xattr_ibody` sizes the area for the xattrs of an inode and for the size that is
requested for the root, and `erofs_iflush` stores that size as a count of four-byte units. The size
is an `int`; it is kept here as the 32 bits of it, and one that is negative comes back to the
callers as an error.
-/

namespace ErofsUtils

def ucharMax : ℕ := 255

def eNoSpc : ℤ := -28

def int32 (n : ℕ) : ℤ := if n < 2 ^ 31 then n else n - 2 ^ 32

/-- The loop of `erofs_prepare_xattr_ibody` over the xattrs, from a count of shared ids and a
size. -/
def xattrListSize : List XattrItem → ℕ → ℕ → ℕ
  | [], _, ret => ret
  | item :: items, hSharedCount, ret =>
    if 0 ≤ item.sharedXattrId ∧ hSharedCount < ucharMax then
      xattrListSize items (hSharedCount + 1) (u32 (ret + 4))
    else xattrListSize items hSharedCount (erofsNextXattrAlign ret item)

def xattrsSize (ixattrs : List XattrItem) : ℕ :=
  if ixattrs = [] then 0 else xattrListSize ixattrs 0 xattrHeaderSize

/-- `min_t(int, target_xattr_isize - ret, UINT16_MAX)` as the 32 bits of it. -/
def xattrFiller (target ret : ℕ) : ℕ :=
  let rest := u32 (target + 2 ^ 32 - ret)
  if rest < 2 ^ 31 then min rest 65535 else rest

/-- The loop that fills the area up to `target`; without fuel it does not return. -/
def fillXattrSize (target : ℕ) : ℕ → ℕ → Option ℕ
  | fuel, ret =>
    if target ≤ ret then some ret
    else match fuel with
      | 0 => none
      | fuel + 1 =>
        let ret := u32 (ret + 4)
        if ret < target then
          fillXattrSize target fuel (u32 (roundUp (ret + xattrFiller target ret) 4))
        else fillXattrSize target fuel ret

/-- `erofs_prepare_xattr_ibody` for an inode with a size already set: what it returns, and the new
`xattr_isize` unless it gives up before. -/
def erofsPrepareXattrIbody (fuel : ℕ) (ixattrs : List XattrItem) (target : ℕ) (noroom : Bool) :
    Option (ℤ × ℕ) :=
  match fillXattrSize target fuel (xattrsSize ixattrs) with
  | none => none
  | some ret =>
    if noroom ∧ target ≠ 0 ∧ target < ret then some (eNoSpc, target)
    else some (int32 ret, ret)

/-- The preparation returns, and either it fails or the reader gets the size from the stored
count. -/
def SizeSurvives (ixattrs : List XattrItem) (target : ℕ) (noroom : Bool) : Prop :=
  ∃ fuel ret xattrIsize,
    erofsPrepareXattrIbody fuel ixattrs target noroom = some (ret, xattrIsize) ∧
      (ret < 0 ∨ erofsXattrIbodySize (erofsInodeXattrIcount xattrIsize) = xattrIsize)

section Sizes

variable {ixattrs : List XattrItem} {target ret fuel : ℕ}

theorem roundUp_four_eq (n : ℕ) : roundUp n 4 = (n + 3) / 4 * 4 := rfl

theorem erofsNextXattrAlign_mod (pos : ℕ) (item : XattrItem) :
    erofsNextXattrAlign pos item % 4 = 0 := by
  unfold erofsNextXattrAlign
  rw [roundUp_four_eq, u32]
  omega

theorem xattrListSize_spec (h : ℕ) (hmod : ret % 4 = 0) (hlt : ret < 2 ^ 32) :
    xattrListSize ixattrs h ret % 4 = 0 ∧ xattrListSize ixattrs h ret < 2 ^ 32 := by
  induction ixattrs generalizing h ret with
  | nil => exact ⟨hmod, hlt⟩
  | cons item items ih =>
      rw [xattrListSize]
      split
      · apply ih
        · rw [u32]
          omega
        · exact u32_lt _
      · exact ih _ (erofsNextXattrAlign_mod _ _) (u32_lt _)

theorem xattrsSize_mod (ixattrs : List XattrItem) : xattrsSize ixattrs % 4 = 0 := by
  unfold xattrsSize
  split
  · rfl
  · exact (xattrListSize_spec 0 rfl (by decide)).1

theorem xattrsSize_lt (ixattrs : List XattrItem) : xattrsSize ixattrs < 2 ^ 32 := by
  unfold xattrsSize
  split
  · decide
  · exact (xattrListSize_spec 0 rfl (by decide)).2

theorem fillXattrSize_of_le (h : target ≤ ret) : fillXattrSize target fuel ret = some ret := by
  unfold fillXattrSize
  rw [if_pos h]

def fillTurn (target ret : ℕ) : ℕ :=
  if u32 (ret + 4) < target then
    u32 (roundUp (u32 (ret + 4) + xattrFiller target (u32 (ret + 4))) 4)
  else u32 (ret + 4)

theorem fillXattrSize_of_lt (h : ret < target) :
    fillXattrSize target (fuel + 1) ret = fillXattrSize target fuel (fillTurn target ret) := by
  rw [fillXattrSize, if_neg (Nat.not_le.mpr h)]
  dsimp only
  rw [fillTurn]
  split <;> rfl

theorem fillTurn_spec (hmod : ret % 4 = 0) (hlt : ret < target) (htop : target ≤ 2 ^ 32 - 4) :
    ret < fillTurn target ret ∧ fillTurn target ret ≤ roundUp target 4 ∧
      fillTurn target ret % 4 = 0 := by
  have hround := roundUp_four_eq target
  have hstep : u32 (ret + 4) = ret + 4 := u32_of_lt (by omega)
  unfold fillTurn
  rw [hstep]
  split
  · next hmore =>
      have hrest : u32 (target + 2 ^ 32 - (ret + 4)) = target - (ret + 4) := by
        rw [u32]
        omega
      have hfiller : xattrFiller target (ret + 4) ≤ target - (ret + 4) ∧
          0 < xattrFiller target (ret + 4) := by
        unfold xattrFiller
        rw [hrest]
        dsimp only
        split <;> omega
      rw [roundUp_four_eq (ret + 4 + _), u32]
      omega
  · omega

theorem fillXattrSize_eq (hmod : ret % 4 = 0) (htop : target ≤ 2 ^ 32 - 4)
    (hfuel : target ≤ ret + fuel) :
    fillXattrSize target fuel ret = some (max ret (roundUp target 4)) := by
  induction fuel generalizing ret with
  | zero =>
      have hround := roundUp_four_eq target
      rw [fillXattrSize_of_le (by omega), max_eq_left (by omega)]
  | succ fuel ih =>
      rcases Nat.lt_or_ge ret target with hlt | hge
      · obtain ⟨hmore, hle, hmod'⟩ := fillTurn_spec hmod hlt htop
        rw [fillXattrSize_of_lt hlt, ih hmod' (by omega), max_eq_right hle,
          max_eq_right (by omega)]
      · have hround := roundUp_four_eq target
        rw [fillXattrSize_of_le hge, max_eq_left (by omega)]

theorem fillXattrSize_unique {r : ℕ} (hmod : ret % 4 = 0) (htop : target ≤ 2 ^ 32 - 4)
    (h : fillXattrSize target fuel ret = some r) : r = max ret (roundUp target 4) := by
  induction fuel generalizing ret with
  | zero =>
      have hround := roundUp_four_eq target
      unfold fillXattrSize at h
      split at h
      · cases h
        omega
      · cases h
  | succ fuel ih =>
      have hround := roundUp_four_eq target
      rcases Nat.lt_or_ge ret target with hlt | hge
      · obtain ⟨hmore, hle, hmod'⟩ := fillTurn_spec hmod hlt htop
        rw [fillXattrSize_of_lt hlt] at h
        rw [ih hmod' h]
        omega
      · rw [fillXattrSize_of_le hge] at h
        cases h
        omega

/-- No size that is a multiple of four reaches a target above the last one. -/
theorem fillXattrSize_none (hmod : ret % 4 = 0) (hret : ret < 2 ^ 32)
    (htop : 2 ^ 32 - 4 < target) : fillXattrSize target fuel ret = none := by
  have hlt : ret < target := by omega
  induction fuel generalizing ret with
  | zero =>
      unfold fillXattrSize
      rw [if_neg (by omega)]
  | succ fuel ih =>
      have hmod' : fillTurn target ret % 4 = 0 := by
        unfold fillTurn
        split
        · rw [roundUp_four_eq, u32]
          omega
        · rw [u32]
          omega
      have hret' : fillTurn target ret < 2 ^ 32 := by
        unfold fillTurn
        split <;> exact u32_lt _
      rw [fillXattrSize_of_lt hlt]
      exact ih hmod' hret' (by omega)

end Sizes

/-- The sizes that a 16-bit count of units brings back. -/
def CountFits (size : ℕ) : Prop :=
  size = 0 ∨ xattrHeaderSize ≤ size ∧ size ≤ xattrHeaderSize + 4 * 65534 ∧ size % 2 ^ 16 ≠ 0

theorem icount_survives_iff {size : ℕ} (hmod : size % 4 = 0) (hlt : size < 2 ^ 32) :
    erofsXattrIbodySize (erofsInodeXattrIcount size) = size ↔ CountFits size := by
  unfold erofsXattrIbodySize erofsInodeXattrIcount CountFits
  by_cases h16 : u16 size = 0
  · rw [if_pos h16, if_pos rfl]
    rw [u16] at h16
    constructor
    · intro h
      exact Or.inl h.symm
    · rintro (h | h)
      · exact h.symm
      · exact absurd h16 h.2.2
  rw [if_neg h16]
  rw [u16] at h16
  simp only [xattrHeaderSize]
  rcases Nat.lt_or_ge size 12 with hsmall | hbig
  · -- the difference with the header wraps around
    have hsize : size = 4 ∨ size = 8 := by omega
    rcases hsize with rfl | rfl
    · simp [sub64, u64, u16]
    · simp [sub64, u64, u16]
  · have hsub : sub64 size 12 = size - 12 := sub64_of_le hbig (by omega)
    have hcount : u64 (sub64 size 12 / 4 + 1) = size / 4 - 2 := by
      rw [hsub, u64_of_lt (by omega)]
      omega
    simp only [hcount, u16]
    by_cases h0 : (size / 4 - 2) % 2 ^ 16 = 0
    · rw [if_pos h0]
      omega
    · rw [if_neg h0]
      omega

/-- The size of the xattr area comes back from the inode, or the preparation fails, exactly when
the request can be reached and the larger of the xattrs' size and the rounded request is refused
or fits the count. -/
theorem xattrIsize_survives_iff (ixattrs : List XattrItem) (target : UInt32) (noroom : Bool) :
    SizeSurvives ixattrs target.toNat noroom ↔
      target.toNat ≤ 2 ^ 32 - 4 ∧
        (noroom = true ∧ target.toNat ≠ 0 ∧
            target.toNat < max (xattrsSize ixattrs) (roundUp target.toNat 4) ∨
          2 ^ 31 ≤ max (xattrsSize ixattrs) (roundUp target.toNat 4) ∨
          CountFits (max (xattrsSize ixattrs) (roundUp target.toNat 4))) := by
  generalize target.toNat = target
  have hmod := xattrsSize_mod ixattrs
  have hlt := xattrsSize_lt ixattrs
  rcases Nat.lt_or_ge (2 ^ 32 - 4) target with htop | htop
  · constructor
    · rintro ⟨fuel, ret, isize, hprep, -⟩
      rw [erofsPrepareXattrIbody, fillXattrSize_none hmod hlt htop] at hprep
      cases hprep
    · rintro ⟨hle, -⟩
      omega
  have hround := roundUp_four_eq target
  have hfill {fuel ret : ℕ} (h : fillXattrSize target fuel (xattrsSize ixattrs) = some ret) :
      ret = max (xattrsSize ixattrs) (roundUp target 4) := fillXattrSize_unique hmod htop h
  have hend := @fillXattrSize_eq target (xattrsSize ixattrs) target hmod htop (by omega)
  generalize hsize : max (xattrsSize ixattrs) (roundUp target 4) = size at hfill hend ⊢
  have hsmod : size % 4 = 0 := by omega
  have hslt : size < 2 ^ 32 := by omega
  have hneg : int32 size < 0 ↔ 2 ^ 31 ≤ size := by
    unfold int32
    split <;> omega
  constructor
  · rintro ⟨fuel, ret, isize, hprep, hret⟩
    refine ⟨htop, ?_⟩
    unfold erofsPrepareXattrIbody at hprep
    split at hprep
    · cases hprep
    · next r hr =>
        obtain rfl := hfill hr
        split at hprep
        · next hroom => exact Or.inl hroom
        · cases hprep
          rcases hret with hret | hret
          · exact Or.inr (Or.inl (hneg.mp hret))
          · exact Or.inr (Or.inr ((icount_survives_iff hsmod hslt).mp hret))
  · rintro ⟨-, hcases⟩
    unfold SizeSurvives erofsPrepareXattrIbody
    by_cases hroom : noroom = true ∧ target ≠ 0 ∧ target < size
    · refine ⟨target, eNoSpc, target, ?_, Or.inl (by decide)⟩
      simp only [hend, if_pos hroom]
    · refine ⟨target, int32 size, size, ?_, ?_⟩
      · simp only [hend, if_neg hroom]
      · rcases hcases with h | h | h
        · exact absurd h hroom
        · exact Or.inl (hneg.mpr h)
        · exact Or.inr ((icount_survives_iff hsmod hslt).mpr h)

/-- An xattr `user.a` whose entry ends at 64 KiB. -/
def wideXattr : XattrItem where
  key := xattrUserPrefix ++ asciiBytes ['a']
  value := List.replicate 65519 0
  count := 1
  sharedXattrId := -1
  prefixIndex := 1
  baseIndex := 1
  prefixLen := 5
  prefixLen_le := by decide

/-- Its area is prepared, and the reader is told that there is none. -/
theorem wideXattr_lost :
    (∀ fuel, erofsPrepareXattrIbody fuel [wideXattr] 0 false = some (65536, 65536)) ∧
      erofsXattrIbodySize (erofsInodeXattrIcount 65536) = 0 ∧
      ¬ SizeSurvives [wideXattr] 0 false := by
  have hbody : wideXattr.body = 65520 := by
    have hkey : wideXattr.key.length = 6 := rfl
    have hlen : wideXattr.prefixLen = 5 := rfl
    have hvalue : wideXattr.value = List.replicate 65519 0 := rfl
    rw [XattrItem.body, hkey, hlen, hvalue, List.length_replicate]
  have hid : wideXattr.sharedXattrId = -1 := rfl
  have hsize : xattrsSize [wideXattr] = 65536 := by
    rw [xattrsSize, if_neg (List.cons_ne_nil _ _), xattrListSize, if_neg (by rw [hid]; omega),
      xattrListSize, erofsNextXattrAlign, hbody]
    decide
  have hprep (fuel : ℕ) :
      erofsPrepareXattrIbody fuel [wideXattr] 0 false = some (65536, 65536) := by
    rw [erofsPrepareXattrIbody, hsize, fillXattrSize_of_le (Nat.zero_le _)]
    rfl
  have hcount : erofsXattrIbodySize (erofsInodeXattrIcount 65536) = 0 := by
    simp [erofsInodeXattrIcount, erofsXattrIbodySize, u16]
  refine ⟨hprep, hcount, ?_⟩
  rintro ⟨fuel, ret, isize, h, hret⟩
  rw [hprep] at h
  cases h
  rw [hcount] at hret
  omega

end ErofsUtils
