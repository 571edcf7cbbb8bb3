import ErofsUtils.Layout

/-!
# Writing the lcluster indexes of a file

`z_erofs_write_extent`, `z_erofs_write_indexes` and `z_erofs_write_indexes_final` turn the
extent list of a file into one index for each logical cluster. The second half describes
the result without the loops: every lcluster has a slot, which is the head of an extent, a
later lcluster of an extent, or the pad entry behind the last extent.
-/

namespace ErofsUtils
open ByteMemory

/-- Index of the lcluster at distance `d0` from the head of `e`, with `d1` lclusters left. -/
def extentIndex (vi : Inode) (e : InmemExtent) (clusterofs d0 d1 : ℕ) : LclusterIndex :=
  if d0 = 1 ∧ vi.sbi.bigPcluster then
    { advise := LclusterType.nonhead.toNat
      clusterofs := u16 clusterofs
      u := LclusterIndex.deltas (e.compressedblks ||| d0Cblkcnt) d1 }
  else if d0 ≠ 0 then
    -- a distance that would show the CBLKCNT bit is stored as the largest one below it
    { advise := LclusterType.nonhead.toNat
      clusterofs := u16 clusterofs
      u := LclusterIndex.deltas (if d0Cblkcnt ≤ d0 then d0Cblkcnt - 1 else d0) d1 }
  else
    { advise := (if e.raw then LclusterType.plain else LclusterType.head1).toNat +
        if e.partialRef then liPartialRef else 0
      clusterofs := u16 clusterofs
      u := if vi.datalayout = .compressedFull ∧ e.compressedblks = 0
        then u32 (vi.fragmentoff / 2 ^ 32) else u32 e.blkaddr }

/-- The `do .. while` loop of `z_erofs_write_extent`; returns the indexes and the new
`ctx->clusterofs`. `ofs0` is the cluster offset of the extent's head. -/
def zErofsWriteExtentLoop (vi : Inode) (e : InmemExtent) (ofs0 : ℕ) :
    ℕ → ℕ → ℕ → ℕ → ℕ → List LclusterIndex × ℕ
  | 0, _, count, _, _ => ([], count)
  | fuel + 1, clusterofs, count, d0, d1 =>
    let di := extentIndex vi e ofs0 d0 d1
    let count := count - (vi.sbi.blksz - clusterofs)
    if vi.sbi.blksz ≤ count then
      let r := zErofsWriteExtentLoop vi e ofs0 fuel 0 count (d0 + 1) (dec32 d1)
      (di :: r.1, r.2)
    else ([di], count)

def zErofsWriteExtent (vi : Inode) (clusterofs : ℕ) (e : InmemExtent) :
    List LclusterIndex × ℕ :=
  let d1 := u32 (clusterofs + e.length) / vi.sbi.blksz
  if d1 = 0 then
    -- the tail-end block: no final index is added behind it
    ([extentIndex vi { e with partialRef := false } clusterofs 0 0], 0)
  else zErofsWriteExtentLoop vi e clusterofs e.length clusterofs e.length 0 d1

def zErofsWriteIndexesFinal (clusterofs : ℕ) : List LclusterIndex :=
  if clusterofs = 0 then []
  else [{ advise := LclusterType.plain.toNat, clusterofs := u16 clusterofs, u := 0 }]

/-- The body of `z_erofs_write_indexes` behind the initial reset of `ctx->clusterofs`. -/
def zErofsWriteIndexesFrom (vi : Inode) : ℕ → List InmemExtent → List LclusterIndex
  | clusterofs, [] => zErofsWriteIndexesFinal clusterofs
  | clusterofs, e :: es =>
    let r := zErofsWriteExtent vi clusterofs e
    r.1 ++ zErofsWriteIndexesFrom vi r.2 es

def zErofsWriteIndexes (vi : Inode) (es : List InmemExtent) : List LclusterIndex :=
  zErofsWriteIndexesFrom vi 0 es

inductive Slot
  | extent (e : InmemExtent) (clusterofs d0 d1 : ℕ)
  | pad (clusterofs : ℕ)
  deriving DecidableEq, Repr

def Slot.index (vi : Inode) : Slot → LclusterIndex
  | .extent e clusterofs d0 d1 => extentIndex vi e clusterofs d0 d1
  | .pad clusterofs =>
    { advise := LclusterType.plain.toNat, clusterofs := u16 clusterofs, u := 0 }

/-- The lclusters in which an extent that starts at `pos` reaches the cluster's end. -/
def extentSpan (blksz pos : ℕ) (e : InmemExtent) : ℕ := (pos % blksz + e.length) / blksz

def extentSlots (blksz pos : ℕ) (e : InmemExtent) : List Slot :=
  if extentSpan blksz pos e = 0 then
    [.extent { e with partialRef := false } (pos % blksz) 0 0]
  else (List.range (extentSpan blksz pos e)).map fun i =>
    .extent e (pos % blksz) i (extentSpan blksz pos e - i)

/-- The slots of the lclusters from `pos / blksz` on, for extents that follow each other
from `pos` on. -/
def fileSlots (blksz : ℕ) : ℕ → List InmemExtent → List Slot
  | pos, [] => if pos % blksz = 0 then [] else [.pad (pos % blksz)]
  | pos, e :: es => extentSlots blksz pos e ++
      if extentSpan blksz pos e = 0 then [] else fileSlots blksz (pos + e.length) es

/-- What the extent builder guarantees of the extents from `pos` on: none is empty, and
every extent but the last reaches the end of the lcluster it starts in. -/
def Spans (blksz : ℕ) : ℕ → List InmemExtent → Prop
  | _, [] => True
  | pos, e :: es => 0 < e.length ∧ pos % blksz + e.length < 2 ^ 32 ∧
      (es ≠ [] → blksz ≤ pos % blksz + e.length) ∧ Spans blksz (pos + e.length) es

def totalLength (es : List InmemExtent) : ℕ := (es.map InmemExtent.length).sum

@[simp] theorem totalLength_nil : totalLength [] = 0 := rfl

@[simp] theorem totalLength_cons (e : InmemExtent) (es : List InmemExtent) :
    totalLength (e :: es) = e.length + totalLength es := by simp [totalLength]

@[simp] theorem totalLength_append (xs ys : List InmemExtent) :
    totalLength (xs ++ ys) = totalLength xs + totalLength ys := by simp [totalLength]

section Loop

variable (vi : Inode) (e : InmemExtent)

/-- The loop writes one index for each lcluster whose end the extent reaches; `rest` is
what the extent has left behind the end of its current lcluster. -/
theorem zErofsWriteExtentLoop_eq (ofs0 : ℕ) {n fuel clusterofs count d0 rest : ℕ}
    (hrest : clusterofs + count = rest + vi.sbi.blksz) (hn : rest / vi.sbi.blksz = n)
    (hc : clusterofs < vi.sbi.blksz) (hlt : rest < 2 ^ 32) (hf : n < fuel) :
    zErofsWriteExtentLoop vi e ofs0 fuel clusterofs count d0 (n + 1) =
      ((List.range (n + 1)).map fun i => extentIndex vi e ofs0 (d0 + i) (n + 1 - i),
        rest % vi.sbi.blksz) := by
  have hpos := vi.sbi.blksz_pos
  induction n generalizing fuel clusterofs count d0 rest with
  | zero =>
      have hlt' : rest < vi.sbi.blksz := (Nat.div_eq_zero_iff_lt hpos).mp hn
      have hcount : count - (vi.sbi.blksz - clusterofs) = rest := by omega
      cases fuel with
      | zero => omega
      | succ fuel =>
          simp [zErofsWriteExtentLoop, hcount, Nat.not_le.mpr hlt', Nat.mod_eq_of_lt hlt']
  | succ n ih =>
      have hge : vi.sbi.blksz ≤ rest := (Nat.div_pos_iff.mp (by omega)).2
      have hcount : count - (vi.sbi.blksz - clusterofs) = rest := by omega
      obtain ⟨rest, rfl⟩ := Nat.exists_eq_add_of_le' hge
      rw [Nat.add_div_right _ hpos] at hn
      have hd1 : dec32 (n + 1 + 1) = n + 1 := by
        have := Nat.div_le_self rest vi.sbi.blksz
        unfold dec32
        omega
      cases fuel with
      | zero => omega
      | succ fuel =>
          have hrec := @ih fuel 0 (rest + vi.sbi.blksz) (d0 + 1) rest (Nat.zero_add _) (by omega)
            hpos (by omega) (Nat.lt_of_succ_lt_succ hf)
          rw [zErofsWriteExtentLoop, hcount, if_pos hge, hd1, hrec, Nat.add_mod_right,
            List.range_succ_eq_map (n := n + 1), List.map_cons, List.map_map]
          simp only [Nat.add_zero, Nat.sub_zero, Prod.mk.injEq, List.cons.injEq, true_and,
            and_true]
          apply List.map_congr_left
          intro i _
          have h0 : d0 + 1 + i = d0 + (i + 1) := by omega
          have h1 : n + 1 - i = n + 1 + 1 - (i + 1) := by omega
          rw [Function.comp_apply, h0, h1]

theorem zErofsWriteExtent_eq {pos : ℕ} (hlt : pos % vi.sbi.blksz + e.length < 2 ^ 32) :
    zErofsWriteExtent vi (pos % vi.sbi.blksz) e =
      ((extentSlots vi.sbi.blksz pos e).map (Slot.index vi),
        if extentSpan vi.sbi.blksz pos e = 0 then 0 else (pos + e.length) % vi.sbi.blksz) := by
  have hpos := vi.sbi.blksz_pos
  have hmod := Nat.mod_lt pos hpos
  unfold zErofsWriteExtent extentSlots
  rw [u32_of_lt hlt]
  change (if extentSpan vi.sbi.blksz pos e = 0 then _ else
    zErofsWriteExtentLoop vi e _ _ _ _ 0 (extentSpan vi.sbi.blksz pos e)) = _
  by_cases h0 : extentSpan vi.sbi.blksz pos e = 0
  · simp only [if_pos h0, List.map_cons, List.map_nil, Slot.index]
  · rw [if_neg h0, if_neg h0, if_neg h0]
    obtain ⟨n, hn⟩ := Nat.exists_eq_succ_of_ne_zero h0
    have hge : vi.sbi.blksz ≤ pos % vi.sbi.blksz + e.length := (Nat.div_pos_iff.mp (by
      change 0 < extentSpan vi.sbi.blksz pos e
      omega)).2
    obtain ⟨rest, hrest⟩ := Nat.exists_eq_add_of_le' hge
    have hdiv : rest / vi.sbi.blksz = n := by
      rw [extentSpan, hrest, Nat.add_div_right _ hpos] at hn
      omega
    have hfuel : n < e.length := by
      have := Nat.div_le_self rest vi.sbi.blksz
      omega
    rw [hn, zErofsWriteExtentLoop_eq vi e _ hrest hdiv hmod (by omega) hfuel]
    have hm : (pos + e.length) % vi.sbi.blksz = rest % vi.sbi.blksz := by
      rw [← Nat.mod_add_mod, hrest, Nat.add_mod_right]
    rw [hm, List.map_map]
    simp only [Nat.zero_add, Nat.succ_eq_add_one, Prod.mk.injEq, and_true]
    rfl

end Loop

theorem zErofsWriteIndexesFrom_eq (vi : Inode) {pos : ℕ} {es : List InmemExtent}
    (hs : Spans vi.sbi.blksz pos es) :
    zErofsWriteIndexesFrom vi (pos % vi.sbi.blksz) es =
      (fileSlots vi.sbi.blksz pos es).map (Slot.index vi) := by
  induction es generalizing pos with
  | nil =>
      rw [zErofsWriteIndexesFrom, zErofsWriteIndexesFinal, fileSlots]
      split_ifs <;> rfl
  | cons e es ih =>
      obtain ⟨hpos, hlt, hspan, hrest⟩ := hs
      rw [zErofsWriteIndexesFrom, zErofsWriteExtent_eq vi e hlt, fileSlots, List.map_append]
      congr 1
      by_cases h0 : extentSpan vi.sbi.blksz pos e = 0
      · have hes : es = [] := by
          by_contra hne
          have := Nat.div_pos (hspan hne) vi.sbi.blksz_pos
          rw [extentSpan] at h0
          omega
        simp only [h0, if_true, hes, zErofsWriteIndexesFrom, zErofsWriteIndexesFinal,
          List.map_nil]
      · simp only [if_neg h0]
        exact ih hrest

theorem zErofsWriteIndexes_eq (vi : Inode) {es : List InmemExtent}
    (hs : Spans vi.sbi.blksz 0 es) :
    zErofsWriteIndexes vi es = (fileSlots vi.sbi.blksz 0 es).map (Slot.index vi) := by
  have h := zErofsWriteIndexesFrom_eq vi hs
  rwa [Nat.zero_mod] at h

end ErofsUtils
