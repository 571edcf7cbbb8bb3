import ErofsUtils.DirBounds

/-!
# Where a lookup looks

`find_target_dirent` makes fewer checks than `traverse_dirents`, so a lookup reaches entries that
an iteration does not. Together with the iteration it stays within the bytes read exactly where
both find the entries that they reach inside these.
-/

namespace ErofsUtils
open ByteMemory CString

section Find

variable {name : FileName} {mem : Mem} {stop maxsize : ℕ}

/-- The places a search looked at lie inside, an entry found is one that was reached, and where
none is found all were. -/
structure FindInside (name : FileName) (mem : Mem) (stop maxsize : ℕ)
    (r : Except ℤ (Option ℕ) × List ℕ) : Prop where
  reads : ∀ p ∈ r.2, p < maxsize
  found : ∀ k, r.1 = .ok (some k) → Dirent.NameFits mem stop maxsize k ∧
    Dirent.NameReadable mem stop maxsize k ∧ Dirent.namelen mem stop maxsize k = name.length
  missing : r.1 = .ok none → AllPass stop (Dirent.NameFits mem stop maxsize)

theorem nameFits_of_not {k : ℕ}
    (h : ¬ (maxsize < (Dirent.nameoff mem k + Dirent.namelen mem stop maxsize k) % 2 ^ 32 ∨
      erofsNameLen < Dirent.namelen mem stop maxsize k)) : Dirent.NameFits mem stop maxsize k := by
  rw [not_or, Nat.not_lt, Nat.not_lt] at h
  exact h

theorem findTargetLoop_inside (hm : maxsize < 2 ^ 32)
    (hfit : ReachedFit stop (Dirent.NameFits mem stop maxsize)
      (Dirent.NameReadable mem stop maxsize)) {fuel k : ℕ} (hfuel : stop ≤ 12 * (k + fuel))
    (hbefore : ∀ j < k, Dirent.NameFits mem stop maxsize j) :
    FindInside name mem stop maxsize (findTargetLoop name mem stop maxsize fuel k) := by
  have hnone : ∀ k, stop ≤ 12 * k → (∀ j < k, Dirent.NameFits mem stop maxsize j) →
      FindInside name mem stop maxsize (.ok none, []) := by
    intro k hk hb
    constructor
    · intro p hp
      cases hp
    · intro i hi
      cases hi
    · intro _
      exact allPass_of_lt hk hb
  induction fuel generalizing k with
  | zero => exact hnone k (by omega) hbefore
  | succ fuel ih =>
      rw [findTargetLoop]
      by_cases hk : stop ≤ 12 * k
      · rw [if_pos hk]
        exact hnone k hk hbefore
      · rw [if_neg hk]
        have hread := hfit k (Nat.not_le.mp hk) hbefore
        have hreads : ∀ p ∈ Dirent.nameReads mem stop maxsize k, p < maxsize :=
          fun p hp => Dirent.nameReads_inside hread hm (List.mem_append_left _ hp)
        dsimp only
        split
        · constructor
          · exact hreads
          · intro i hi
            cases hi
          · intro hn
            cases hn
        next hlen =>
        have hfits := nameFits_of_not hlen
        have hcmp : ∀ p ∈ Dirent.nameReads mem stop maxsize k ++
            (if name.length = Dirent.namelen mem stop maxsize k then
              List.range' (Dirent.nameoff mem k) (Dirent.namelen mem stop maxsize k) else []),
            p < maxsize := by
          intro p hp
          rw [List.mem_append] at hp
          cases hp with
          | inl hp => exact hreads p hp
          | inr hp =>
              split at hp
              · rw [List.mem_range'_1] at hp
                have hin := hfits.inside
                omega
              · cases hp
        split
        · next hmatch =>
            constructor
            · exact hcmp
            · intro i hi
              cases hi
              exact ⟨hfits, hread, hmatch.1.symm⟩
            · intro hn
              cases hn
        · have hrest := ih (by omega) (forall_lt_succ hbefore hfits)
          constructor
          · intro p hp
            rw [List.mem_append] at hp
            exact hp.elim (hcmp p) (hrest.reads p)
          · exact hrest.found
          · exact hrest.missing

/-- A name longer than any entry's is compared with none of them, so all that a search can reach
is looked at. -/
theorem findTargetLoop_long (hname : erofsNameLen < name.length) {fuel k : ℕ}
    (hfuel : stop ≤ 12 * (k + fuel)) {r : Except ℤ (Option ℕ)} {reads : List ℕ}
    (h : findTargetLoop name mem stop maxsize fuel k = (r, reads)) :
    (∀ i, k ≤ i → 12 * i < stop → (∀ j, k ≤ j → j < i → Dirent.NameFits mem stop maxsize j) →
      ∀ p ∈ Dirent.nameReads mem stop maxsize i, p ∈ reads) ∧
    ((∀ i, k ≤ i → 12 * i < stop → Dirent.NameFits mem stop maxsize i) → r = .ok none) := by
  induction fuel generalizing k r reads with
  | zero =>
      rw [findTargetLoop, Prod.mk.injEq] at h
      exact ⟨fun i hi hs => by omega, fun _ => h.1.symm⟩
  | succ fuel ih =>
      rw [findTargetLoop] at h
      by_cases hk : stop ≤ 12 * k
      · rw [if_pos hk, Prod.mk.injEq] at h
        exact ⟨fun i hi hs => by omega, fun _ => h.1.symm⟩
      rw [if_neg hk] at h
      rw [Nat.not_le] at hk
      dsimp only at h
      split at h
      · next hlen =>
          rw [Prod.mk.injEq] at h
          have hnot : ¬ Dirent.NameFits mem stop maxsize k := by
            rintro ⟨h1, h2⟩
            omega
          constructor
          · intro i hi hs hb
            rcases Nat.eq_or_lt_of_le hi with rfl | hgt
            · intro p hp
              rw [← h.2]
              exact hp
            · exact absurd (hb k (le_refl _) hgt) hnot
          · intro hall
            exact absurd (hall k (le_refl _) hk) hnot
      · next hlen =>
          have hfits := nameFits_of_not hlen
          have hle := hfits.2
          have hne : name.length ≠ Dirent.namelen mem stop maxsize k := by omega
          rw [if_neg (fun hc => hne hc.1), if_neg hne, List.append_nil] at h
          cases hrest : findTargetLoop name mem stop maxsize fuel (k + 1) with
          | mk r' rest =>
              rw [hrest, Prod.mk.injEq] at h
              obtain ⟨hreach, hdone⟩ := ih (by omega) hrest
              rw [← h.1, ← h.2]
              constructor
              · intro i hi hs hb p hp
                rw [List.mem_append]
                rcases Nat.eq_or_lt_of_le hi with rfl | hgt
                · exact Or.inl hp
                · exact Or.inr (hreach i hgt hs (fun j hj => hb j (by omega)) p hp)
              · intro hall
                exact hdone (fun i hi => hall i (by omega))

end Find

section Lookup

variable {sbi : DirSb} {dir : DirInode} {name : FileName} {buf : Mem}

theorem nameiLook_inspected (r : NameiEnd) (m : ℕ) (ps : List ℕ) :
    (r.look m ps).inspected = ps.map (·, m) ++ r.inspected := rfl

theorem nameiLook_inBlock {r : NameiEnd} {m : ℕ} {ps : List ℕ} (hp : ∀ p ∈ ps, p < m)
    (hr : InBlock r.inspected) : InBlock (r.look m ps).inspected := by
  rw [nameiLook_inspected, inBlock_append, inBlock_map]
  exact ⟨hp, hr⟩

theorem inBlock_nil : InBlock [] := fun _ hp => absurd hp List.not_mem_nil

def MatchInside (m : Option (ℕ × ℕ × ℕ)) : Prop :=
  ∀ e, m = some e → 1 ≤ e.2.2 ∧ e.2.2 ≤ erofsNameLen ∧ e.2.1 + e.2.2 ≤ e.1

theorem nameiLoop_inside (hname : 0 < name.length)
    (h : WalkInside sbi dir buf Dirent.NameFits Dirent.NameReadable) (fuel : ℕ) {i : ℕ}
    (hbefore : ∀ j < i, BlockPasses sbi dir buf Dirent.NameFits j) :
    InBlock (nameiLoop sbi dir name fuel (i * sbi.blksz) (dirBufAt sbi dir buf i)).inspected ∧
      MatchInside (nameiLoop sbi dir name fuel (i * sbi.blksz) (dirBufAt sbi dir buf i)).matched := by
  have hnone : MatchInside none := fun e he => by cases he
  induction fuel generalizing i with
  | zero => exact ⟨inBlock_nil, hnone⟩
  | succ fuel ih =>
      by_cases hi : dir.iSize ≤ i * sbi.blksz
      · rw [nameiLoop_past hi]
        exact ⟨inBlock_nil, hnone⟩
      rw [Nat.not_le] at hi
      cases hread : dir.pread (dirBlockSize sbi dir i) (i * sbi.blksz) with
      | error e =>
          rw [nameiLoop_error hi hread]
          exact ⟨inBlock_nil, hnone⟩
      | ok bytes =>
          have hr : DirReadable sbi dir i := ⟨bytes, hread⟩
          obtain ⟨h10, hfit⟩ := h i hi hbefore hr
          have hfirst : ∀ p ∈ List.range' 8 2, p < dirBlockSize sbi dir i := by
            intro p hp
            rw [List.mem_range'_1] at hp
            omega
          by_cases hs : DirStopOk sbi dir buf i
          · rw [nameiLoop_block hi hr hs]
            have hfind : FindInside name (dirBlock sbi dir buf i) (dirStop sbi dir buf i)
                (dirBlockSize sbi dir i) (findTargetDirent name (dirBlock sbi dir buf i)
                  (dirStop sbi dir buf i) (dirBlockSize sbi dir i)) :=
              findTargetLoop_inside (dirBlockSize_lt i) (hfit hs) (by omega)
                (fun j hj => absurd hj (Nat.not_lt_zero j))
            have hplaces : ∀ p ∈ List.range' 8 2 ++ (findTargetDirent name
                (dirBlock sbi dir buf i) (dirStop sbi dir buf i) (dirBlockSize sbi dir i)).2,
                p < dirBlockSize sbi dir i := by
              intro p hp
              rw [List.mem_append] at hp
              exact hp.elim (hfirst p) (hfind.reads p)
            split
            · next e reads hf =>
                rw [hf] at hplaces
                exact ⟨nameiLook_inBlock hplaces inBlock_nil, hnone⟩
            · next k reads hf =>
                rw [hf] at hplaces hfind
                obtain ⟨hfits, hreadable, hlen⟩ := hfind.found k rfl
                constructor
                · apply nameiLook_inBlock _ inBlock_nil
                  intro p hp
                  rw [List.mem_append] at hp
                  cases hp with
                  | inl hp => exact hplaces p hp
                  | inr hp =>
                      apply Dirent.nameReads_inside hreadable (dirBlockSize_lt i)
                      exact List.mem_append_right _ hp
                · intro e he
                  cases he
                  have hin := hfits.inside
                  have hle := hfits.2
                  dsimp only
                  omega
            · next reads hf =>
                rw [hf] at hplaces hfind
                have hrest := ih (forall_lt_succ hbefore ⟨hr, hs, hfind.missing rfl⟩)
                exact ⟨nameiLook_inBlock hplaces hrest.1, hrest.2⟩
          · rw [nameiLoop_stop hi hr hs]
            exact ⟨nameiLook_inBlock hfirst inBlock_nil, hnone⟩

theorem looksUpInside_of_walkInside
    (h : WalkInside sbi dir buf Dirent.NameFits Dirent.NameReadable) :
    LooksUpInside sbi dir buf := by
  intro name hname
  have hin := nameiLoop_inside hname h dir.iSize
    (fun j hj => absurd hj (Nat.not_lt_zero j))
  rw [Nat.zero_mul] at hin
  exact hin

def LookupRecorded (sbi : DirSb) (dir : DirInode) (buf : Mem) (i : ℕ) (places : List (ℕ × ℕ)) :
    Prop :=
  (∀ p ∈ List.range' 8 2, (p, dirBlockSize sbi dir i) ∈ places) ∧
    (DirStopOk sbi dir buf i →
      ReachedFit (dirStop sbi dir buf i) (atBlock sbi dir buf Dirent.NameFits i)
        (fun k => ∀ p ∈ Dirent.nameReads (dirBlock sbi dir buf i) (dirStop sbi dir buf i)
          (dirBlockSize sbi dir i) k, (p, dirBlockSize sbi dir i) ∈ places))

theorem LookupRecorded.mono {i : ℕ} {as bs : List (ℕ × ℕ)} (h : LookupRecorded sbi dir buf i as)
    (hs : as ⊆ bs) : LookupRecorded sbi dir buf i bs :=
  ⟨fun p hp => hs (h.1 p hp), fun hok k hk hb p hp => hs (h.2 hok k hk hb p hp)⟩

theorem nameiLoop_long (hname : erofsNameLen < name.length) {fuel i : ℕ}
    (hfuel : dir.iSize ≤ (i + fuel) * sbi.blksz) {j : ℕ} (hij : i ≤ j)
    (hj : j * sbi.blksz < dir.iSize)
    (hpass : ∀ l, i ≤ l → l < j → BlockPasses sbi dir buf Dirent.NameFits l)
    (hrj : DirReadable sbi dir j) :
    LookupRecorded sbi dir buf j
      (nameiLoop sbi dir name fuel (i * sbi.blksz) (dirBufAt sbi dir buf i)).inspected := by
  induction fuel generalizing i with
  | zero =>
      have hle : i * sbi.blksz ≤ j * sbi.blksz := Nat.mul_le_mul_right _ hij
      rw [Nat.add_zero] at hfuel
      omega
  | succ fuel ih =>
      have hi : i * sbi.blksz < dir.iSize :=
        Nat.lt_of_le_of_lt (Nat.mul_le_mul_right _ hij) hj
      rcases Nat.eq_or_lt_of_le hij with rfl | hlt
      · by_cases hs : DirStopOk sbi dir buf i
        · rw [nameiLoop_block hi hrj hs]
          cases hf : findTargetDirent name (dirBlock sbi dir buf i) (dirStop sbi dir buf i)
              (dirBlockSize sbi dir i) with
          | mk r reads =>
              have hreach := (findTargetLoop_long hname (by omega) hf).1
              have hat : ∀ (rest : NameiEnd) (ps : List ℕ), List.range' 8 2 ++ reads ⊆ ps →
                  LookupRecorded sbi dir buf i
                    (rest.look (dirBlockSize sbi dir i) ps).inspected := by
                intro rest ps hps
                have hmem : ∀ p ∈ List.range' 8 2 ++ reads, (p, dirBlockSize sbi dir i) ∈
                    (rest.look (dirBlockSize sbi dir i) ps).inspected := by
                  intro p hp
                  exact List.mem_append_left _ (List.mem_map_of_mem (hps hp))
                constructor
                · intro p hp
                  exact hmem p (List.mem_append_left _ hp)
                · intro _ k hk hb p hp
                  apply hmem
                  apply List.mem_append_right
                  exact hreach k (Nat.zero_le _) hk (fun l _ hl => hb l hl) p hp
              split
              · next hr =>
                  cases hr
                  exact hat _ _ (List.Subset.refl _)
              · next hr =>
                  cases hr
                  exact hat _ _ (List.subset_append_left _ _)
              · next hr =>
                  cases hr
                  exact hat _ _ (List.Subset.refl _)
        · rw [nameiLoop_stop hi hrj hs]
          constructor
          · intro p hp
            exact List.mem_append_left _ (List.mem_map_of_mem hp)
          · intro hok
            exact absurd hok hs
      · obtain ⟨hr, hs, hall⟩ := hpass i (le_refl _) hlt
        rw [nameiLoop_block hi hr hs]
        cases hf : findTargetDirent name (dirBlock sbi dir buf i) (dirStop sbi dir buf i)
            (dirBlockSize sbi dir i) with
        | mk r reads =>
            have hdone := (findTargetLoop_long hname (by omega) hf).2 (fun l _ hl => hall l hl)
            subst hdone
            have hfuel' : dir.iSize ≤ (i + 1 + fuel) * sbi.blksz := by
              rwa [Nat.add_assoc, Nat.add_comm 1]
            have hrest := ih hfuel' hlt (fun l hl hlj => hpass l (by omega) hlj)
            apply hrest.mono
            intro q hq
            exact List.mem_append_right _ hq

theorem walkInside_of_looksUpInside (h : LooksUpInside sbi dir buf) :
    WalkInside sbi dir buf Dirent.NameFits Dirent.NameReadable := by
  obtain ⟨name, hlen⟩ : ∃ name : FileName, name.length = 256 :=
    ⟨List.replicate 256 0, List.length_replicate⟩
  have hlong : erofsNameLen < name.length := by
    rw [hlen, erofsNameLen]
    omega
  have hpos := sbi.blksz_pos
  have hin := (h name (by omega)).1
  intro i hi hpass hr
  have hrec : LookupRecorded sbi dir buf i (nameiLoop sbi dir name dir.iSize 0 buf).inspected := by
    have hfuel : dir.iSize ≤ (0 + dir.iSize) * sbi.blksz := by
      rw [Nat.zero_add]
      exact Nat.le_mul_of_pos_right _ hpos
    have hloop : LookupRecorded sbi dir buf i (nameiLoop sbi dir name dir.iSize (0 * sbi.blksz)
        (dirBufAt sbi dir buf 0)).inspected :=
      nameiLoop_long hlong hfuel (Nat.zero_le i) hi (fun l _ hl => hpass l hl) hr
    rwa [Nat.zero_mul] at hloop
  constructor
  · have h9 := hin _ (hrec.1 9 (by rw [List.mem_range'_1]; omega))
    exact h9
  · intro hs k hk hbefore
    apply Dirent.nameReadable_of_reads
    intro p hp
    exact hin _ (hrec.2 hs k hk hbefore p hp)

end Lookup

/-- Directory parsing stays within the bytes read for each block, and hands out names of valid
length in these, exactly on directories where an iteration and a lookup each reach only entries
that have been read: a first offset that counts more dirents than the last block has bytes for,
and a last name that starts behind its end, are looked at before they are refused. -/
theorem dirParsing_inside_iff (sbi : DirSb) (dir : DirInode) (buf : Mem) :
    (IteratesInside sbi dir buf ∧ LooksUpInside sbi dir buf) ↔
      (dir.isDir = true → WalkInside sbi dir buf Dirent.InPlace Dirent.EntryReadable) ∧
        WalkInside sbi dir buf Dirent.NameFits Dirent.NameReadable := by
  constructor
  · rintro ⟨hi, hl⟩
    exact ⟨fun hdir => walkInside_of_iteratesInside hdir hi, walkInside_of_looksUpInside hl⟩
  · rintro ⟨hi, hl⟩
    refine ⟨?_, looksUpInside_of_walkInside hl⟩
    by_cases hdir : dir.isDir = true
    · exact iteratesInside_of_walkInside (hi hdir)
    · intro σ fsck cb marks st r w hrun
      rw [erofsIterateDir, if_pos hdir, Option.some.injEq, Prod.mk.injEq] at hrun
      rw [← hrun.2]
      exact ⟨inBlock_nil, fun e he => by cases he⟩

/-- A directory of eleven bytes whose only dirent has its name at the offset twelve. -/
def shortDir : DirInode where
  nid := 36
  isDir := true
  iSize := 11
  pread := fun _ _ => .ok (fun i => if i = 8 then 12 else 0)
  pread_neg := fun h => by cases h

def blockSb : DirSb := ⟨12, 36, by decide⟩

theorem shortDir_outside :
    ¬ (IteratesInside blockSb shortDir (fun _ => 0) ∧
      LooksUpInside blockSb shortDir (fun _ => 0)) := by
  rintro ⟨hi, -⟩
  have hwalk := walkInside_of_iteratesInside rfl hi
  have hr : DirReadable blockSb shortDir 0 := ⟨_, rfl⟩
  have hfit := (hwalk 0 (by decide) (fun j hj => absurd hj (Nat.not_lt_zero j)) hr).2
  have hstop : DirStopOk blockSb shortDir (fun _ => 0) 0 := by
    constructor <;> decide
  have hent := hfit hstop 0 (by decide) (fun j hj => absurd hj (Nat.not_lt_zero j))
  have hname : 12 ≤ 11 := hent.1.2
  omega

end ErofsUtils
