import ErofsUtils.BucketIndex
import ErofsUtils.BufMgrPlace

/-!
# The buckets of mapped blocks

`mapped_buckets` of the buffer manager as the code has it, one list for each block type and number
of bytes in use, with the functions that look into it or change it. Each call does to the manager
what it does without the buckets written out, and afterwards a block is in the bucket of its type
and fill level when it is mapped, and in none when it is not.
-/

namespace ErofsUtils

open BucketIndex

/-- A bucket number: `bb->type` and the bytes in use in the last image block. -/
abbrev BucketKey := BlockType × ℕ

/-- The buffer manager with its `mapped_buckets`. -/
structure IndexedMgr where
  mgr : BufMgr
  mappedBuckets : BucketKey → List ℕ

namespace IndexedMgr

/-- `erofs_buffer_init`. -/
def init (sb : BlockSize) (startblk metablkcnt : ℕ) : IndexedMgr :=
  ⟨erofsBufferInit sb startblk metablkcnt, fun _ => []⟩

/-- The bucket that `erofs_bupdate_mapped` moves a block to. -/
def bucketOf (sb : BlockSize) (bb : BufferBlock) : BucketKey := (bb.type, bb.off % sb.size)

def erofsBupdateMapped (s : IndexedMgr) (bb : BufferBlock) : BucketKey → List ℕ :=
  if bb.blkaddr = nullAddr then s.mappedBuckets
  else listAddTail (listDel s.mappedBuckets bb.id) (bucketOf s.mgr.sb bb) bb.id

/-- `__erofs_battach` without `dryrun`. -/
def attach (s : IndexedMgr) (id : ℕ) (bh : Option ℕ) (incr alignsize extrasize : ℕ) :
    Option (IndexedMgr × ℕ) :=
  match splitAtBlock id s.mgr.blocks with
  | none => none
  | some (_, bb, _) =>
    match s.mgr.attach id bh incr alignsize extrasize with
    | none => none
    | some (mgr, ret) =>
      some (⟨mgr, s.erofsBupdateMapped (battachBlock bb incr alignsize bh)⟩, ret)

def erofsBhBalloon (s : IndexedMgr) (bid hid incr : ℕ) : IndexedMgr × Except ℤ ℕ :=
  if s.mgr.isTail bid hid then
    match s.attach bid none incr 1 0 with
    | none => (s, .error (-22))
    | some (s', ret) => (s', .ok ret)
  else (s, .error (-22))

section Find

variable (s : IndexedMgr) (type : BlockType) (size requiredExt inlineExt alignsize : ℕ)

/-- `list_first_entry` of `mapped_buckets[type][used_before]`, `none` when that is empty. -/
def firstMapped (usedBefore : ℕ) : Option (List BufferBlock × BufferBlock × List BufferBlock) :=
  match s.mappedBuckets (type, usedBefore) with
  | [] => none
  | id :: _ => splitAtBlock id s.mgr.blocks

/-- What `__erofs_battach` says of this block in a dry run. -/
def dryrun (cur : BufferBlock) (q : List BufferBlock) : Option Bool :=
  battachCheck s.mgr.sb s.mgr.tailBlkaddr (nextAddr q) cur size alignsize
    (u32 (requiredExt + inlineExt))

def usedAfter (cur : BufferBlock) : ℕ :=
  u32 (battachRet s.mgr.sb cur size alignsize + requiredExt + inlineExt)

/-- The search for a most-fit mapped block, from `used_before` down. -/
def findMapped : ℕ → Option (ℕ × ℕ)
  | 0 => none
  | n + 1 =>
    match s.firstMapped type (n + 1) with
    | none => findMapped n
    | some (_, cur, q) =>
      -- the last mapped block can be expended, don't handle it here
      if nextAddr q = nullAddr then findMapped n
      else
        match s.dryrun size requiredExt inlineExt alignsize cur q with
        | none => findMapped n
        | some _ => some (cur.id, s.usedAfter size requiredExt inlineExt alignsize cur)

structure ScanOk (usedBefore : ℕ) (cur : BufferBlock) (q : List BufferBlock) : Prop where
  type : cur.type = type
  mapped : cur.blkaddr ≠ nullAddr
  offset : usedBefore = cur.off % s.mgr.sb.size
  last : nextAddr q = nullAddr → s.mgr.lastMapped = some cur.id
  accepted : ∃ up, s.dryrun size requiredExt inlineExt alignsize cur q = some up
  used : s.usedAfter size requiredExt inlineExt alignsize cur ≤ s.mgr.sb.size

/-- No `DBG_BUGON` of the search is hit, from `used_before` down. -/
def NoBug : ℕ → Prop
  | 0 => True
  | n + 1 =>
    match s.firstMapped type (n + 1) with
    | none => NoBug n
    | some (_, cur, q) =>
      s.ScanOk type size requiredExt inlineExt alignsize (n + 1) cur q ∧
        (nextAddr q = nullAddr → NoBug n)

def total : ℕ := u64 (size + requiredExt + inlineExt)

/-- The bucket that the search starts at, 0 when it is skipped. -/
def usedBefore : ℕ :=
  let blksiz := s.mgr.sb.size
  let total := total size requiredExt inlineExt
  if blksiz ≤ total then 0 else blksiz - total - (blksiz - total) % alignsize

def erofsBfindForAttach : Except ℤ (Option ℕ) :=
  let blksiz := s.mgr.sb.size
  let used0 := u32 (u64 (size + requiredExt) % blksiz + inlineExt)
  -- inline data should be in the same fs block
  if blksiz < used0 then .error (-28)
  else if used0 = 0 ∨ alignsize = blksiz then .ok none
  else
    let start :=
      match s.findMapped type size requiredExt inlineExt alignsize
          (s.usedBefore size requiredExt inlineExt alignsize) with
      | none => (none, 0)
      | some (id, used) => (some id, used)
    .ok (s.mgr.findExpandable type size requiredExt inlineExt alignsize used0
      s.mgr.fromLastMapped start).1

end Find

def ballocIn (s : IndexedMgr) (id size alignsize extrasize : ℕ) :
    IndexedMgr × Except ℤ (ℕ × ℕ) :=
  match s.attach id (some s.mgr.fresh) size alignsize extrasize with
  | none => (s, .error (-22))
  | some (s', _) =>
    (⟨{ s'.mgr with fresh := s.mgr.fresh + 1 }, s'.mappedBuckets⟩, .ok (id, s.mgr.fresh))

def newBlock (s : IndexedMgr) (type : BlockType) : IndexedMgr :=
  ⟨s.mgr.newBlock type, s.mappedBuckets⟩

def erofsBalloc (s : IndexedMgr) (type : BufType) (size requiredExt inlineExt : ℕ) :
    IndexedMgr × Except ℤ (ℕ × ℕ) :=
  match getAlignsize s.mgr.sb type with
  | none => (s, .error (-22))
  | some (alignsize, btype) =>
    match s.erofsBfindForAttach btype size requiredExt inlineExt alignsize with
    | .error e => (s, .error e)
    | .ok (some id) => s.ballocIn id size alignsize (u32 (requiredExt + inlineExt))
    | .ok none =>
      (s.newBlock btype).ballocIn s.mgr.fresh size alignsize (u32 (requiredExt + inlineExt))

def erofsBattach (s : IndexedMgr) (bid hid : ℕ) (type : BufType) (size : ℕ) :
    IndexedMgr × Except ℤ (ℕ × ℕ) :=
  match getAlignsize s.mgr.sb type with
  | none => (s, .error (-22))
  | some (alignsize, _) =>
    if s.mgr.isTail bid hid then s.ballocIn bid size alignsize 0 else (s, .error (-22))

/-- `__erofs_mapbh` on the block between `p` and `q`. -/
def mapBlock (s : IndexedMgr) (p : List BufferBlock) (bb : BufferBlock) (q : List BufferBlock) :
    IndexedMgr where
  mgr := s.mgr.mapBlock p bb q
  mappedBuckets :=
    if bb.blkaddr = nullAddr then s.erofsBupdateMapped (s.mgr.mapped bb) else s.mappedBuckets

def mapbhLoop (bb : Option ℕ) (s : IndexedMgr) (p : List BufferBlock) :
    List BufferBlock → IndexedMgr
  | [] => s
  | t :: q =>
    if bb = some t.id then s.mapBlock p t q
    else mapbhLoop bb (s.mapBlock p t q) (p ++ [s.mgr.mapped t]) q

def erofsMapbh (s : IndexedMgr) (bb : Option ℕ) : IndexedMgr :=
  if s.mgr.isMapped bb then s
  else mapbhLoop bb s s.mgr.splitLastMapped.1 s.mgr.splitLastMapped.2

def bfree (s : IndexedMgr) (p : List BufferBlock) (bb : BufferBlock) (q : List BufferBlock) :
    IndexedMgr :=
  ⟨s.mgr.bfree p bb q, listDel s.mappedBuckets bb.id⟩

/-- The loop of `erofs_bflush`; `p` is what earlier rounds left in the list. -/
def bflushLoop (flush : ℕ → BhFlush) (bb : Option ℕ) (s : IndexedMgr) (p : List BufferBlock) :
    List BufferBlock → IndexedMgr × Option ℤ
  | [] => (s, none)
  | t :: q =>
    if bb = some t.id then (s, none)
    else
      let r := flushHeads flush t.buffers
      let s₁ := s.mapBlock p t q
      let t' := { s.mgr.mapped t with buffers := r.1 }
      let s₂ : IndexedMgr := ⟨{ s₁.mgr with blocks := p ++ t' :: q }, s₁.mappedBuckets⟩
      match r.2.2 with
      | some ret => (s₂, some ret)
      | none =>
        if r.2.1 then bflushLoop flush bb s₂ (p ++ [t']) q
        else
          let s₃ := s₁.bfree p t' q
          bflushLoop flush bb
            ⟨{ s₃.mgr with metablkcnt := u32 (s.mgr.metablkcnt + s.mgr.metaBlocks t) },
              s₃.mappedBuckets⟩ p q

def erofsBflush (s : IndexedMgr) (flush : ℕ → BhFlush) (bb : Option ℕ) :
    IndexedMgr × Option ℤ :=
  bflushLoop flush bb s [] s.mgr.blocks

def erofsBdrop (s : IndexedMgr) (bid hid : ℕ) (tryrevoke : Bool) : IndexedMgr :=
  match splitAtBlock bid s.mgr.blocks with
  | none => s
  | some (p, bb, q) =>
    let rollback := tryrevoke = true ∧ bb.blkaddr ≠ nullAddr ∧
      s.mgr.tailBlkaddr = bb.blkaddr + s.mgr.sb.blkRoundUp bb.off
    let bb' := { bb with buffers := bb.buffers.filter fun h => h.id ≠ hid }
    let s' := s.bfree p bb q
    if bb'.buffers ≠ [] then ⟨{ s.mgr with blocks := p ++ bb' :: q }, s.mappedBuckets⟩
    else if rollback then ⟨{ s'.mgr with tailBlkaddr := bb.blkaddr }, s'.mappedBuckets⟩
    else
      ⟨{ s'.mgr with metablkcnt := u32 (s.mgr.metablkcnt + s.mgr.metaBlocks bb) },
        s'.mappedBuckets⟩

/-- The state after one call, whether it succeeds or is rejected. -/
def step (s : IndexedMgr) : BufOp → IndexedMgr
  | .balloc type size requiredExt inlineExt =>
    (s.erofsBalloc type size requiredExt inlineExt).1
  | .battach bid hid type size => (s.erofsBattach bid hid type size).1
  | .balloon bid hid incr => (s.erofsBhBalloon bid hid incr).1
  | .mapbh bb => s.erofsMapbh bb
  | .bflush flush bb => (s.erofsBflush flush bb).1
  | .bdrop bid hid tryrevoke => s.erofsBdrop bid hid tryrevoke

/-- The states that calls meeting `ok` lead to, from a new buffer manager on. -/
inductive Reach (ok : BufMgr → BufOp → Prop) : IndexedMgr → Prop
  | init (sb : BlockSize) (startblk metablkcnt : ℕ) : Reach ok (init sb startblk metablkcnt)
  | step {s : IndexedMgr} (op : BufOp) (hs : Reach ok s) (hop : ok s.mgr op) :
    Reach ok (s.step op)

def blockOf (blocks : List BufferBlock) (id : ℕ) : Option BufferBlock :=
  (splitAtBlock id blocks).map fun r => r.2.1

/-- The bucket that the block with this identifier belongs to, when it is mapped. -/
def keyOf (s : IndexedMgr) (id : ℕ) : Option BucketKey :=
  (blockOf s.mgr.blocks id).map (bucketOf s.mgr.sb)

structure Indexed (s : IndexedMgr) : Prop where
  named : s.mgr.Named
  tracks : Tracks s.mappedBuckets s.mgr.mappedList s.keyOf
  mapped : ∀ id, id ∈ s.mgr.mappedList ↔ id ∈ mappedIds s.mgr.blocks

section BlockOf

variable {p q : List BufferBlock} {b b' : BufferBlock} {id : ℕ}

theorem blockOf_cons (b : BufferBlock) (l : List BufferBlock) (id : ℕ) :
    blockOf (b :: l) id = if b.id = id then some b else blockOf l id := by
  rw [blockOf, splitAtBlock]
  split
  · rfl
  · rw [Option.map_map]
    rfl

theorem blockOf_append (p q : List BufferBlock) (id : ℕ) :
    blockOf (p ++ q) id = (blockOf p id).or (blockOf q id) := by
  induction p with
  | nil => exact (Option.none_or).symm
  | cons b p ih =>
      rw [List.cons_append, blockOf_cons, blockOf_cons, ih]
      split <;> rfl

theorem blockOf_eq_none (h : id ∉ p.map BufferBlock.id) : blockOf p id = none := by
  induction p with
  | nil => rfl
  | cons b p ih =>
      rw [List.map_cons, List.mem_cons, not_or] at h
      rw [blockOf_cons, if_neg (Ne.symm h.1), ih h.2]

theorem blockOf_other (hid : b'.id = b.id) (hne : id ≠ b.id) :
    blockOf (p ++ b' :: q) id = blockOf (p ++ b :: q) id := by
  rw [blockOf_append, blockOf_append, blockOf_cons, blockOf_cons, if_neg (hid ▸ hne.symm),
    if_neg hne.symm]

theorem blockOf_without (hne : id ≠ b.id) : blockOf (p ++ q) id = blockOf (p ++ b :: q) id := by
  rw [blockOf_append, blockOf_append, blockOf_cons, if_neg hne.symm]

theorem blockOf_mid (hp : b.id ∉ p.map BufferBlock.id) : blockOf (p ++ b :: q) b.id = some b := by
  rw [blockOf_append, blockOf_eq_none hp, blockOf_cons, if_pos rfl]
  rfl

theorem mem_mappedIds_mid : id ∈ mappedIds (p ++ b :: q) ↔
    (b.IsMapped ∧ id = b.id) ∨ id ∈ mappedIds (p ++ q) := by
  rw [mappedIds_append, mappedIds_append]
  by_cases hb : b.IsMapped
  · rw [mappedIds_cons_of_mapped hb]
    simp only [List.mem_append, List.mem_cons, hb, true_and]
    tauto
  · rw [mappedIds_cons_of_not hb]
    simp only [hb, false_and, false_or]

end BlockOf

section Indexed

variable {s s' : IndexedMgr} {p q : List BufferBlock} {b b' : BufferBlock}

theorem Indexed.notMem_left (h : s.Indexed) (hs : s.mgr.blocks = p ++ b :: q) :
    b.id ∉ p.map BufferBlock.id := by
  have hnodup := h.named.nodup
  rw [hs, List.map_append, List.map_cons, List.nodup_append] at hnodup
  exact fun hin => hnodup.2.2 _ hin _ List.mem_cons_self rfl

theorem Indexed.notMem_ids (h : s.Indexed) (hs : s.mgr.blocks = p ++ b :: q) :
    b.id ∉ mappedIds (p ++ q) := by
  intro hin
  obtain ⟨c, hc, -, hid⟩ := mem_of_mem_mappedIds hin
  have hnodup := h.named.nodup
  rw [hs, (List.perm_middle.map BufferBlock.id).nodup_iff, List.map_cons, List.nodup_cons] at hnodup
  exact hnodup.1 (hid ▸ List.mem_map_of_mem hc)

theorem Indexed.mem_mappedList (h : s.Indexed) (hs : s.mgr.blocks = p ++ b :: q) (id : ℕ) :
    id ∈ s.mgr.mappedList ↔ (b.IsMapped ∧ id = b.id) ∨ id ∈ mappedIds (p ++ q) := by
  rw [h.mapped id, hs, mem_mappedIds_mid]

theorem Indexed.update (h : s.Indexed) (hs : s.mgr.blocks = p ++ b :: q)
    (hs' : s'.mgr.blocks = p ++ b' :: q) (hsb : s'.mgr.sb = s.mgr.sb) (hid : b'.id = b.id)
    (hmap : b.IsMapped → b'.IsMapped) (hlist : s'.mgr.mappedList = s.mgr.bupdateMapped b')
    (hbuckets : s'.mappedBuckets = s.erofsBupdateMapped b') (hnamed : s'.mgr.Named) :
    s'.Indexed := by
  have hkey : ∀ id, id ≠ b.id → s'.keyOf id = s.keyOf id := by
    intro id hne
    rw [keyOf, keyOf, hs, hs', hsb, blockOf_other hid hne]
  by_cases hm : b'.IsMapped
  · rw [BufMgr.bupdateMapped, if_neg hm, hid] at hlist
    rw [erofsBupdateMapped, if_neg hm, hid] at hbuckets
    have hown : s'.keyOf b.id = some (bucketOf s.mgr.sb b') := by
      have hp : b'.id ∉ p.map BufferBlock.id := hid ▸ h.notMem_left hs
      rw [keyOf, hs', hsb, ← hid, blockOf_mid hp]
      rfl
    refine ⟨hnamed, ?_, fun id => ?_⟩
    · rw [hlist, hbuckets]
      exact h.tracks.move hkey hown
    · rw [hlist, hs', mem_mappedIds_mid, List.mem_append, List.mem_singleton,
        h.tracks.nodup.mem_erase_iff, h.mem_mappedList hs id, hid]
      have hnot := h.notMem_ids hs
      constructor
      · rintro (⟨hne, hin⟩ | heq)
        · exact Or.inr (hin.resolve_left fun hb => hne hb.2)
        · exact Or.inl ⟨hm, heq⟩
      · rintro (⟨-, heq⟩ | hin)
        · exact Or.inr heq
        · exact Or.inl ⟨fun heq => hnot (heq ▸ hin), Or.inr hin⟩
  · have hnull : b'.blkaddr = nullAddr := not_not.mp hm
    rw [BufMgr.bupdateMapped, if_pos hnull] at hlist
    rw [erofsBupdateMapped, if_pos hnull] at hbuckets
    have hb : ¬ b.IsMapped := fun hb => hm (hmap hb)
    have hids : ∀ id, id ∈ s.mgr.mappedList ↔ id ∈ mappedIds (p ++ q) := by
      intro id
      rw [h.mem_mappedList hs id]
      simp only [hb, false_and, false_or]
    refine ⟨hnamed, ?_, fun id => ?_⟩
    · rw [hlist, hbuckets]
      apply h.tracks.congr
      intro id hin
      apply hkey id
      rintro rfl
      exact h.notMem_ids hs ((hids _).mp hin)
    · rw [hlist, hids id, hs', mem_mappedIds_mid]
      simp only [hm, false_and, false_or]

theorem Indexed.heads (h : s.Indexed) (hs : s.mgr.blocks = p ++ b :: q)
    (hs' : s'.mgr.blocks = p ++ b' :: q) (hsb : s'.mgr.sb = s.mgr.sb) (hid : b'.id = b.id)
    (hmap : b'.IsMapped ↔ b.IsMapped) (hkey : bucketOf s.mgr.sb b' = bucketOf s.mgr.sb b)
    (hlist : s'.mgr.mappedList = s.mgr.mappedList) (hbuckets : s'.mappedBuckets = s.mappedBuckets)
    (hnamed : s'.mgr.Named) : s'.Indexed := by
  refine ⟨hnamed, ?_, fun id => ?_⟩
  · rw [hlist, hbuckets]
    apply h.tracks.congr
    intro id _
    rw [keyOf, keyOf, hs, hs', hsb]
    by_cases hne : id = b.id
    · have hp := h.notMem_left hs
      have hp' : b'.id ∉ p.map BufferBlock.id := hid ▸ hp
      rw [hne, blockOf_mid hp, ← hid, blockOf_mid hp', Option.map_some, Option.map_some, hkey]
    · rw [blockOf_other hid hne]
  · rw [hlist, h.mem_mappedList hs id, hs', mem_mappedIds_mid, hmap, hid]

theorem Indexed.remove (h : s.Indexed) (hs : s.mgr.blocks = p ++ b :: q)
    (hs' : s'.mgr.blocks = p ++ q) (hsb : s'.mgr.sb = s.mgr.sb)
    (hlist : s'.mgr.mappedList = s.mgr.mappedList.erase b.id)
    (hbuckets : s'.mappedBuckets = listDel s.mappedBuckets b.id) (hnamed : s'.mgr.Named) :
    s'.Indexed := by
  have hnot := h.notMem_ids hs
  refine ⟨hnamed, ?_, fun id => ?_⟩
  · rw [hlist, hbuckets]
    apply (h.tracks.listDel b.id).congr
    intro id hin
    have hne : id ≠ b.id := (h.tracks.nodup.mem_erase_iff.mp hin).1
    rw [keyOf, keyOf, hs, hs', hsb, blockOf_without hne]
  · rw [hlist, h.tracks.nodup.mem_erase_iff, h.mem_mappedList hs id, hs']
    constructor
    · rintro ⟨hne, hin⟩
      exact hin.resolve_left fun hb => hne hb.2
    · exact fun hin => ⟨fun heq => hnot (heq ▸ hin), Or.inr hin⟩

theorem Indexed.newBlock (h : s.Indexed) (type : BlockType) : (s.newBlock type).Indexed := by
  obtain ⟨p, hs, hs'⟩ := s.mgr.newBlock_blocks type
  refine ⟨h.named.newBlock type, ?_, fun id => ?_⟩
  · apply h.tracks.congr
    intro id hin
    obtain ⟨c, hc, -, hid⟩ := mem_of_mem_mappedIds ((h.mapped id).mp hin)
    have hlt := h.named.fresh c.id (List.mem_map_of_mem hc)
    have hne : id ≠ s.mgr.fresh := by omega
    change (blockOf (s.mgr.newBlock type).blocks id).map (bucketOf s.mgr.sb) = s.keyOf id
    rw [keyOf, hs', hs]
    exact congrArg _ (blockOf_without hne).symm
  · change id ∈ s.mgr.mappedList ↔ id ∈ mappedIds (s.mgr.newBlock type).blocks
    rw [h.mapped id, hs, hs', mem_mappedIds_mid]
    simp [BufferBlock.IsMapped]

theorem attach_mgr (s : IndexedMgr) (id : ℕ) (bh : Option ℕ) (incr align extra : ℕ) :
    (s.attach id bh incr align extra).map (fun r => (r.1.mgr, r.2)) =
      s.mgr.attach id bh incr align extra := by
  rw [attach]
  cases hsplit : splitAtBlock id s.mgr.blocks with
  | none =>
      rw [BufMgr.attach, hsplit]
      rfl
  | some r =>
      dsimp only
      cases s.mgr.attach id bh incr align extra with
      | none => rfl
      | some r' => rfl

theorem Indexed.attach {id incr align extra ret : ℕ} {bh : Option ℕ} (h : s.Indexed)
    (ha : s.attach id bh incr align extra = some (s', ret)) : s'.Indexed := by
  have hmgr := s.attach_mgr id bh incr align extra
  rw [ha, Option.map_some] at hmgr
  have hnamed : s'.mgr.Named := h.named.attach hmgr.symm
  rw [IndexedMgr.attach] at ha
  rw [BufMgr.attach] at hmgr
  cases hsplit : splitAtBlock id s.mgr.blocks with
  | none =>
      rw [hsplit] at ha
      cases ha
  | some r =>
      obtain ⟨p, b, q⟩ := r
      rw [hsplit] at ha hmgr
      dsimp only at ha hmgr
      cases hcheck : battachCheck s.mgr.sb s.mgr.tailBlkaddr (nextAddr q) b incr align extra with
      | none =>
          rw [hcheck] at hmgr
          cases hmgr
      | some up =>
          rw [hcheck, Option.some.injEq, Prod.mk.injEq] at hmgr
          split at ha
          · cases ha
          rw [Option.some.injEq, Prod.mk.injEq] at ha
          have hbuckets : s'.mappedBuckets =
              s.erofsBupdateMapped (battachBlock b incr align bh) := by
            rw [← ha.1]
          have hblocks : s'.mgr.blocks = p ++ battachBlock b incr align bh :: q := by
            rw [hmgr.1]
          have hsb : s'.mgr.sb = s.mgr.sb := by rw [hmgr.1]
          have hlist : s'.mgr.mappedList = s.mgr.bupdateMapped (battachBlock b incr align bh) := by
            rw [hmgr.1]
            rfl
          exact h.update (splitAtBlock_some hsplit).1 hblocks hsb rfl isMapped_battachBlock.mpr
            hlist hbuckets hnamed

theorem ballocIn_mgr (s : IndexedMgr) (id size align extra : ℕ) :
    (s.ballocIn id size align extra).1.mgr = (s.mgr.ballocIn id size align extra).1 := by
  rw [ballocIn, BufMgr.ballocIn, ← attach_mgr]
  cases s.attach id (some s.mgr.fresh) size align extra with
  | none => rfl
  | some r => rfl

theorem Indexed.ballocIn (h : s.Indexed) (id size align extra : ℕ) :
    (s.ballocIn id size align extra).1.Indexed := by
  have hnamed := h.named.ballocIn id size align extra
  rw [← ballocIn_mgr] at hnamed
  rw [IndexedMgr.ballocIn] at hnamed ⊢
  cases ha : s.attach id (some s.mgr.fresh) size align extra with
  | none => exact h
  | some r =>
      obtain ⟨s', ret⟩ := r
      rw [ha] at hnamed
      have h' := h.attach ha
      exact ⟨hnamed, h'.tracks, h'.mapped⟩

theorem Indexed.mapBlock (h : s.Indexed) (hs : s.mgr.blocks = p ++ b :: q) :
    (s.mapBlock p b q).Indexed := by
  have hnamed := h.named.mapBlock hs
  by_cases hnull : b.blkaddr = nullAddr
  · refine h.update hs rfl rfl (s.mgr.mapped_id b) (fun hb => absurd hnull hb) ?_ ?_ hnamed
    · exact if_pos hnull
    · exact if_pos hnull
  · have hsame : s.mgr.mapped b = b := if_neg hnull
    refine h.heads hs rfl rfl (s.mgr.mapped_id b) ?_ ?_ ?_ ?_ hnamed
    · rw [hsame]
    · rw [hsame]
    · exact if_neg hnull
    · exact if_neg hnull

theorem mapbhLoop_mgr (bb : Option ℕ) (s : IndexedMgr) (p q : List BufferBlock) :
    (mapbhLoop bb s p q).mgr = BufMgr.mapbhLoop bb s.mgr p q := by
  induction q generalizing s p with
  | nil => rfl
  | cons t q ih =>
      rw [mapbhLoop, BufMgr.mapbhLoop]
      split
      · rfl
      · exact ih _ _

theorem Indexed.mapbhLoop {bb : Option ℕ} (h : s.Indexed) (hs : s.mgr.blocks = p ++ q) :
    (mapbhLoop bb s p q).Indexed := by
  induction q generalizing s p with
  | nil => exact h
  | cons t q ih =>
      rw [IndexedMgr.mapbhLoop]
      split
      · exact h.mapBlock hs
      · apply ih (h.mapBlock hs)
        exact List.append_cons p (s.mgr.mapped t) q

theorem Indexed.bfree (h : s.Indexed) (hs : s.mgr.blocks = p ++ b :: q) :
    (s.bfree p b q).Indexed :=
  h.remove hs rfl rfl rfl rfl (h.named.bfree hs)

theorem Indexed.counted (h : s.Indexed) (tail metablkcnt : ℕ) :
    (⟨{ s.mgr with tailBlkaddr := tail, metablkcnt := metablkcnt }, s.mappedBuckets⟩ :
      IndexedMgr).Indexed :=
  ⟨h.named.withTail tail metablkcnt, h.tracks, h.mapped⟩

theorem Indexed.dropHeads (h : s.Indexed) (hs : s.mgr.blocks = p ++ b :: q)
    (buffers : List BufferHead) :
    (⟨{ s.mgr with blocks := p ++ { b with buffers := buffers } :: q }, s.mappedBuckets⟩ :
      IndexedMgr).Indexed :=
  h.heads hs rfl rfl rfl Iff.rfl rfl rfl rfl (h.named.dropHeads hs buffers)

theorem bflushLoop_mgr (flush : ℕ → BhFlush) (bb : Option ℕ) (s : IndexedMgr)
    (p q : List BufferBlock) :
    (bflushLoop flush bb s p q).1.mgr = (BufMgr.bflushLoop flush bb s.mgr p q).1 := by
  induction q generalizing s p with
  | nil => rfl
  | cons t q ih =>
      rw [bflushLoop, BufMgr.bflushLoop]
      split
      · rfl
      dsimp only
      cases (flushHeads flush t.buffers).2.2 with
      | some ret => rfl
      | none =>
          dsimp only
          split
          · exact ih _ _
          · exact ih _ _

theorem Indexed.bflushLoop {flush : ℕ → BhFlush} {bb : Option ℕ} (h : s.Indexed)
    (hs : s.mgr.blocks = p ++ q) : (bflushLoop flush bb s p q).1.Indexed := by
  induction q generalizing s p with
  | nil => exact h
  | cons t q ih =>
      have hdrop := fun buffers => (h.mapBlock hs).dropHeads rfl buffers
      rw [IndexedMgr.bflushLoop]
      split
      · exact h
      dsimp only
      split
      · exact hdrop _
      · split
        · apply ih (hdrop _)
          exact List.append_cons p _ q
        · exact ih (((hdrop _).bfree rfl).counted _ _) rfl

theorem erofsBdrop_mgr (s : IndexedMgr) (bid hid : ℕ) (tryrevoke : Bool) :
    (s.erofsBdrop bid hid tryrevoke).mgr = s.mgr.erofsBdrop bid hid tryrevoke := by
  rw [erofsBdrop, BufMgr.erofsBdrop]
  cases splitAtBlock bid s.mgr.blocks with
  | none => rfl
  | some r =>
      dsimp only
      split
      · rfl
      · split <;> rfl

theorem Indexed.erofsBdrop (h : s.Indexed) (bid hid : ℕ) (tryrevoke : Bool) :
    (s.erofsBdrop bid hid tryrevoke).Indexed := by
  rw [IndexedMgr.erofsBdrop]
  cases hsplit : splitAtBlock bid s.mgr.blocks with
  | none => exact h
  | some r =>
      obtain ⟨p, bb, q⟩ := r
      have hs := (splitAtBlock_some hsplit).1
      dsimp only
      split
      · exact h.dropHeads hs _
      · split
        · exact (h.bfree hs).counted _ _
        · exact (h.bfree hs).counted _ _

theorem Indexed.firstMapped (h : s.Indexed) (type : BlockType) (n : ℕ) :
    s.firstMapped type n = s.mgr.firstMapped type n := by
  have hhead : s.firstMapped type n =
      (s.mappedBuckets (type, n)).head?.bind fun id => splitAtBlock id s.mgr.blocks := by
    rw [IndexedMgr.firstMapped]
    cases s.mappedBuckets (type, n) <;> rfl
  rw [hhead, h.tracks.head, BufMgr.firstMapped, List.find?_filterMap]
  congr 2
  funext id
  rw [keyOf, blockOf]
  cases splitAtBlock id s.mgr.blocks with
  | none => rfl
  | some r =>
      rw [Option.map_some, Option.map_some, Option.any_some, decide_eq_decide, bucketOf,
        Option.some.injEq, Prod.mk.injEq]

theorem Indexed.findMapped (h : s.Indexed) (type : BlockType)
    (size requiredExt inlineExt align n : ℕ) :
    s.findMapped type size requiredExt inlineExt align n =
      s.mgr.findMapped type size requiredExt inlineExt align n := by
  induction n with
  | zero => rfl
  | succ n ih =>
      rw [IndexedMgr.findMapped, BufMgr.findMapped, h.firstMapped type (n + 1), ih]
      rfl

theorem Indexed.erofsBfindForAttach (h : s.Indexed) (type : BlockType)
    (size requiredExt inlineExt align : ℕ) :
    s.erofsBfindForAttach type size requiredExt inlineExt align =
      s.mgr.erofsBfindForAttach type size requiredExt inlineExt align := by
  have hmapped (n : ℕ) : s.mgr.findMapped type size requiredExt inlineExt align
      (if s.mgr.sb.size ≤ u64 (size + requiredExt + inlineExt) then 0 else n) =
      if s.mgr.sb.size ≤ u64 (size + requiredExt + inlineExt) then none
      else s.mgr.findMapped type size requiredExt inlineExt align n := by
    split
    · rfl
    · rfl
  rw [IndexedMgr.erofsBfindForAttach, BufMgr.erofsBfindForAttach, h.findMapped, usedBefore, total]
  dsimp only
  exact hmapped _ ▸ rfl

theorem Indexed.step_mgr (h : s.Indexed) (op : BufOp) : (s.step op).mgr = s.mgr.step op := by
  cases op with
  | balloc type size requiredExt inlineExt =>
      rw [step, BufMgr.step, erofsBalloc, BufMgr.erofsBalloc]
      cases getAlignsize s.mgr.sb type with
      | none => rfl
      | some r =>
          dsimp only
          rw [h.erofsBfindForAttach]
          cases s.mgr.erofsBfindForAttach r.2 size requiredExt inlineExt r.1 with
          | error e => rfl
          | ok found =>
              cases found with
              | none => exact ballocIn_mgr _ _ _ _ _
              | some id => exact ballocIn_mgr _ _ _ _ _
  | battach bid hid type size =>
      rw [step, BufMgr.step, erofsBattach, BufMgr.erofsBattach]
      cases getAlignsize s.mgr.sb type with
      | none => rfl
      | some r =>
          dsimp only
          split
          · exact ballocIn_mgr _ _ _ _ _
          · rfl
  | balloon bid hid incr =>
      rw [step, BufMgr.step, erofsBhBalloon, BufMgr.erofsBhBalloon, ← attach_mgr]
      split
      · cases s.attach bid none incr 1 0 with
        | none => rfl
        | some r => rfl
      · rfl
  | mapbh bb =>
      rw [step, BufMgr.step, erofsMapbh, BufMgr.erofsMapbh]
      split
      · rfl
      · exact mapbhLoop_mgr bb s _ _
  | bflush flush bb => exact bflushLoop_mgr flush bb s _ _
  | bdrop bid hid tryrevoke => exact s.erofsBdrop_mgr bid hid tryrevoke

theorem Indexed.step (h : s.Indexed) (op : BufOp) : (s.step op).Indexed := by
  cases op with
  | balloc type size requiredExt inlineExt =>
      rw [IndexedMgr.step, erofsBalloc]
      split
      · exact h
      split
      · exact h
      · exact h.ballocIn _ _ _ _
      · exact (h.newBlock _).ballocIn _ _ _ _
  | battach bid hid type size =>
      rw [IndexedMgr.step, erofsBattach]
      split
      · exact h
      split
      · exact h.ballocIn _ _ _ _
      · exact h
  | balloon bid hid incr =>
      rw [IndexedMgr.step, erofsBhBalloon]
      split
      · split
        · exact h
        · next ha => exact h.attach ha
      · exact h
  | mapbh bb =>
      rw [IndexedMgr.step, erofsMapbh]
      split
      · exact h
      · exact h.mapbhLoop s.mgr.splitLastMapped_append
  | bflush flush bb => exact h.bflushLoop rfl
  | bdrop bid hid tryrevoke => exact h.erofsBdrop bid hid tryrevoke

theorem indexed_init (sb : BlockSize) (startblk metablkcnt : ℕ) :
    (init sb startblk metablkcnt).Indexed :=
  ⟨BufMgr.named_init sb startblk metablkcnt, tracks_nil _, fun _ => Iff.rfl⟩

theorem Reach.indexed {ok : BufMgr → BufOp → Prop} (hs : Reach ok s) : s.Indexed := by
  induction hs with
  | init sb startblk metablkcnt => exact indexed_init sb startblk metablkcnt
  | step op _ _ ih => exact ih.step op

/-- The calls do to the manager what they do without the buckets written out. -/
theorem Reach.mgr {ok : BufMgr → BufOp → Prop} (hs : Reach ok s) : s.mgr.Reach ok := by
  induction hs with
  | init sb startblk metablkcnt => exact BufMgr.Reach.init sb startblk metablkcnt
  | step op hs hop ih =>
      rw [hs.indexed.step_mgr op]
      exact BufMgr.Reach.step op ih hop

end Indexed

end IndexedMgr

end ErofsUtils
