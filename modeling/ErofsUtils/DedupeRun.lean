import ErofsUtils.Dedupe

/-!
# The table of compressed extents over whole runs

The calls of `z_erofs_dedupe_insert` and `z_erofs_dedupe_commit` that mkfs makes, file after
file, with what each block of the image holds, and the invariant that every entry of the table
describes blocks that are on disk.

A file is written again uncompressed only after `erofs_commit_compressed_file` has found that
compression does not pay and has taken the entries of the file out of the table. Any other failure
ends the build.
-/

namespace ErofsUtils

section Table

variable {tree : ℕ → List DedupeItem} {chain : List DedupeItem}

theorem nodup_erase (h : ∀ b, (tree b).Nodup) (di : DedupeItem) (i : ℕ) :
    (if i = dedupeBucket di.hash then (tree i).erase di else tree i).Nodup := by
  split_ifs
  · exact (h i).erase di
  · exact h i

theorem nodup_dedupeListDel (h : ∀ b, (tree b).Nodup) (b : ℕ) :
    (dedupeListDel tree chain b).Nodup := by
  induction chain generalizing tree with
  | nil => exact h b
  | cons di chain ih => exact ih (nodup_erase h di)

theorem mem_dedupeListDel (h : ∀ b, (tree b).Nodup) {b : ℕ} {it : DedupeItem}
    (hit : it ∈ dedupeListDel tree chain b) :
    it ∈ tree b ∧ (dedupeBucket it.hash = b → it ∉ chain) := by
  induction chain generalizing tree with
  | nil => exact ⟨hit, fun _ => List.not_mem_nil⟩
  | cons di chain ih =>
      obtain ⟨hmem, hchain⟩ := ih (nodup_erase h di) hit
      split_ifs at hmem with hb
      · obtain ⟨hne, hmem⟩ := (h b).mem_erase_iff.mp hmem
        exact ⟨hmem, fun hbucket => List.not_mem_cons_of_ne_of_not_mem hne (hchain hbucket)⟩
      · refine ⟨hmem, fun hbucket => List.not_mem_cons_of_ne_of_not_mem ?_ (hchain hbucket)⟩
        rintro rfl
        exact hb hbucket.symm

/-- An entry of the table after `z_erofs_dedupe_insert` is an old one or the new one. -/
theorem zErofsDedupeInsert_cases (t : DedupeTable) (e : InmemExtent) (data : List UInt8)
    (addr : Option ℕ) :
    zErofsDedupeInsert t e data addr = t ∨
      ∃ a di, addr = some a ∧ di = dedupeItemOf t e data a ∧ t.windowSize ≤ e.length ∧
        di ∉ t.dedupeTree (dedupeBucket di.hash) ∧
        zErofsDedupeInsert t e data addr = { t with
          dedupeSubtree := di :: t.dedupeSubtree
          dedupeTree := fun i => if i = dedupeBucket di.hash then t.dedupeTree i ++ [di]
            else t.dedupeTree i } := by
  unfold zErofsDedupeInsert
  split_ifs with hw
  · exact Or.inl rfl
  · cases addr with
    | none => exact Or.inl rfl
    | some a =>
        simp only
        split_ifs with hany
        · exact Or.inl rfl
        · refine Or.inr ⟨a, _, rfl, rfl, by omega, ?_, rfl⟩
          intro hmem
          exact hany (List.any_eq_true.mpr ⟨_, hmem, decide_eq_true rfl⟩)

end Table

/-- The blocks of an extent: the file it belongs to and the bytes that are encoded there. -/
structure Encoded where
  file : ℕ
  extent : InmemExtent
  data : List UInt8

/-- mkfs between two calls: the table of `dedupe.c`, the file in progress (`ctx->blkaddr` and
whether its inline data is set), the end of the blocks of committed files, the files dropped by
`z_erofs_dedupe_commit(true)`, what each block holds, and the windows inserted so far. -/
structure DedupeRunState where
  table : DedupeTable
  busy : Bool
  file : ℕ
  blkaddr : ℕ
  idata : Bool
  tailBlkaddr : ℕ
  dropped : List ℕ
  holds : ℕ → Option Encoded
  windows : List (List UInt8)

def DedupeRunState.init (wsiz : ℕ) : DedupeRunState :=
  ⟨zErofsDedupeInit wsiz, false, 0, 0, false, 0, [], fun _ => none, []⟩

inductive DedupeOp
  /-- `erofs_write_compressed_file` gets blocks from `start` on. -/
  | begin (start : ℕ)
  /-- `__z_erofs_compress_one` emits an extent for `data`; `dedupe` tells whether it calls
  `z_erofs_dedupe_insert`, in which `malloc` returns `addr`. -/
  | extent (e : InmemExtent) (data : List UInt8) (dedupe : Bool) (addr : Option ℕ)
  /-- `erofs_commit_compressed_file` calls `z_erofs_dedupe_commit(drop)`. -/
  | commit (drop : Bool)

namespace DedupeRunState

/-- `erofs_bdrop(bh, true)`: the blocks of the file in progress are given back. -/
def revoke (s : DedupeRunState) : ℕ → Option Encoded := fun b =>
  match s.holds b with
  | none => none
  | some enc => if enc.file = s.file then none else some enc

def emitted (s : DedupeRunState) (e : InmemExtent) (data : List UInt8) : ℕ → Option Encoded :=
  fun b => if s.blkaddr ≤ b ∧ b < s.blkaddr + e.compressedblks then some ⟨s.file, e, data⟩
    else s.holds b

def step (s : DedupeRunState) : DedupeOp → Option DedupeRunState
  | .begin start =>
      if s.busy = false ∧ s.tailBlkaddr ≤ start then
        some { s with busy := true, file := s.file + 1, blkaddr := start, idata := false }
      else none
  | .extent e data dedupe addr =>
      if s.busy = true ∧ s.idata = false ∧ e.blkaddr = s.blkaddr ∧ e.length = data.length ∧
          data.length ≤ zErofsComprQueueSz ∧ (e.inlined = true → e.compressedblks = 1) ∧
          (dedupe = true → e.inlined = false ∧ 0 < e.compressedblks) then
        some { s with
          table := if dedupe then zErofsDedupeInsert s.table e data addr else s.table
          blkaddr := s.blkaddr + e.compressedblks
          idata := e.inlined
          holds := if e.inlined then s.holds else s.emitted e data
          windows := bytesAt data 0 s.table.windowSize :: s.windows }
      else none
  | .commit drop =>
      if s.busy = true then
        some (if drop then
          { s with table := zErofsDedupeCommit s.table true, busy := false,
                   dropped := s.file :: s.dropped, holds := s.revoke }
        else
          { s with table := zErofsDedupeCommit s.table false, busy := false,
                   tailBlkaddr := s.blkaddr - s.idata.toNat })
      else none

/-- The entry `it` describes the blocks `enc`, and they are on disk. -/
structure Describes (s : DedupeRunState) (it : DedupeItem) (enc : Encoded) : Prop where
  item_eq : it = dedupeItemOf s.table enc.extent enc.data it.addr
  window_le : s.table.windowSize ≤ enc.extent.length
  length_eq : enc.extent.length = enc.data.length
  length_le : enc.data.length ≤ zErofsComprQueueSz
  window_mem : bytesAt enc.data 0 s.table.windowSize ∈ s.windows
  blks_pos : 0 < enc.extent.compressedblks
  holds : ∀ j < enc.extent.compressedblks, s.holds (enc.extent.blkaddr + j) = some enc

/-- What holds between two calls: every entry describes blocks that are on disk, and those of the
file in progress are in the chain that a drop takes away. -/
structure Inv (s : DedupeRunState) : Prop where
  bucket : ∀ b, ∀ it ∈ s.table.dedupeTree b, dedupeBucket it.hash = b
  nodup : ∀ b, (s.table.dedupeTree b).Nodup
  live : ∀ b, ∀ it ∈ s.table.dedupeTree b, ∃ enc, s.Describes it enc ∧
    (s.busy = true → enc.file = s.file → it ∈ s.table.dedupeSubtree)
  file_le : ∀ b enc, s.holds b = some enc → enc.file ≤ s.file
  kept : ∀ b enc, s.holds b = some enc → enc.file ∉ s.dropped
  dropped_le : ∀ f ∈ s.dropped, f ≤ s.file ∧ (s.busy = true → f ≠ s.file)
  below : ∀ b enc, s.holds b = some enc → ¬ (s.busy = true ∧ enc.file = s.file) →
    b < s.tailBlkaddr
  inside : s.busy = true → ∀ b enc, s.holds b = some enc → b < s.blkaddr - s.idata.toNat
  tail_le : s.busy = true → s.tailBlkaddr ≤ s.blkaddr - s.idata.toNat

theorem inv_init (wsiz : ℕ) : (init wsiz).Inv where
  bucket := fun _ _ h => absurd h List.not_mem_nil
  nodup := fun _ => List.nodup_nil
  live := fun _ _ h => absurd h List.not_mem_nil
  file_le := fun _ _ h => nomatch h
  kept := fun _ _ h => nomatch h
  dropped_le := fun _ h => absurd h List.not_mem_nil
  below := fun _ _ h => nomatch h
  inside := fun h => nomatch h
  tail_le := fun h => nomatch h

theorem Describes.file_of_holds {s : DedupeRunState} {it : DedupeItem} {enc : Encoded}
    (h : s.Describes it enc) : s.holds enc.extent.blkaddr = some enc := h.holds 0 h.blks_pos

/-- Blocks of other files survive when the file in progress gives its blocks back. -/
theorem Describes.revoke {s s' : DedupeRunState} {it : DedupeItem} {enc : Encoded}
    (h : s.Describes it enc) (hfile : enc.file ≠ s.file)
    (hwsiz : s'.table.windowSize = s.table.windowSize) (hwin : s'.windows = s.windows)
    (hholds : s'.holds = s.revoke) : s'.Describes it enc where
  item_eq := by
    have := h.item_eq
    unfold dedupeItemOf at this ⊢
    rwa [hwsiz]
  window_le := by rw [hwsiz]; exact h.window_le
  length_eq := h.length_eq
  length_le := h.length_le
  window_mem := by rw [hwsiz, hwin]; exact h.window_mem
  blks_pos := h.blks_pos
  holds := by
    intro j hj
    rw [hholds, DedupeRunState.revoke, h.holds j hj]
    exact if_neg hfile

theorem revoke_eq_some {s : DedupeRunState} {b : ℕ} {enc : Encoded}
    (h : s.revoke b = some enc) : s.holds b = some enc ∧ enc.file ≠ s.file := by
  unfold revoke at h
  split at h
  · cases h
  · next enc' hb =>
      split_ifs at h with hf
      obtain rfl := Option.some.inj h
      exact ⟨hb, hf⟩

theorem Inv.begin {s s' : DedupeRunState} {start : ℕ} (hs : s.Inv)
    (h : s.step (.begin start) = some s') : s'.Inv := by
  rw [step] at h
  split_ifs at h with hc
  obtain ⟨hbusy, hstart⟩ := hc
  obtain rfl := Option.some.inj h
  have hnot (enc : Encoded) : ¬ (s.busy = true ∧ enc.file = s.file) := by simp [hbusy]
  refine ⟨hs.bucket, hs.nodup, ?_, ?_, hs.kept, ?_, ?_, ?_, fun _ => hstart⟩
  · intro b it hit
    obtain ⟨enc, hd, -⟩ := hs.live b it hit
    refine ⟨enc, ⟨hd.item_eq, hd.window_le, hd.length_eq, hd.length_le, hd.window_mem,
      hd.blks_pos, hd.holds⟩, fun _ hfile => ?_⟩
    have hle := hs.file_le _ enc hd.file_of_holds
    have : enc.file = s.file + 1 := hfile
    omega
  · intro b enc hb
    exact Nat.le_succ_of_le (hs.file_le b enc hb)
  · intro f hf
    have := (hs.dropped_le f hf).1
    exact ⟨Nat.le_succ_of_le this, fun _ => Nat.ne_of_lt (Nat.lt_succ_of_le this)⟩
  · intro b enc hb _
    exact hs.below b enc hb (hnot enc)
  · intro _ b enc hb
    exact Nat.lt_of_lt_of_le (hs.below b enc hb (hnot enc)) hstart

/-- The blocks in front of `ctx->blkaddr` are not touched by the next extent. -/
theorem emitted_of_lt {s : DedupeRunState} {e : InmemExtent} {data : List UInt8} {b : ℕ}
    (h : b < s.blkaddr) : s.emitted e data b = s.holds b := if_neg (by omega)

theorem emitted_eq_some {s : DedupeRunState} {e : InmemExtent} {data : List UInt8} {b : ℕ}
    {enc : Encoded} (h : s.emitted e data b = some enc) :
    s.holds b = some enc ∨
      s.blkaddr ≤ b ∧ b < s.blkaddr + e.compressedblks ∧ enc = ⟨s.file, e, data⟩ := by
  unfold emitted at h
  split_ifs at h with hb
  · exact Or.inr ⟨hb.1, hb.2, (Option.some.inj h).symm⟩
  · exact Or.inl h

/-- What `__z_erofs_compress_one` changes when it emits `e` for `data`, the table apart. -/
structure Emits (s s' : DedupeRunState) (e : InmemExtent) (data : List UInt8) : Prop where
  busy : s.busy = true
  busy_eq : s'.busy = true
  file_eq : s'.file = s.file
  dropped_eq : s'.dropped = s.dropped
  tail_eq : s'.tailBlkaddr = s.tailBlkaddr
  windows_eq : s'.windows = bytesAt data 0 s.table.windowSize :: s.windows
  idata_eq : s.idata = false
  le : s.blkaddr ≤ s'.blkaddr - s'.idata.toNat
  holds_of_lt : ∀ b < s.blkaddr, s'.holds b = s.holds b
  holds_cases : ∀ b enc, s'.holds b = some enc → s.holds b = some enc ∨
    b < s'.blkaddr - s'.idata.toNat ∧ enc.file = s.file

theorem step_extent {s s' : DedupeRunState} {e : InmemExtent} {data : List UInt8} {dedupe : Bool}
    {addr : Option ℕ} (h : s.step (.extent e data dedupe addr) = some s') :
    s.Emits s' e data ∧ e.length = data.length ∧ data.length ≤ zErofsComprQueueSz ∧
      (dedupe = false ∧ s'.table = s.table ∨
        dedupe = true ∧ s'.table = zErofsDedupeInsert s.table e data addr ∧
          0 < e.compressedblks ∧
          ∀ j < e.compressedblks, s'.holds (e.blkaddr + j) = some ⟨s.file, e, data⟩) := by
  rw [step] at h
  by_cases hc : s.busy = true ∧ s.idata = false ∧ e.blkaddr = s.blkaddr ∧
      e.length = data.length ∧ data.length ≤ zErofsComprQueueSz ∧
      (e.inlined = true → e.compressedblks = 1) ∧
      (dedupe = true → e.inlined = false ∧ 0 < e.compressedblks)
  · rw [if_pos hc] at h
    obtain ⟨hbusy, hidata, hblk, hlen, hle, hinl, hded⟩ := hc
    obtain rfl := Option.some.inj h
    refine ⟨⟨hbusy, hbusy, rfl, rfl, rfl, rfl, hidata, ?_, ?_, ?_⟩, hlen, hle, ?_⟩
    · cases hi : e.inlined with
      | false => simp
      | true => simp [hinl hi]
    · intro b hb
      cases hi : e.inlined with
      | false => simpa using emitted_of_lt hb
      | true => simp
    · intro b enc hb
      cases hi : e.inlined with
      | false =>
          simp only [hi, Bool.false_eq_true, if_false] at hb
          rcases emitted_eq_some hb with hold | ⟨-, hlt, rfl⟩
          · exact Or.inl hold
          · exact Or.inr ⟨by simpa using hlt, rfl⟩
      | true =>
          simp only [hi, if_true] at hb
          exact Or.inl hb
    · cases hd : dedupe with
      | false => exact Or.inl ⟨rfl, rfl⟩
      | true =>
          obtain ⟨hnoinl, hpos⟩ := hded hd
          refine Or.inr ⟨rfl, rfl, hpos, ?_⟩
          intro j hj
          simp only [hnoinl, Bool.false_eq_true, if_false]
          rw [hblk]
          exact if_pos ⟨by omega, by omega⟩
  · rw [if_neg hc] at h
    cases h

section Emits

variable {s s' : DedupeRunState} {e : InmemExtent} {data : List UInt8}

theorem Describes.extent {it : DedupeItem} {enc : Encoded} (h : s.Describes it enc) (hs : s.Inv)
    (he : s.Emits s' e data) (hwsiz : s'.table.windowSize = s.table.windowSize) :
    s'.Describes it enc where
  item_eq := by
    have := h.item_eq
    unfold dedupeItemOf at this ⊢
    rwa [hwsiz]
  window_le := by rw [hwsiz]; exact h.window_le
  length_eq := h.length_eq
  length_le := h.length_le
  window_mem := by rw [hwsiz, he.windows_eq]; exact List.mem_cons_of_mem _ h.window_mem
  blks_pos := h.blks_pos
  holds := by
    intro j hj
    have hb := h.holds j hj
    have hlt := hs.inside he.busy _ enc hb
    rw [he.holds_of_lt _ (by omega), hb]

/-- An extent keeps the invariant when the entries of the new table are in order. -/
theorem Inv.emits (hs : s.Inv) (he : s.Emits s' e data)
    (hbucket : ∀ b, ∀ it ∈ s'.table.dedupeTree b, dedupeBucket it.hash = b)
    (hnodup : ∀ b, (s'.table.dedupeTree b).Nodup)
    (hlive : ∀ b, ∀ it ∈ s'.table.dedupeTree b, ∃ enc, s'.Describes it enc ∧
      (enc.file = s.file → it ∈ s'.table.dedupeSubtree)) : s'.Inv := by
  have htail := hs.tail_le he.busy
  rw [he.idata_eq, Bool.toNat_false, Nat.sub_zero] at htail
  refine ⟨hbucket, hnodup, ?_, ?_, ?_, ?_, ?_, ?_, fun _ => ?_⟩
  · intro b it hit
    obtain ⟨enc, hd, hmem⟩ := hlive b it hit
    exact ⟨enc, hd, fun _ hf => hmem (hf.trans he.file_eq)⟩
  · intro b enc hb
    rw [he.file_eq]
    rcases he.holds_cases b enc hb with hb | ⟨-, hf⟩
    · exact hs.file_le b enc hb
    · exact hf.le
  · intro b enc hb
    rw [he.dropped_eq]
    rcases he.holds_cases b enc hb with hb | ⟨-, hf⟩
    · exact hs.kept b enc hb
    · exact fun hd => (hs.dropped_le _ hd).2 he.busy hf
  · rw [he.dropped_eq, he.file_eq]
    intro f hf
    exact ⟨(hs.dropped_le f hf).1, fun _ => (hs.dropped_le f hf).2 he.busy⟩
  · intro b enc hb hnot
    rw [he.tail_eq]
    rcases he.holds_cases b enc hb with hb | ⟨-, hf⟩
    · exact hs.below b enc hb (fun hand => hnot ⟨he.busy_eq, hand.2.trans he.file_eq.symm⟩)
    · exact absurd ⟨he.busy_eq, hf.trans he.file_eq.symm⟩ hnot
  · intro _ b enc hb
    rcases he.holds_cases b enc hb with hb | ⟨hlt, -⟩
    · have := hs.inside he.busy b enc hb
      have := he.le
      omega
    · exact hlt
  · rw [he.tail_eq]
    exact htail.trans he.le

theorem Inv.emits_same (hs : s.Inv) (he : s.Emits s' e data) (ht : s'.table = s.table) :
    s'.Inv := by
  apply hs.emits he
  · rw [ht]
    exact hs.bucket
  · rw [ht]
    exact hs.nodup
  · rw [ht]
    intro b it hit
    obtain ⟨enc, hd, hmem⟩ := hs.live b it hit
    exact ⟨enc, hd.extent hs he (by rw [ht]), hmem he.busy⟩

/-- One more entry, for the blocks just written. -/
theorem Inv.emits_insert (hs : s.Inv) (he : s.Emits s' e data) (hlen : e.length = data.length)
    (hle : data.length ≤ zErofsComprQueueSz) (hpos : 0 < e.compressedblks)
    (hholds : ∀ j < e.compressedblks, s'.holds (e.blkaddr + j) = some ⟨s.file, e, data⟩)
    {di : DedupeItem} {a : ℕ} (hdi : di = dedupeItemOf s.table e data a)
    (hw : s.table.windowSize ≤ e.length) (hdn : di ∉ s.table.dedupeTree (dedupeBucket di.hash))
    (ht : s'.table = { s.table with
      dedupeSubtree := di :: s.table.dedupeSubtree
      dedupeTree := fun i => if i = dedupeBucket di.hash then s.table.dedupeTree i ++ [di]
        else s.table.dedupeTree i }) : s'.Inv := by
  have hwsiz : s'.table.windowSize = s.table.windowSize := by rw [ht]
  have hmem : ∀ b, ∀ it ∈ s'.table.dedupeTree b,
      it ∈ s.table.dedupeTree b ∨ it = di ∧ b = dedupeBucket di.hash := by
    rw [ht]
    intro b it hit
    simp only at hit
    split_ifs at hit with hb
    · rcases List.mem_append.mp hit with hit | hit
      · exact Or.inl hit
      · exact Or.inr ⟨List.mem_singleton.mp hit, hb⟩
    · exact Or.inl hit
  have hdesc : s'.Describes di ⟨s.file, e, data⟩ := by
    refine ⟨?_, by rw [hwsiz]; exact hw, hlen, hle, ?_, hpos, hholds⟩
    · have haddr : di.addr = a := by
        rw [hdi]
        rfl
      rw [haddr, hdi]
      unfold dedupeItemOf
      rw [hwsiz]
    · rw [hwsiz, he.windows_eq]
      exact List.mem_cons_self
  apply hs.emits he
  · intro b it hit
    rcases hmem b it hit with hit | ⟨rfl, rfl⟩
    · exact hs.bucket b it hit
    · rfl
  · rw [ht]
    intro b
    simp only
    split_ifs with hb
    · subst hb
      refine List.nodup_append.mpr ⟨hs.nodup _, by simp, ?_⟩
      rintro x hx y hy rfl
      rw [List.mem_singleton.mp hy] at hx
      exact hdn hx
    · exact hs.nodup b
  · intro b it hit
    rcases hmem b it hit with hit | ⟨rfl, -⟩
    · obtain ⟨enc, hd, hsub⟩ := hs.live b it hit
      refine ⟨enc, hd.extent hs he hwsiz, fun hf => ?_⟩
      rw [ht]
      exact List.mem_cons_of_mem _ (hsub he.busy hf)
    · refine ⟨_, hdesc, fun _ => ?_⟩
      rw [ht]
      exact List.mem_cons_self

end Emits

theorem Inv.extent {s s' : DedupeRunState} {e : InmemExtent} {data : List UInt8} {dedupe : Bool}
    {addr : Option ℕ} (hs : s.Inv) (h : s.step (.extent e data dedupe addr) = some s') :
    s'.Inv := by
  obtain ⟨he, hlen, hle, ⟨-, ht⟩ | ⟨-, ht, hpos, hholds⟩⟩ := step_extent h
  · exact hs.emits_same he ht
  · rcases zErofsDedupeInsert_cases s.table e data addr with hins | ⟨a, di, -, hdi, hw, hdn, hins⟩
    · exact hs.emits_same he (ht.trans hins)
    · exact hs.emits_insert he hlen hle hpos hholds hdi hw hdn (ht.trans hins)

/-- The invariant after the file in progress has given its blocks back, when no entry of the
table is left that describes them. -/
theorem Inv.revoked {s s' : DedupeRunState} (hs : s.Inv) (hbusy' : s'.busy = false)
    (hfile : s'.file = s.file) (htail : s'.tailBlkaddr = s.tailBlkaddr)
    (hdropped : ∀ f ∈ s'.dropped, f = s.file ∨ f ∈ s.dropped) (hwin : s'.windows = s.windows)
    (hwsiz : s'.table.windowSize = s.table.windowSize) (hholds : s'.holds = s.revoke)
    (hbusy : s.busy = true)
    (hnodup : ∀ b, (s'.table.dedupeTree b).Nodup)
    (hleft : ∀ b, ∀ it ∈ s'.table.dedupeTree b,
      it ∈ s.table.dedupeTree b ∧ it ∉ s.table.dedupeSubtree) : s'.Inv := by
  have hnot : ¬ s'.busy = true := by simp [hbusy']
  refine ⟨fun b it hit => hs.bucket b it (hleft b it hit).1, hnodup, ?_, ?_, ?_, ?_, ?_,
    fun h => absurd h hnot, fun h => absurd h hnot⟩
  · intro b it hit
    obtain ⟨hin, hout⟩ := hleft b it hit
    obtain ⟨enc, hd, hmem⟩ := hs.live b it hin
    have hother : enc.file ≠ s.file := fun hf => hout (hmem hbusy hf)
    exact ⟨enc, hd.revoke hother hwsiz hwin hholds, fun h => absurd h hnot⟩
  · intro b enc hb
    rw [hholds] at hb
    rw [hfile]
    exact hs.file_le b enc (revoke_eq_some hb).1
  · intro b enc hb hd
    rw [hholds] at hb
    obtain ⟨hb, hne⟩ := revoke_eq_some hb
    rcases hdropped _ hd with hf | hd
    · exact hne hf
    · exact hs.kept b enc hb hd
  · intro f hf
    refine ⟨?_, fun h => absurd h hnot⟩
    rw [hfile]
    rcases hdropped f hf with rfl | hf
    · exact le_rfl
    · exact (hs.dropped_le f hf).1
  · intro b enc hb _
    rw [hholds] at hb
    rw [htail]
    obtain ⟨hb, hne⟩ := revoke_eq_some hb
    exact hs.below b enc hb (fun h => hne h.2)

theorem Inv.commit {s s' : DedupeRunState} {drop : Bool} (hs : s.Inv)
    (h : s.step (.commit drop) = some s') : s'.Inv := by
  rw [step] at h
  by_cases hbusy : s.busy = true
  · rw [if_pos hbusy] at h
    cases drop with
    | true =>
        obtain rfl := Option.some.inj h
        refine hs.revoked rfl rfl rfl (fun f hf => List.mem_cons.mp hf) rfl rfl rfl hbusy
          (nodup_dedupeListDel hs.nodup) ?_
        intro b it hit
        obtain ⟨hin, hout⟩ := mem_dedupeListDel hs.nodup hit
        exact ⟨hin, hout (hs.bucket b it hin)⟩
    | false =>
        obtain rfl := Option.some.inj h
        refine ⟨hs.bucket, hs.nodup, ?_, hs.file_le, hs.kept, ?_, ?_, (fun h => nomatch h),
          (fun h => nomatch h)⟩
        · intro b it hit
          obtain ⟨enc, hd, -⟩ := hs.live b it hit
          exact ⟨enc, ⟨hd.item_eq, hd.window_le, hd.length_eq, hd.length_le, hd.window_mem,
            hd.blks_pos, hd.holds⟩, fun h => nomatch h⟩
        · intro f hf
          exact ⟨(hs.dropped_le f hf).1, fun h => nomatch h⟩
        · intro b enc hb _
          exact hs.inside hbusy b enc hb
  · rw [if_neg hbusy] at h
    cases h

theorem Inv.step {s s' : DedupeRunState} {op : DedupeOp} (hs : s.Inv)
    (h : s.step op = some s') : s'.Inv := by
  cases op with
  | begin start => exact hs.begin h
  | extent e data dedupe addr => exact hs.extent h
  | commit drop => exact hs.commit h

inductive Reach (wsiz : ℕ) : DedupeRunState → Prop
  | init : Reach wsiz (.init wsiz)
  | step {s s' : DedupeRunState} (op : DedupeOp) :
      Reach wsiz s → s.step op = some s' → Reach wsiz s'

theorem Reach.inv {wsiz : ℕ} {s : DedupeRunState} (h : Reach wsiz s) : s.Inv := by
  induction h with
  | init => exact inv_init wsiz
  | step op _ hstep ih => exact ih.step hstep

end DedupeRunState

end ErofsUtils
