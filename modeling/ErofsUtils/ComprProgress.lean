import ErofsUtils.ComprSegment

/-!
# The loop over a segment ends

Every turn of the loop reads into the queue, whose free room depends on how much was taken from its
head. A refill keeps the head in the first half of the queue while data remain; only the bytes of a
deduplicated fragment come back after the head has left it.
-/

namespace ErofsUtils

theorem zErofsDedupeMatch_le_end {t : DedupeTable} {queue : List UInt8}
    {qaddr start endp cur p : ℕ} {e : InmemExtent}
    (h : zErofsDedupeMatch t queue qaddr start endp cur = some (p, e)) :
    p ≤ cur ∧ p + e.length ≤ endp := by
  obtain ⟨-, hle, hend, it, hfound⟩ := zErofsDedupeMatch_found h
  refine ⟨hle, ?_⟩
  rw [hfound.extent_eq, dedupeMatchExtent]
  change p + dedupeMatchLength t queue qaddr endp p it ≤ endp
  unfold dedupeMatchLength
  dsimp only
  set extra := min (u32 (endp - p - t.windowSize)) (u32 (it.originalLength - t.windowSize))
  have hcmp : erofsMemcmp2 (fun i => queue.getD (p + t.windowSize + i) 0)
      (fun i => it.extraData.getD i 0) (qaddr + p + t.windowSize) it.addr extra ≤ extra :=
    (erofsMemcmp2_spec _ _ _).1.le
  have hextra : extra ≤ endp - p - t.windowSize := (Nat.min_le_left _ _).trans (Nat.mod_le _ _)
  have hmod := Nat.mod_le (t.windowSize + erofsMemcmp2
    (fun i => queue.getD (p + t.windowSize + i) 0) (fun i => it.extraData.getD i 0)
    (qaddr + p + t.windowSize) it.addr extra) (2 ^ 32)
  unfold u32
  omega

namespace ComprSctx

def left (c : ComprSctx) : ℕ := c.remaining + (c.tail - c.head)

/-- Nothing was added to what is left, unless the fragment was taken back. -/
def Later (c c' : ComprSctx) : Prop :=
  (c.fixDedupedfrag = false ∧ c'.fixDedupedfrag = true) ∨
    (c'.fixDedupedfrag = c.fixDedupedfrag ∧ c'.remaining ≤ c.remaining ∧ c'.left ≤ c.left)

theorem Later.refl (c : ComprSctx) : Later c c := Or.inr ⟨rfl, le_rfl, le_rfl⟩

theorem Later.trans {c c' c'' : ComprSctx} (h : Later c c') (h' : Later c' c'') :
    Later c c'' := by
  unfold Later at *
  grind

end ComprSctx

namespace ComprEnv

variable {env : ComprEnv} {c c' : ComprSctx} {e : InmemExtent} {len len' : ℕ}

structure InQueue (env : ComprEnv) (c : ComprSctx) : Prop where
  head_le : c.head ≤ c.tail
  tail_le : c.tail ≤ zErofsComprQueueSz
  size_dvd : env.sbi.blksz ∣ c.pclustersize
  size_le : c.pclustersize ≤ pclusterMaxSize

/-- The queue inside a turn: its head has not left the first half while data remain, unless an
extent is sure to be taken. -/
structure Inside (env : ComprEnv) (c : ComprSctx) : Prop extends InQueue env c where
  head_lt : c.remaining ≠ 0 → c.head < erofsConfigComprMaxSz ∨
    c.pivot = .none ∧ c.pclustersize < c.tail - c.head

/-- The fragment was taken back at the end of the last turn. -/
structure GivenBack (c : ComprSctx) : Prop where
  fix : c.fixDedupedfrag = true
  pivot : c.pivot = .none
  room : c.tail - c.head ≤ c.pclustersize ∨ c.tail < zErofsComprQueueSz

structure Between (env : ComprEnv) (c : ComprSctx) : Prop extends InQueue env c where
  head_lt : c.remaining ≠ 0 →
    c.head < erofsConfigComprMaxSz ∧ c.tail < zErofsComprQueueSz ∨ GivenBack c

/-- What the options of a file promise: blocks of at most 64 KiB, and pclusters of whole blocks and
at most 1 MiB. -/
structure SizesValid (env : ComprEnv) : Prop where
  blksz_le : env.sbi.blksz ≤ 65536
  max_dvd : ∀ c, env.sbi.blksz ∣ env.maxPclustersize c
  max_le : ∀ c, env.maxPclustersize c ≤ pclusterMaxSize

theorem zErofsNeedRefill_true (h : (env.zErofsNeedRefill c).1 = true) :
    c.remaining ≠ 0 ∧ erofsConfigComprMaxSz ≤ c.head ∧ (env.zErofsNeedRefill c).2 =
      { c with queue := c.queue.drop (roundDown c.head env.sbi.blksz)
               head := c.head - roundDown c.head env.sbi.blksz } := by
  unfold zErofsNeedRefill at h ⊢
  split_ifs at h ⊢ with hhead
  rw [not_or, Nat.not_lt] at hhead
  exact ⟨hhead.1, hhead.2, rfl⟩

theorem zErofsNeedRefill_false (h : (env.zErofsNeedRefill c).1 = false) :
    (env.zErofsNeedRefill c).2 = c ∧ (c.remaining = 0 ∨ c.head < erofsConfigComprMaxSz) := by
  unfold zErofsNeedRefill at h ⊢
  split_ifs at h ⊢ with hhead
  exact ⟨rfl, hhead⟩

theorem InQueue.refill (hq : InQueue env c) (hv : SizesValid env)
    (h : (env.zErofsNeedRefill c).1 = true) :
    Between env (env.zErofsNeedRefill c).2 ∧ c.Later (env.zErofsNeedRefill c).2 := by
  obtain ⟨-, hhead, heq⟩ := zErofsNeedRefill_true h
  have hb := env.sbi.blksz_pos
  have hle := hq.head_le
  have htail := hq.tail_le
  have hblk := hv.blksz_le
  have hdown : roundDown c.head env.sbi.blksz ≤ c.head := roundDown_le
  have hnear : c.head < roundDown c.head env.sbi.blksz + env.sbi.blksz := by
    have := Nat.lt_div_mul_add hb (a := c.head)
    exact this
  have hmax : erofsConfigComprMaxSz = 4096000 := rfl
  have hlen : ({ c with queue := c.queue.drop (roundDown c.head env.sbi.blksz)
                        head := c.head - roundDown c.head env.sbi.blksz } : ComprSctx).tail =
      c.tail - roundDown c.head env.sbi.blksz := List.length_drop
  rw [heq]
  refine ⟨⟨⟨?_, ?_, hq.size_dvd, hq.size_le⟩, fun _ => Or.inl ⟨?_, ?_⟩⟩, Or.inr ⟨rfl, le_rfl, ?_⟩⟩
  · rw [hlen]
    exact Nat.sub_le_sub_right hle _
  · rw [hlen]
    omega
  · change c.head - roundDown c.head env.sbi.blksz < _
    omega
  · rw [hlen]
    omega
  · unfold ComprSctx.left
    rw [hlen]
    change c.remaining + _ ≤ _
    simp only
    omega

theorem InQueue.noRefill (hq : InQueue env c) (h : (env.zErofsNeedRefill c).1 = false) :
    Inside env (env.zErofsNeedRefill c).2 ∧ c.Later (env.zErofsNeedRefill c).2 := by
  obtain ⟨heq, hhead⟩ := zErofsNeedRefill_false h
  rw [heq]
  refine ⟨⟨hq, fun hne => ?_⟩, .refl c⟩
  rcases hhead with h0 | hlt
  · exact absurd h0 hne
  · exact Or.inl hlt

structure Moved (c c' : ComprSctx) (n : ℕ) : Prop where
  queue : c'.queue = c.queue
  head : c'.head = c.head + n
  remaining : c'.remaining = c.remaining
  pclustersize : c'.pclustersize = c.pclustersize
  fixDedupedfrag : c'.fixDedupedfrag = c.fixDedupedfrag

variable {n : ℕ}

theorem Moved.tail (h : Moved c c' n) : c'.tail = c.tail := congrArg List.length h.queue

theorem Moved.later (h : Moved c c' n) : c.Later c' := by
  refine Or.inr ⟨h.fixDedupedfrag, h.remaining.le, ?_⟩
  unfold ComprSctx.left
  rw [h.tail, h.head, h.remaining]
  omega

theorem Moved.inQueue (h : Moved c c' n) (hq : InQueue env c) (hn : n ≤ c.tail - c.head) :
    InQueue env c' := by
  have hle := hq.head_le
  refine ⟨?_, ?_, ?_, ?_⟩
  · rw [h.tail, h.head]
    omega
  · rw [h.tail]
    exact hq.tail_le
  · rw [h.pclustersize]
    exact hq.size_dvd
  · rw [h.pclustersize]
    exact hq.size_le

theorem moved_takeMatch (c : ComprSctx) (delta : ℕ) (e : InmemExtent) :
    Moved c (env.takeMatch c delta e) (e.length - delta) := by
  unfold takeMatch
  cases c.pivot <;> exact ⟨rfl, rfl, rfl, rfl, rfl⟩

theorem moved_dedupeOut (c : ComprSctx) : Moved c (env.dedupeOut c) 0 := by
  unfold dedupeOut
  cases c.pivot <;> exact ⟨rfl, rfl, rfl, rfl, rfl⟩

theorem SameQueue.moved {c₀ : ComprSctx} {e₀ : InmemExtent} {dedupe : Bool}
    (h : SameQueue c c₀) (hdone : env.finishExtent c₀ e₀ dedupe = .done e c') :
    Moved c c' e₀.length ∧ e.length = e₀.length := by
  cases hdone
  exact ⟨⟨h.queue, congrArg (· + e₀.length) h.head, h.remaining, h.pclustersize,
    h.fixDedupedfrag⟩, rfl⟩

/-- A step of `z_erofs_compress_dedupe` stays inside the queue. -/
theorem MatchTaken.moved {cur : ℕ} (h : MatchTaken env c (c.tail - c.head) cur e)
    (hq : InQueue env c) : InQueue env (env.takeMatch c (c.head - cur) e) ∧
      c.Later (env.takeMatch c (c.head - cur) e) ∧
      (env.takeMatch c (c.head - cur) e).tail - (env.takeMatch c (c.head - cur) e).head =
        c.tail - c.head - (e.length - (c.head - cur)) := by
  have hm := @moved_takeMatch env c (c.head - cur) e
  obtain ⟨hcur, hend⟩ := zErofsDedupeMatch_le_end h.found
  have hn : e.length - (c.head - cur) ≤ c.tail - c.head := by omega
  refine ⟨hm.inQueue hq hn, hm.later, ?_⟩
  rw [hm.tail, hm.head]
  omega

/-- The search has taken its bytes from the queue, and the pivot is committed. -/
theorem Deduped.left (h : Deduped env c len false c' len') (hq : InQueue env c)
    (hlen : len = c.tail - c.head) : len' = c'.tail - c'.head ∧ c'.pivot = .none := by
  generalize hb : false = b at h
  induction h with
  | out c len =>
      have hm := @moved_dedupeOut env c
      refine ⟨?_, rfl⟩
      rw [hm.tail, hm.head, hlen, Nat.add_zero]
  | refill htaken hrefill => cases hb
  | more htaken hrefill hrun ih =>
      subst hlen
      obtain ⟨hq, -, hleft⟩ := htaken.moved hq
      have heq := (zErofsNeedRefill_false hrefill).1
      exact ih (hq.noRefill hrefill).1.toInQueue (by rw [matched, heq, hleft]) hb

theorem Deduped.inside (h : Deduped env c len false c' len') (hi : Inside env c)
    (hpivot : c.pivot ≠ .none) (hlen : len = c.tail - c.head) :
    Inside env c' ∧ c.Later c' := by
  generalize hb : false = b at h
  induction h with
  | out c len =>
      have hm := @moved_dedupeOut env c
      refine ⟨⟨hm.inQueue hi.toInQueue (Nat.zero_le _), ?_⟩, hm.later⟩
      rw [hm.remaining, hm.head]
      intro hne
      exact Or.inl ((hi.head_lt hne).resolve_right fun h => hpivot h.1)
  | refill htaken hrefill => cases hb
  | more htaken hrefill hrun ih =>
      subst hlen
      obtain ⟨hq, hlater, hleft⟩ := htaken.moved hi.toInQueue
      obtain ⟨hi', hlater'⟩ := hq.noRefill hrefill
      have heq := (zErofsNeedRefill_false hrefill).1
      obtain ⟨h1, h2⟩ := ih hi' (by rw [matched, heq]; exact nofun)
        (by rw [matched, heq, hleft]) hb
      exact ⟨h1, (hlater.trans hlater').trans h2⟩

theorem Deduped.between (h : Deduped env c len true c' len') (hq : InQueue env c)
    (hv : SizesValid env) (hlen : len = c.tail - c.head) : Between env c' ∧ c.Later c' := by
  generalize hb : true = b at h
  induction h with
  | out c len => cases hb
  | refill htaken hrefill =>
      subst hlen
      obtain ⟨hq, hlater, -⟩ := htaken.moved hq
      obtain ⟨hbetween, hlater'⟩ := hq.refill hv hrefill
      exact ⟨hbetween, hlater.trans hlater'⟩
  | more htaken hrefill hrun ih =>
      subst hlen
      obtain ⟨hq, hlater, hleft⟩ := htaken.moved hq
      obtain ⟨hi', hlater'⟩ := hq.noRefill hrefill
      have heq := (zErofsNeedRefill_false hrefill).1
      obtain ⟨h1, h2⟩ := ih hi'.toInQueue (by rw [matched, heq, hleft]) hb
      exact ⟨h1, (hlater.trans hlater').trans h2⟩

theorem zErofsCompressDedupe_left
    (h : env.zErofsCompressDedupe c (c.tail - c.head) = .ok (false, c', len'))
    (hq : InQueue env c) : len' = c'.tail - c'.head ∧ c'.pivot = .none := by
  unfold zErofsCompressDedupe at h
  split_ifs at h with hpivot
  · cases h
    exact ⟨rfl, hpivot⟩
  · cases h
    exact (Deduped.out c _).left hq rfl
  · exact (zErofsCompressDedupeLoop_deduped h).left hq rfl

theorem zErofsCompressDedupe_inside
    (h : env.zErofsCompressDedupe c (c.tail - c.head) = .ok (false, c', len'))
    (hi : Inside env c) : Inside env c' ∧ c.Later c' := by
  unfold zErofsCompressDedupe at h
  split_ifs at h with hpivot
  · cases h
    exact ⟨hi, .refl c⟩
  · cases h
    exact (Deduped.out c _).inside hi hpivot rfl
  · exact (zErofsCompressDedupeLoop_deduped h).inside hi hpivot rfl

theorem zErofsCompressDedupe_between
    (h : env.zErofsCompressDedupe c (c.tail - c.head) = .ok (true, c', len'))
    (hq : InQueue env c) (hv : SizesValid env) : Between env c' ∧ c.Later c' := by
  unfold zErofsCompressDedupe at h
  split_ifs at h
  · cases h
  · cases h
  · exact (zErofsCompressDedupeLoop_deduped h).between hq hv rfl

/-- The encoder asks for more data with room in the queue, or takes the fragment back. -/
theorem AsksMore.between (h : AsksMore env c c') (hi : Inside env c) (hpivot : c.pivot = .none) :
    Between env c' ∧ c.Later c' := by
  have hb := env.sbi.blksz_pos
  have hle := hi.head_le
  have hmax : erofsConfigComprMaxSz = 4096000 := rfl
  have hqueue : zErofsComprQueueSz = 8192000 := rfl
  have hpcl : pclusterMaxSize = 1048576 := rfl
  cases h with
  | data hlen hmore =>
      refine ⟨⟨hi.toInQueue, fun hne => Or.inl ?_⟩, .refl c⟩
      have hsize := hi.size_le
      have hhead : c.head < erofsConfigComprMaxSz :=
        (hi.head_lt hne).resolve_right fun h => Nat.not_lt.mpr hlen h.2
      exact ⟨hhead, by omega⟩
  | short hlen hpos hend hfrag hfix =>
      have hup := roundUp_le_of_dvd hb hi.size_dvd hlen
      refine ⟨⟨⟨hle, hi.tail_le, dvd_roundUp _ _, hup.trans hi.size_le⟩, fun _ => Or.inr ?_⟩,
        Or.inl ⟨hfix, rfl⟩⟩
      exact ⟨rfl, hpivot, Or.inl (le_roundUp hb)⟩
  | @unfilled z hpos hz hsize hpart hroom hend hfrag =>
      have hup := roundUp_le_of_dvd hb hi.size_dvd hsize
      have hne : z ≠ c.pclustersize := by
        rintro rfl
        exact hpart (Nat.mod_eq_zero_of_dvd hi.size_dvd)
      obtain ⟨-, hfix⟩ := hfrag (lt_of_le_of_ne hsize hne)
      refine ⟨⟨⟨hle, hi.tail_le, dvd_roundUp _ _, hup.trans hi.size_le⟩, fun _ => Or.inr ?_⟩,
        Or.inl ⟨hfix, rfl⟩⟩
      exact ⟨rfl, hpivot, Or.inr hroom⟩

theorem moved_pivot (c : ComprSctx) (p : Pivot) : Moved c { c with pivot := p } 0 :=
  ⟨rfl, rfl, rfl, rfl, rfl⟩

theorem zErofsFixupDedupedFragment_true
    (h : (env.zErofsFixupDedupedFragment c len).1 = true) (hq : InQueue env c) :
    Between env (env.zErofsFixupDedupedFragment c len).2 ∧
      c.Later (env.zErofsFixupDedupedFragment c len).2 := by
  unfold zErofsFixupDedupedFragment at h ⊢
  dsimp only at h ⊢
  split_ifs at h ⊢
  refine ⟨⟨⟨le_rfl, hq.tail_le, hq.size_dvd, hq.size_le⟩, fun hne => absurd rfl hne⟩, ?_⟩
  refine Or.inr ⟨rfl, Nat.zero_le _, ?_⟩
  unfold ComprSctx.left
  change 0 + (c.tail - c.tail) ≤ _
  omega

theorem zErofsFixupDedupedFragment_false
    (h : (env.zErofsFixupDedupedFragment c len).1 = false) (hq : InQueue env c)
    (hv : SizesValid env) :
    InQueue env (env.zErofsFixupDedupedFragment c len).2 ∧
      c.Later (env.zErofsFixupDedupedFragment c len).2 ∧
      (env.zErofsFixupDedupedFragment c len).2.queue = c.queue ∧
      (env.zErofsFixupDedupedFragment c len).2.head = c.head := by
  unfold zErofsFixupDedupedFragment at h ⊢
  dsimp only at h ⊢
  split_ifs at h ⊢
  refine ⟨⟨hq.head_le, hq.tail_le, ?_, ?_⟩, Or.inr ⟨rfl, le_rfl, le_rfl⟩, rfl, rfl⟩
  · change env.sbi.blksz ∣ min _ _
    rcases min_choice (env.maxPclustersize c)
      (roundUp (u32 (c.remaining + len) - c.fragmentSize) env.sbi.blksz) with h | h
    · rw [h]
      exact hv.max_dvd c
    · rw [h]
      exact dvd_roundUp _ _
  · exact (Nat.min_le_left _ _).trans (hv.max_le c)

theorem afterExtent_between (h : (env.afterExtent e c len).1 = true) (hq : InQueue env c)
    (hv : SizesValid env) :
    Between env (env.afterExtent e c len).2 ∧ c.Later (env.afterExtent e c len).2 := by
  have hm := moved_pivot c (.item e)
  have hq' := hm.inQueue hq (Nat.zero_le _)
  unfold afterExtent at h ⊢
  dsimp only at h ⊢
  split_ifs at h ⊢ with hfix hstop
  · obtain ⟨h1, h2⟩ := zErofsFixupDedupedFragment_true hstop hq'
    exact ⟨h1, hm.later.trans h2⟩
  · obtain ⟨h1, h2, -⟩ :=
      zErofsFixupDedupedFragment_false (Bool.eq_false_iff.mpr hstop) hq' hv
    obtain ⟨h3, h4⟩ := h1.refill hv h
    exact ⟨h3, (hm.later.trans h2).trans h4⟩
  · obtain ⟨h3, h4⟩ := hq'.refill hv h
    exact ⟨h3, hm.later.trans h4⟩

theorem afterExtent_inside (h : (env.afterExtent e c len).1 = false) (hq : InQueue env c)
    (hv : SizesValid env) :
    Inside env (env.afterExtent e c len).2 ∧ c.Later (env.afterExtent e c len).2 ∧
      (env.afterExtent e c len).2.tail - (env.afterExtent e c len).2.head = c.tail - c.head := by
  have hm := moved_pivot c (.item e)
  have hq' := hm.inQueue hq (Nat.zero_le _)
  unfold afterExtent at h ⊢
  dsimp only at h ⊢
  split_ifs at h ⊢ with hfix hstop
  · rw [hstop] at h
    cases h
  · obtain ⟨h1, h2, hqueue, hhead⟩ :=
      zErofsFixupDedupedFragment_false (Bool.eq_false_iff.mpr hstop) hq' hv
    obtain ⟨h3, h4⟩ := h1.noRefill h
    refine ⟨h3, (hm.later.trans h2).trans h4, ?_⟩
    rw [(zErofsNeedRefill_false h).1, ComprSctx.tail, hqueue, hhead]
    rfl
  · obtain ⟨h3, h4⟩ := hq'.noRefill h
    refine ⟨h3, hm.later.trans h4, ?_⟩
    rw [(zErofsNeedRefill_false h).1]
    rfl

theorem OneRun.between (h : OneRun env c len c') (hi : Inside env c) (hv : SizesValid env)
    (hlen : len = c.tail - c.head) : Between env c' ∧ c.Later c' := by
  induction h with
  | empty c =>
      refine ⟨⟨hi.toInQueue, fun hne => Or.inl ?_⟩, .refl c⟩
      have hhead : c.head < erofsConfigComprMaxSz :=
        (hi.head_lt hne).resolve_right fun h => by omega
      have hmax : erofsConfigComprMaxSz = 4096000 := rfl
      have hqueue : zErofsComprQueueSz = 8192000 := rfl
      exact ⟨hhead, by omega⟩
  | refilled _ hdedupe =>
      subst hlen
      exact zErofsCompressDedupe_between hdedupe hi.toInQueue hv
  | more _ hdedupe hone =>
      subst hlen
      obtain ⟨hi₁, hlater⟩ := zErofsCompressDedupe_inside hdedupe hi
      have hpivot := (zErofsCompressDedupe_left hdedupe hi.toInQueue).2
      obtain ⟨hbetween, hlater'⟩ := AsksMore.between hone hi₁ hpivot
      exact ⟨hbetween, hlater.trans hlater'⟩
  | last _ hdedupe hone hstop =>
      subst hlen
      obtain ⟨hi₁, hlater⟩ := zErofsCompressDedupe_inside hdedupe hi
      obtain ⟨c₀, e₀, dedupe, hsame, hkind, -, hdone⟩ := hone
      obtain ⟨hm, -⟩ := hsame.moved hdone
      obtain ⟨hbetween, hlater'⟩ :=
        afterExtent_between hstop (hm.inQueue hi₁.toInQueue hkind.length_le) hv
      exact ⟨hbetween, (hlater.trans hm.later).trans hlater'⟩
  | next _ hdedupe hone hstop hrun ih =>
      subst hlen
      obtain ⟨hi₁, hlater⟩ := zErofsCompressDedupe_inside hdedupe hi
      have hleft := (zErofsCompressDedupe_left hdedupe hi.toInQueue).1
      obtain ⟨c₀, e₀, dedupe, hsame, hkind, -, hdone⟩ := hone
      obtain ⟨hm, heq⟩ := hsame.moved hdone
      obtain ⟨hi₂, hlater', hsub⟩ :=
        afterExtent_inside hstop (hm.inQueue hi₁.toInQueue hkind.length_le) hv
      have hlen₂ := hm.tail
      have hhead₂ := hm.head
      obtain ⟨h1, h2⟩ := ih hi₂ (by rw [hsub, hlen₂, hhead₂, hleft, heq]; omega)
      exact ⟨h1, ((hlater.trans hm.later).trans hlater').trans h2⟩

/-- The bytes that a fragment gives back fit into the queue, or leave enough behind its head to go
on. -/
def Room (c : ComprSctx) : Prop :=
  c.remaining ≤ zErofsComprQueueSz - c.tail ∨ c.pclustersize < zErofsComprQueueSz - c.head

inductive TurnReach (env : ComprEnv) (c₀ : ComprSctx) : ComprSctx → Prop
  | start : TurnReach env c₀ c₀
  | turn {c c' : ComprSctx} (h : TurnReach env c₀ c) (hmore : c.remaining ≠ 0)
      (hturn : env.segmentTurn c = .ok c') : TurnReach env c₀ c'

def ReadsAll (env : ComprEnv) : Prop := ∀ c n, ∃ b, (env.read c n).1 = some b ∧ b.length = n

theorem ReadsAll.readCount (h : ReadsAll env) (c : ComprSctx) (n : ℕ) :
    ErofsUtils.readCount (env.read c n).1 = n := by
  obtain ⟨b, hb, hlen⟩ := h c n
  rw [hb]
  exact congrArg Nat.cast hlen

theorem Between.room (hb : Between env c) (hne : c.remaining ≠ 0)
    (hroom : c.fixDedupedfrag = true → Room c) : c.tail < zErofsComprQueueSz := by
  have hle := hb.head_le
  rcases hb.head_lt hne with ⟨-, hlt⟩ | hback
  · exact hlt
  · rcases hback.room with hsize | hlt
    · rcases hroom hback.fix with h | h
      · omega
      · omega
    · exact hlt

theorem tail_afterRead
    (hread : ∃ b, (env.read c (readSize c)).1 = some b ∧ b.length = readSize c) :
    (env.afterRead c).tail = c.tail + readSize c := by
  obtain ⟨b, hb, hlen⟩ := hread
  unfold ComprSctx.tail afterRead
  rw [List.length_append, hb, Option.getD_some, hlen]

theorem InQueue.afterRead (hq : InQueue env c)
    (hread : ∃ b, (env.read c (readSize c)).1 = some b ∧ b.length = readSize c) :
    InQueue env (env.afterRead c) := by
  have htail := tail_afterRead hread
  refine ⟨?_, ?_, hq.size_dvd, hq.size_le⟩
  · rw [htail]
    exact hq.head_le.trans (Nat.le_add_right _ _)
  · have hle := hq.tail_le
    rw [htail, readSize]
    omega

theorem Between.afterRead (hb : Between env c)
    (hread : ∃ b, (env.read c (readSize c)).1 = some b ∧ b.length = readSize c)
    (hne : c.remaining ≠ 0) (hroom : c.fixDedupedfrag = true → Room c) :
    Inside env (env.afterRead c) := by
  have htail := tail_afterRead hread
  have hle := hb.tail_le
  refine ⟨hb.toInQueue.afterRead hread, ?_⟩
  rw [htail, readSize]
  change c.remaining - min c.remaining (zErofsComprQueueSz - c.tail) ≠ 0 →
    c.head < erofsConfigComprMaxSz ∨ c.pivot = .none ∧ c.pclustersize <
      c.tail + min c.remaining (zErofsComprQueueSz - c.tail) - c.head
  intro hrest
  rcases hb.head_lt hne with ⟨hlt, -⟩ | hback
  · exact Or.inl hlt
  · rcases hroom hback.fix with h | h
    · omega
    · exact Or.inr ⟨hback.pivot, by omega⟩

theorem Between.turn (hb : Between env c) (hv : SizesValid env)
    (hne : c.remaining ≠ 0) (hroom : c.fixDedupedfrag = true → Room c)
    (h : env.segmentTurn c = .ok c') :
    Between env c' ∧ ((c.fixDedupedfrag = false ∧ c'.fixDedupedfrag = true) ∨
      (c'.fixDedupedfrag = c.fixDedupedfrag ∧ c'.left + c'.remaining < c.left + c.remaining)) := by
  have hlt := hb.room hne hroom
  obtain ⟨hread, hone⟩ := segmentTurn_ok h
  obtain ⟨hbetween, hlater⟩ := hone.between (hb.afterRead hread hne hroom) hv rfl
  refine ⟨hbetween, ?_⟩
  rcases hlater with hback | ⟨hfix, hrem, hleft⟩
  · exact Or.inl hback
  · refine Or.inr ⟨hfix, ?_⟩
    have htail := tail_afterRead hread
    have hle := hb.head_le
    have hrest : (env.afterRead c).remaining = c.remaining - readSize c := rfl
    have hhead : (env.afterRead c).head = c.head := rfl
    unfold ComprSctx.left at hleft ⊢
    rw [htail, hhead, hrest] at hleft
    rw [hrest] at hrem
    unfold readSize at hleft hrem
    omega

/-- When the bytes that were given back fit, they are all in the queue after the next turn. -/
theorem Between.turn_last (hb : Between env c) (hv : SizesValid env)
    (hne : c.remaining ≠ 0) (hfix : c.fixDedupedfrag = true)
    (hfits : c.remaining ≤ zErofsComprQueueSz - c.tail) (h : env.segmentTurn c = .ok c') :
    c'.remaining = 0 := by
  obtain ⟨hread, hone⟩ := segmentTurn_ok h
  obtain ⟨-, hlater⟩ := hone.between (hb.afterRead hread hne fun _ => Or.inl hfits) hv rfl
  have hrest : (env.afterRead c).remaining = 0 := by
    change c.remaining - readSize c = 0
    rw [readSize, min_eq_left hfits, Nat.sub_self]
  rcases hlater with ⟨hfalse, -⟩ | ⟨-, hrem, -⟩
  · change c.fixDedupedfrag = false at hfalse
    rw [hfix] at hfalse
    cases hfalse
  · omega

/-- A segment as its worker sets it up: the queue is empty, and no fragment was taken back. -/
structure SegmentStart (env : ComprEnv) (c : ComprSctx) : Prop where
  queue : c.queue = []
  head : c.head = 0
  fix : c.fixDedupedfrag = false
  size_dvd : env.sbi.blksz ∣ c.pclustersize
  size_le : c.pclustersize ≤ pclusterMaxSize

theorem SegmentStart.between (h : SegmentStart env c) : Between env c := by
  have htail : c.tail = 0 := by rw [ComprSctx.tail, h.queue, List.length_nil]
  refine ⟨⟨?_, ?_, h.size_dvd, h.size_le⟩, fun _ => Or.inl ⟨?_, ?_⟩⟩
  · rw [h.head]
    exact Nat.zero_le _
  · rw [htail]
    exact Nat.zero_le _
  · rw [h.head]
    decide
  · rw [htail]
    decide

/-- Bytes that come back have room in every state of the loop. -/
def RoomKept (env : ComprEnv) (c₀ : ComprSctx) : Prop :=
  ∀ c, TurnReach env c₀ c → c.remaining ≠ 0 → c.fixDedupedfrag = true → Room c

theorem TurnReach.between {c₀ : ComprSctx} (h : TurnReach env c₀ c) (hb : Between env c₀)
    (hv : SizesValid env) (hroom : RoomKept env c₀) : Between env c := by
  induction h with
  | start => exact hb
  | turn h hmore hturn ih => exact (ih.turn hv hmore (hroom _ h hmore) hturn).1

/-- From every state of the loop it takes some number of turns to the end. -/
theorem zErofsCompressSegment_returns {c₀ : ComprSctx} (hv : SizesValid env)
    (hb₀ : Between env c₀) (hroom : RoomKept env c₀) (c : ComprSctx)
    (hc : TurnReach env c₀ c) : ∃ fuel r, env.zErofsCompressSegment fuel c = some r := by
  by_cases hmore : c.remaining = 0
  · exact ⟨1, env.segmentEnd c, by rw [zErofsCompressSegment, if_pos hmore]⟩
  · cases hturn : env.segmentTurn c with
    | error err =>
        refine ⟨1, err, ?_⟩
        rw [zErofsCompressSegment, if_neg hmore, hturn]
    | ok c' =>
        have hb := hc.between hb₀ hv hroom
        have hdec := (hb.turn hv hmore (hroom c hc hmore) hturn).2
        obtain ⟨fuel, r, hr⟩ :=
          zErofsCompressSegment_returns hv hb₀ hroom c' (.turn hc hmore hturn)
        refine ⟨fuel + 1, r, ?_⟩
        rw [zErofsCompressSegment, if_neg hmore, hturn]
        exact hr
termination_by ((if c.fixDedupedfrag then 0 else 1 : ℕ), c.left + c.remaining)
decreasing_by
  rcases hdec with ⟨hfalse, htrue⟩ | ⟨hfix, hlt⟩
  · rw [hfalse, htrue]
    exact Prod.Lex.left _ _ Nat.zero_lt_one
  · rw [hfix]
    exact Prod.Lex.right _ hlt

section Stuck

/-- The bytes in the queue and those that come back are more than the queue holds, and fit into one
pcluster: the encoder asks for more data, and there is no room for them. -/
theorem afterRead_stuck (hread : ReadsAll env) (hle : c.tail ≤ zErofsComprQueueSz)
    (hroom : ¬ Room c) : (env.afterRead c).remaining ≠ 0 ∧
      (env.afterRead c).tail = zErofsComprQueueSz ∧
      (env.afterRead c).tail - (env.afterRead c).head ≤ (env.afterRead c).pclustersize := by
  unfold Room at hroom
  rw [not_or, Nat.not_le, Nat.not_lt] at hroom
  have htail : (env.afterRead c).tail = zErofsComprQueueSz := by
    rw [tail_afterRead (hread c _), readSize]
    omega
  refine ⟨?_, htail, ?_⟩
  · change c.remaining - readSize c ≠ 0
    unfold readSize
    omega
  · rw [htail]
    exact hroom.2

/-- Without a pivot there is nothing to do but to ask for more. -/
theorem zErofsCompressOne_of_more {c₁ : ComprSctx} (h0 : len ≠ 0)
    (hdedupe : env.zErofsCompressDedupe c len = .ok (false, c₁, len'))
    (hitem : env.fault .allocItem c₁ = none)
    (hone : env.zErofsCompressOneExtent c₁ = .ok (.more c')) :
    env.zErofsCompressOne c len = .ok c' := by
  rw [zErofsCompressOne.eq_1, if_neg h0]
  split
  · next h => rw [hdedupe] at h; cases h
  · next h => rw [hdedupe] at h; cases h
  · next h =>
      rw [hdedupe] at h
      cases h
      rw [hitem]
      dsimp only
      split
      · next h => rw [hone] at h; cases h
      · next h => rw [hone] at h; cases h; rfl
      · next h => rw [hone] at h; cases h

theorem zErofsCompressOne_of_next {c₁ c₂ : ComprSctx} (h0 : len ≠ 0)
    (hdedupe : env.zErofsCompressDedupe c len = .ok (false, c₁, len'))
    (hitem : env.fault .allocItem c₁ = none)
    (hone : env.zErofsCompressOneExtent c₁ = .ok (.done e c₂))
    (hstop : env.afterExtent e c₂ (len' - e.length) = (false, c')) :
    env.zErofsCompressOne c len = env.zErofsCompressOne c' (len' - e.length) := by
  rw [zErofsCompressOne.eq_1 env c, if_neg h0]
  split
  · next h => rw [hdedupe] at h; cases h
  · next h => rw [hdedupe] at h; cases h
  · next h =>
      rw [hdedupe] at h
      cases h
      rw [hitem]
      dsimp only
      split
      · next h => rw [hone] at h; cases h
      · next h => rw [hone] at h; cases h
      · next h =>
          rw [hone] at h
          cases h
          rw [hstop, if_neg Bool.false_ne_true]

theorem zErofsCompressDedupe_none (hpivot : c.pivot = .none) :
    env.zErofsCompressDedupe c len = .ok (false, c, len) := by
  rw [zErofsCompressDedupe, if_pos hpivot]

theorem segmentTurn_of_reads (hread : ReadsAll env) (c : ComprSctx) : env.segmentTurn c =
    match env.zErofsCompressOne (env.afterRead c)
      ((env.afterRead c).tail - (env.afterRead c).head) with
    | .error e => .error (.failed e)
    | .ok c => .ok c :=
  if_neg (not_not.mpr (hread.readCount c _))

theorem segmentTurn_stuck (hread : ReadsAll env) (hitem : ∀ c, env.fault .allocItem c = none)
    (hle : c.tail ≤ zErofsComprQueueSz) (hpivot : c.pivot = .none) (hroom : ¬ Room c) :
    env.segmentTurn c = .ok (env.afterRead c) := by
  obtain ⟨hne, -, hlen⟩ := afterRead_stuck hread hle hroom
  have hpivot' : (env.afterRead c).pivot = .none := hpivot
  have hone : env.zErofsCompressOne (env.afterRead c)
      ((env.afterRead c).tail - (env.afterRead c).head) = .ok (env.afterRead c) := by
    by_cases h0 : (env.afterRead c).tail - (env.afterRead c).head = 0
    · rw [h0, zErofsCompressOne.eq_1, if_pos rfl]
    · apply zErofsCompressOne_of_more h0 (zErofsCompressDedupe_none hpivot') (hitem _)
      unfold zErofsCompressOneExtent
      dsimp only
      rw [if_pos hlen, if_pos (Or.inl hne)]
  rw [segmentTurn_of_reads hread, hone]

theorem zErofsCompressSegment_stuck (hread : ReadsAll env)
    (hitem : ∀ c, env.fault .allocItem c = none) (hfull : c.tail = zErofsComprQueueSz)
    (hpivot : c.pivot = .none) (hne : c.remaining ≠ 0)
    (hlen : c.tail - c.head ≤ c.pclustersize) (fuel : ℕ) :
    env.zErofsCompressSegment fuel c = none := by
  induction fuel generalizing c with
  | zero => rfl
  | succ fuel ih =>
      have hsize : readSize c = 0 := by
        rw [readSize, hfull, Nat.sub_self, Nat.min_zero]
      have hroom : ¬ Room c := by
        unfold Room
        rw [hfull] at hlen ⊢
        omega
      have htail : (env.afterRead c).tail = c.tail := by
        rw [tail_afterRead (hread c _), hsize, Nat.add_zero]
      rw [zErofsCompressSegment, if_neg hne, segmentTurn_stuck hread hitem hfull.le hpivot hroom]
      apply ih (htail.trans hfull) hpivot
      · change c.remaining - readSize c ≠ 0
        rwa [hsize, Nat.sub_zero]
      · rw [htail]
        exact hlen

/-- A segment that always has room for what it asks for has room for what a fragment gives
back. -/
theorem TurnReach.room {c₀ : ComprSctx} (hc : TurnReach env c₀ c) (hb : Between env c)
    (hread : ReadsAll env) (hitem : ∀ c, env.fault .allocItem c = none)
    (hall : ∀ c, TurnReach env c₀ c → c.remaining ≠ 0 → c.tail < zErofsComprQueueSz)
    (hne : c.remaining ≠ 0) : Room c := by
  by_contra hroom
  have hpivot : c.pivot = .none := by
    rcases hb.head_lt hne with ⟨hhead, -⟩ | hback
    · have hsize := hb.size_le
      have hmax : erofsConfigComprMaxSz = 4096000 := rfl
      have hqueue : zErofsComprQueueSz = 8192000 := rfl
      have hpcl : pclusterMaxSize = 1048576 := rfl
      exact absurd (Or.inr (by omega)) hroom
    · exact hback.pivot
  have hturn := segmentTurn_stuck hread hitem hb.tail_le hpivot hroom
  obtain ⟨hne', hfull, -⟩ := afterRead_stuck hread hb.tail_le hroom
  exact absurd hfull (hall _ (.turn hc hne hturn) hne').ne

theorem roomKept_of_room {c₀ : ComprSctx} (hv : SizesValid env) (hread : ReadsAll env)
    (hitem : ∀ c, env.fault .allocItem c = none) (hb₀ : Between env c₀)
    (hall : ∀ c, TurnReach env c₀ c → c.remaining ≠ 0 → c.tail < zErofsComprQueueSz) :
    RoomKept env c₀ := by
  have hbetween : ∀ c, TurnReach env c₀ c → Between env c := by
    intro c hc
    induction hc with
    | start => exact hb₀
    | turn h hmore hturn ih =>
        have hroom := h.room ih hread hitem hall hmore
        exact (ih.turn hv hmore (fun _ => hroom) hturn).1
  intro c hc hne _
  exact hc.room (hbetween c hc) hread hitem hall hne

end Stuck

/-- The loop over a segment ends and has room for the bytes it asks for. -/
def SegmentEnds (env : ComprEnv) (c₀ : ComprSctx) : Prop :=
  (∃ fuel r, env.zErofsCompressSegment fuel c₀ = some r) ∧
    ∀ c, TurnReach env c₀ c → c.remaining ≠ 0 → c.tail < zErofsComprQueueSz

/-- The loop ends in every run in which the bytes that a fragment gives back have room, and only
in those if no allocation fails. -/
theorem segmentEnds_of_room {c₀ : ComprSctx} (hv : SizesValid env) (hread : ReadsAll env)
    (hstart : SegmentStart env c₀) :
    (RoomKept env c₀ → SegmentEnds env c₀) ∧
      ((∀ c, env.fault .allocItem c = none) → SegmentEnds env c₀ → RoomKept env c₀) := by
  have hb := hstart.between
  refine ⟨fun hroom => ⟨zErofsCompressSegment_returns hv hb hroom c₀ .start, ?_⟩,
    fun hitem hends => roomKept_of_room hv hread hitem hb hends.2⟩
  intro c hc hne
  exact (hc.between hb hv hroom).room hne (hroom c hc hne)

section Instances

theorem zErofsCompressDedupe_off (hw : c.table.windowSize = 0) (hp : c.pivot ≠ .none) :
    env.zErofsCompressDedupe c len = .ok (false, env.dedupeOut c, len) := by
  rw [zErofsCompressDedupe, if_neg hp]
  split_ifs
  · rfl
  · rw [zErofsCompressDedupeLoop.eq_1]
    split
    · rfl
    · next h => simp [zErofsDedupeMatch, hw] at h

/-- A compressor that makes a byte of everything it is given, and a file of zeros. -/
def zeroEnv : ComprEnv where
  sbi := ⟨12, 5, 0, true⟩
  zLogicalClusterbits := 12
  packedInode := false
  lastSegment := true
  cFragments := true
  cZtailpacking := false
  mtEnabled := false
  maxDecompressedExtentBytes := 8191000
  maxPclustersize _ := 65536
  qaddr := 0
  read c n := (some (List.replicate n 0), c.fd)
  errnoAfter _ := 0
  fault _ _ := none
  dedupeAlloc _ := none
  packedOffset _ := 0
  compressDestsize _ insize dstsize :=
    if insize = 0 ∨ dstsize = 0 then .error .einval else .ok (insize, 1)
  compresses := by
    intro c insize dstsize n z h
    split_ifs at h with h0
    cases h
    omega

/-- A segment of `remaining` bytes in front of a deduplicated fragment. -/
def zeroStart (remaining fragmentSize : ℕ) : ComprSctx :=
  ⟨[], 0, remaining, 65536, 0, 10, .dummy, [], false, false, fragmentSize, 0, .compressedFull,
    false, none, none, zErofsDedupeInit 0, ⟨0, 0, 0⟩, none⟩

theorem zeroEnv_readsAll : ReadsAll zeroEnv := fun _ _ => ⟨_, rfl, List.length_replicate⟩

theorem zeroEnv_sizesValid : SizesValid zeroEnv :=
  ⟨by decide, fun _ => (by decide : 4096 ∣ 65536), fun _ => (by decide : 65536 ≤ 1048576)⟩

theorem zeroStart_segmentStart (remaining fragmentSize : ℕ) :
    SegmentStart zeroEnv (zeroStart remaining fragmentSize) :=
  ⟨rfl, rfl, rfl, (by decide : 4096 ∣ 65536), (by decide : 65536 ≤ 1048576)⟩

theorem zErofsCompressOne_short (hw : c.table.windowSize = 0)
    (hlen : c.tail - c.head ≤ c.pclustersize) (hpos : c.tail - c.head ≠ 0)
    (hrem : c.remaining = 0) (hfrag : c.fragmentSize ≠ 0) (hfix : c.fixDedupedfrag = false)
    (hp : c.pivot ≠ .none) (hitem : ∀ c, env.fault .allocItem c = none) :
    env.zErofsCompressOne c (c.tail - c.head) =
      .ok (giveBack { env.dedupeOut c with
        pclustersize := roundUp (c.tail - c.head) env.sbi.blksz }) := by
  apply zErofsCompressOne_of_more hpos (zErofsCompressDedupe_off hw hp) (hitem _)
  obtain ⟨hqueue, hhead, hrem', hsize, hfix'⟩ := @moved_dedupeOut env c
  have hlen' : (env.dedupeOut c).tail - (env.dedupeOut c).head = c.tail - c.head := by
    rw [ComprSctx.tail, hqueue, hhead]
    rfl
  have hfrag' : (env.dedupeOut c).fragmentSize = c.fragmentSize := by
    unfold dedupeOut
    cases c.pivot <;> rfl
  unfold zErofsCompressOneExtent
  dsimp only
  rw [hlen', hsize, if_pos hlen, hrem', hfrag', hfix', if_neg (by omega), if_pos ⟨hfrag, by simp [hfix]⟩]

theorem zeroEnv_first (htail : c.tail = zErofsComprQueueSz) (hhead : c.head = 0)
    (hrem : c.remaining = 0) (hsize : c.pclustersize = 65536) (hw : c.table.windowSize = 0) :
    ∃ e c', zeroEnv.zErofsCompressOneExtent c = .ok (.done e c') ∧ e.length = 8191000 ∧
      Moved c c' 8191000 ∧ c'.fragmentSize = c.fragmentSize ∧ c'.table.windowSize = 0 := by
  have hpacking : zeroEnv.mayPacking c = true := by
    unfold mayPacking
    rw [hrem]
    rfl
  have hinline : zeroEnv.mayInline c = false := rfl
  have hret : zeroEnv.compressDestsize c 8191000 65536 = .ok (8191000, 1) := rfl
  have hmin : min (zErofsComprQueueSz - 0) zeroEnv.maxDecompressedExtentBytes = 8191000 := rfl
  have hgain : roundUp 1 zeroEnv.sbi.blksz * compressThreshold / 100 < 8191000 := by decide
  have hne : zErofsComprQueueSz - 0 ≠ 8191000 := by decide
  unfold zErofsCompressOneExtent
  dsimp only
  rw [htail, hhead, hsize, if_neg (by decide)]
  unfold compressExtent
  dsimp only
  rw [hmin, hsize, hret, hpacking, hinline]
  dsimp only
  rw [if_neg (by simpa using hgain), if_neg (fun h => hne h.2.1), if_neg (by simp),
    if_neg (fun h => hne h.2.1), if_neg (by simp)]
  refine ⟨_, _, rfl, rfl, ⟨rfl, rfl, rfl, rfl, rfl⟩, rfl, ?_⟩
  dsimp only
  split_ifs
  · unfold zErofsDedupeInsert
    rw [if_pos (Or.inl hw)]
    exact hw
  · exact hw

/-- The queue is full, and its last `1000` bytes are all that is left of it when the fragment comes
back. -/
theorem zeroEnv_turn : ∃ c, zeroEnv.segmentTurn (zeroStart zErofsComprQueueSz 100000) = .ok c ∧
    c.tail = zErofsComprQueueSz ∧ c.pivot = .none ∧ c.remaining = 100000 ∧
    c.tail - c.head ≤ c.pclustersize := by
  generalize hc : zeroEnv.afterRead (zeroStart zErofsComprQueueSz 100000) = c
  have htail : c.tail = zErofsComprQueueSz := by
    rw [← hc, tail_afterRead (zeroEnv_readsAll _ _)]
    rfl
  have hhead : c.head = 0 := by rw [← hc]; rfl
  have hrem : c.remaining = 0 := by rw [← hc]; rfl
  have hsize : c.pclustersize = 65536 := by rw [← hc]; rfl
  have hfrag : c.fragmentSize = 100000 := by rw [← hc]; rfl
  have hfix : c.fixDedupedfrag = false := by rw [← hc]; rfl
  have hw : c.table.windowSize = 0 := by rw [← hc]; rfl
  have hp : c.pivot = .dummy := by rw [← hc]; rfl
  have hout : zeroEnv.dedupeOut c = { c with pivot := .none } := by
    unfold dedupeOut
    rw [hp]
    rfl
  obtain ⟨e, c₁, hone, hlen, hm, hfrag₁, hw₁⟩ :=
    zeroEnv_first (c := { c with pivot := .none }) htail hhead hrem hsize hw
  have hrem₁ : c₁.remaining = 0 := hm.remaining.trans hrem
  have hhead₁ : c₁.head = 8191000 := by rw [hm.head, hhead]
  have htail₁ : c₁.tail = zErofsComprQueueSz := hm.tail.trans htail
  have hfix₁ : c₁.fixDedupedfrag = false := hm.fixDedupedfrag.trans hfix
  have hsize₁ : c₁.pclustersize = 65536 := hm.pclustersize.trans hsize
  have hafter : zeroEnv.afterExtent e c₁ (c.tail - c.head - e.length) =
      (false, { c₁ with pivot := .item e }) := by
    unfold afterExtent zErofsNeedRefill
    dsimp only
    rw [if_neg (by simp [hfix₁]), if_pos (Or.inl hrem₁)]
  have hrest : c.tail - c.head - e.length = c₁.tail - c₁.head := by
    rw [htail, hhead, hlen, htail₁, hhead₁]
    rfl
  rw [segmentTurn_of_reads zeroEnv_readsAll, hc, zErofsCompressOne_of_next (by rw [htail, hhead]; decide)
    (zErofsCompressDedupe_off hw (by rw [hp]; exact nofun)) rfl (hout ▸ hone) hafter, hrest]
  have hleft : c₁.tail - c₁.head = 1000 := by
    rw [htail₁, hhead₁]
    rfl
  have hshort : zeroEnv.zErofsCompressOne { c₁ with pivot := .item e } (c₁.tail - c₁.head) =
      .ok _ := @zErofsCompressOne_short zeroEnv { c₁ with pivot := .item e } hw₁
    (by change c₁.tail - c₁.head ≤ c₁.pclustersize; omega)
    (by change c₁.tail - c₁.head ≠ 0; omega) hrem₁
    (by change c₁.fragmentSize ≠ 0; rw [hfrag₁]; change c.fragmentSize ≠ 0; omega) hfix₁ nofun
    (fun _ => rfl)
  rw [hshort]
  refine ⟨_, rfl, htail₁, rfl, ?_, ?_⟩
  · change c₁.remaining + c₁.fragmentSize = 100000
    rw [hrem₁, hfrag₁]
    change 0 + c.fragmentSize = 100000
    omega
  · exact le_roundUp zeroEnv.sbi.blksz_pos

/-- With the last bytes of a file shared with a fragment and `8192000` bytes in front of them, the
loop does not end. -/
theorem segmentEnds_full :
    (∀ fuel, zeroEnv.zErofsCompressSegment fuel (zeroStart zErofsComprQueueSz 100000) = none) ∧
      ¬ SegmentEnds zeroEnv (zeroStart zErofsComprQueueSz 100000) := by
  obtain ⟨c, hturn, hfull, hpivot, hrem, hlen⟩ := zeroEnv_turn
  have hnone : ∀ fuel, zeroEnv.zErofsCompressSegment fuel (zeroStart zErofsComprQueueSz 100000) =
      none := by
    intro fuel
    cases fuel with
    | zero => rfl
    | succ fuel =>
        rw [zErofsCompressSegment, if_neg (by decide), hturn]
        exact zErofsCompressSegment_stuck zeroEnv_readsAll (fun _ => rfl) hfull hpivot (by omega)
          hlen fuel
  refine ⟨hnone, fun hends => ?_⟩
  obtain ⟨fuel, r, hr⟩ := hends.1
  rw [hnone fuel] at hr
  cases hr

/-- A small file with a fragment gives its bytes back in the first turn. -/
theorem zeroEnv_smallTurn : ∃ c, zeroEnv.segmentTurn (zeroStart 1000 500) = .ok c ∧
    c.tail = 1000 ∧ c.remaining = 500 ∧ c.fixDedupedfrag = true := by
  generalize hc : zeroEnv.afterRead (zeroStart 1000 500) = c
  have htail : c.tail = 1000 := by
    rw [← hc, tail_afterRead (zeroEnv_readsAll _ _)]
    rfl
  have hhead : c.head = 0 := by rw [← hc]; rfl
  have hrem : c.remaining = 0 := by rw [← hc]; rfl
  have hsize : c.pclustersize = 65536 := by rw [← hc]; rfl
  have hfrag : c.fragmentSize = 500 := by rw [← hc]; rfl
  have hp : c.pivot = .dummy := by rw [← hc]; rfl
  have hout := @moved_dedupeOut zeroEnv c
  have hshort := @zErofsCompressOne_short zeroEnv c (by rw [← hc]; rfl) (by omega) (by omega) hrem
    (by omega) (by rw [← hc]; rfl) (by rw [hp]; exact nofun) (fun _ => rfl)
  rw [segmentTurn_of_reads zeroEnv_readsAll, hc, hshort]
  refine ⟨_, rfl, hout.tail.trans htail, ?_, rfl⟩
  change (zeroEnv.dedupeOut c).remaining + (zeroEnv.dedupeOut c).fragmentSize = 500
  unfold dedupeOut
  rw [hp]
  change c.remaining + c.fragmentSize = 500
  omega

theorem segmentEnds_of_room_small : SegmentEnds zeroEnv (zeroStart 1000 500) := by
  have hb := (zeroStart_segmentStart 1000 500).between
  obtain ⟨c₁, hturn, htail, hrem, hfix⟩ := zeroEnv_smallTurn
  have hqueue : zErofsComprQueueSz = 8192000 := rfl
  have hroom₁ : Room c₁ := Or.inl (by omega)
  have hb₁ := (hb.turn zeroEnv_sizesValid (by decide) nofun hturn).1
  have hreach : ∀ c, TurnReach zeroEnv (zeroStart 1000 500) c →
      c = zeroStart 1000 500 ∨ c = c₁ ∨ c.remaining = 0 := by
    intro c hc
    induction hc with
    | start => exact Or.inl rfl
    | turn h hmore hstep ih =>
        rcases ih with rfl | rfl | h0
        · rw [hturn] at hstep
          cases hstep
          exact Or.inr (Or.inl rfl)
        · exact Or.inr (Or.inr (hb₁.turn_last zeroEnv_sizesValid hmore hfix
            (by omega) hstep))
        · exact absurd h0 hmore
  refine (segmentEnds_of_room zeroEnv_sizesValid zeroEnv_readsAll
    (zeroStart_segmentStart 1000 500)).1 ?_
  intro c hc hne hfix'
  rcases hreach c hc with rfl | rfl | h0
  · cases hfix'
  · exact hroom₁
  · exact absurd h0 hne

end Instances

end ComprEnv

end ErofsUtils
