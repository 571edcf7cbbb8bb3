import ErofsUtils.ComprProgress

/-!
# A segment that ends early

No byte of a segment is lost between the file, the queue and the extents, so that the extents of a
whole run cover it. When a read comes up short, the loop returns `-errno`, which may be zero.
-/

namespace ErofsUtils

namespace ComprSctx

def covered (c : ComprSctx) : ℕ := (c.extents.map InmemExtent.length).sum

def taken (c : ComprSctx) : ℕ := c.covered + c.pivot.extent.length

end ComprSctx

namespace ComprEnv

variable (env : ComprEnv)

/-- The bytes of a deduplicated fragment, which the segment leaves out. -/
def owed (c : ComprSctx) : ℕ :=
  if env.lastSegment ∧ ¬ c.fixDedupedfrag ∧ ¬ c.fragemitted then c.fragmentSize else 0

def bytes (c : ComprSctx) : ℕ := c.taken + (c.tail - c.head) + c.remaining + env.owed c

def atEnd (c : ComprSctx) : ℕ :=
  c.taken + if env.lastSegment ∧ ¬ c.fragemitted then u32 c.fragmentSize else 0

/-- No byte of the segment is lost; `frag` bytes of it are in a deduplicated fragment, which only
the last segment has. -/
structure Kept (need frag : ℕ) (c : ComprSctx) : Prop extends InQueue env c where
  bytes : env.bytes c = need
  emitted : c.fragemitted = true → c.remaining = 0 ∧ c.head = c.tail
  fragment : c.fragemitted = false → c.fragmentSize = frag
  fix : c.fixDedupedfrag = true → c.remaining ≤ frag
  last : frag ≠ 0 → env.lastSegment = true

/-- The state behind a turn. The length of the last extent has 32 bits. -/
structure Turned (need frag : ℕ) (c : ComprSctx) : Prop where
  more : c.remaining ≠ 0 → Kept env need frag c
  last : c.remaining = 0 → frag + zErofsComprQueueSz < 2 ^ 32 → need ≤ env.atEnd c

section Steps

variable {env} {c c' : ComprSctx} {e : InmemExtent} {len len' need frag n : ℕ}

theorem covered_zErofsCommitExtent (c : ComprSctx) (p : Pivot) :
    (env.zErofsCommitExtent c p).covered = c.covered + p.extent.length := by
  cases p with
  | none => rfl
  | dummy => rfl
  | item e =>
      unfold zErofsCommitExtent ComprSctx.covered
      simp [Pivot.extent]

/-- `n` bytes move from the head of the queue to the extents. -/
structure Flows (c c' : ComprSctx) (n : ℕ) : Prop extends Moved c c' n where
  taken : c'.taken = c.taken + n
  fragmentSize : c'.fragmentSize = c.fragmentSize
  fragemitted : c'.fragemitted = c.fragemitted

theorem Flows.owed (h : Flows c c' n) : env.owed c' = env.owed c := by
  unfold ComprEnv.owed
  rw [h.fixDedupedfrag, h.fragemitted, h.fragmentSize]

theorem Flows.kept (h : Flows c c' n) (hk : Kept env need frag c) (hn : n ≤ c.tail - c.head) :
    Kept env need frag c' := by
  have hle := hk.head_le
  refine ⟨h.toMoved.inQueue hk.toInQueue hn, ?_, ?_, ?_, ?_, hk.last⟩
  · have hbytes := hk.bytes
    unfold ComprEnv.bytes at hbytes ⊢
    rw [h.owed, h.taken, h.toMoved.tail, h.head, h.remaining]
    omega
  · intro hemit
    rw [h.fragemitted] at hemit
    obtain ⟨hrem, hend⟩ := hk.emitted hemit
    rw [h.remaining, h.toMoved.tail, h.head]
    exact ⟨hrem, by omega⟩
  · intro hemit
    rw [h.fragemitted] at hemit
    exact h.fragmentSize.trans (hk.fragment hemit)
  · intro hfix
    rw [h.fixDedupedfrag] at hfix
    exact h.remaining.trans_le (hk.fix hfix)

theorem flows_dedupeOut (c : ComprSctx) : Flows c (env.dedupeOut c) 0 := by
  have htaken : (env.dedupeOut c).taken = c.taken := by
    have hcov := @covered_zErofsCommitExtent env c c.pivot
    unfold ComprSctx.taken
    change (env.zErofsCommitExtent c c.pivot).covered + 0 = _
    rw [hcov, Nat.add_zero]
  refine ⟨moved_dedupeOut c, htaken, ?_, ?_⟩ <;> unfold dedupeOut <;> cases c.pivot <;> rfl

theorem MatchTaken.delta_le {cur : ℕ} (h : MatchTaken env c len cur e) :
    c.head - cur ≤ c.pivot.extent.length := by
  obtain ⟨-, -, -, it, hfound⟩ := zErofsDedupeMatch_found h.found
  have hstart := hfound.start_le
  unfold dedupeStart at hstart
  split_ifs at hstart <;> omega

theorem taken_takeMatch {delta : ℕ} (hdelta : delta ≤ c.pivot.extent.length)
    (hlen : delta ≤ e.length) :
    (env.takeMatch c delta e).taken = c.taken + (e.length - delta) := by
  obtain ⟨p, hshort, htaken⟩ : ∃ p : Pivot,
      p.extent.length = c.pivot.extent.length - delta ∧
      (env.takeMatch c delta e).taken = (env.zErofsCommitExtent c p).covered + e.length := by
    cases hc : c.pivot with
    | none => exact ⟨.none, (Nat.zero_sub delta).symm, by unfold takeMatch; rw [hc]; rfl⟩
    | dummy => exact ⟨.dummy, (Nat.zero_sub delta).symm, by unfold takeMatch; rw [hc]; rfl⟩
    | item ei =>
        refine ⟨.item (if delta ≠ 0 then
          { ei with partialRef := true, length := ei.length - delta } else ei), ?_, ?_⟩
        · dsimp only [Pivot.extent]
          split_ifs with h0
          · rfl
          · rw [not_not.mp h0, Nat.sub_zero]
        · unfold takeMatch
          rw [hc]
          rfl
  have hcov := @covered_zErofsCommitExtent env c p
  rw [htaken, hcov, hshort, ComprSctx.taken]
  omega

theorem MatchTaken.flows {cur : ℕ} (h : MatchTaken env c len cur e) :
    Flows c (env.takeMatch c (c.head - cur) e) (e.length - (c.head - cur)) := by
  refine ⟨moved_takeMatch c _ e, ?_, ?_, ?_⟩
  · exact taken_takeMatch h.delta_le (zErofsDedupeMatch_advances h.found).le
  all_goals
    unfold takeMatch
    cases c.pivot <;> rfl

theorem Kept.takeMatch {cur : ℕ} (hk : Kept env need frag c)
    (h : MatchTaken env c (c.tail - c.head) cur e) :
    Kept env need frag (env.takeMatch c (c.head - cur) e) := by
  obtain ⟨hcur, hend⟩ := zErofsDedupeMatch_le_end h.found
  have hle := hk.head_le
  exact h.flows.kept hk (by omega)

/-- The bytes in front of the head leave the queue. -/
theorem Kept.refill (hk : Kept env need frag c) (hv : SizesValid env)
    (h : (env.zErofsNeedRefill c).1 = true) :
    Kept env need frag (env.zErofsNeedRefill c).2 ∧ (env.zErofsNeedRefill c).2.remaining ≠ 0 := by
  have hq := (hk.toInQueue.refill hv h).1.toInQueue
  obtain ⟨hne, -, heq⟩ := zErofsNeedRefill_true h
  rw [heq] at hq ⊢
  have hdown : roundDown c.head env.sbi.blksz ≤ c.head := roundDown_le
  have hle := hk.head_le
  have hemitted : c.fragemitted = false :=
    Bool.eq_false_iff.mpr fun hemit => hne (hk.emitted hemit).1
  refine ⟨⟨hq, ?_, fun hemit => ?_, hk.fragment, hk.fix, hk.last⟩, hne⟩
  · rw [← hk.bytes]
    unfold ComprEnv.bytes
    have hlen : (c.queue.drop (roundDown c.head env.sbi.blksz)).length -
        (c.head - roundDown c.head env.sbi.blksz) = c.tail - c.head := by
      rw [List.length_drop]
      change c.tail - _ - _ = _
      omega
    exact congrArg (fun m => c.taken + m + c.remaining + env.owed c) hlen
  · exact absurd (hemitted.symm.trans hemit) Bool.false_ne_true

theorem Kept.noRefill (hk : Kept env need frag c) (h : (env.zErofsNeedRefill c).1 = false) :
    Kept env need frag (env.zErofsNeedRefill c).2 := by
  rw [(zErofsNeedRefill_false h).1]
  exact hk

theorem Deduped.kept {b : Bool} (h : Deduped env c len b c' len') (hk : Kept env need frag c)
    (hv : SizesValid env) (hlen : len = c.tail - c.head) :
    Kept env need frag c' ∧ (b = true → c'.remaining ≠ 0) := by
  induction h with
  | out c len => exact ⟨(flows_dedupeOut c).kept hk (Nat.zero_le _), nofun⟩
  | refill htaken hrefill =>
      subst hlen
      obtain ⟨hk', hne⟩ := (hk.takeMatch htaken).refill hv hrefill
      exact ⟨hk', fun _ => hne⟩
  | more htaken hrefill hrun ih =>
      subst hlen
      have hleft := (htaken.moved hk.toInQueue).2.2
      have heq := (zErofsNeedRefill_false hrefill).1
      apply ih ((hk.takeMatch htaken).noRefill hrefill)
      rw [matched, heq, hleft]

theorem zErofsCompressDedupe_kept {b : Bool}
    (h : env.zErofsCompressDedupe c (c.tail - c.head) = .ok (b, c', len'))
    (hk : Kept env need frag c) (hv : SizesValid env) :
    Kept env need frag c' ∧ (b = true → c'.remaining ≠ 0) := by
  unfold zErofsCompressDedupe at h
  split_ifs at h
  · cases h
    exact ⟨hk, nofun⟩
  · cases h
    exact (Deduped.out c _).kept hk hv rfl
  · exact (zErofsCompressDedupeLoop_deduped h).kept hk hv rfl

theorem Kept.giveBack {size : ℕ} (hk : Kept env need frag c) (hpos : c.tail - c.head ≠ 0)
    (hend : c.remaining = 0) (hfrag : c.fragmentSize ≠ 0) (hfix : c.fixDedupedfrag = false)
    (hdvd : env.sbi.blksz ∣ size) (hsize : size ≤ pclusterMaxSize) :
    Kept env need frag (giveBack { c with pclustersize := size }) := by
  have hemitted : c.fragemitted = false :=
    Bool.eq_false_iff.mpr fun hemit => by
      have hend := (hk.emitted hemit).2
      omega
  have heq := hk.fragment hemitted
  have hlast := hk.last (heq ▸ hfrag)
  have howed : env.owed c = frag := by
    unfold ComprEnv.owed
    rw [if_pos ⟨hlast, by simp [hfix], by simp [hemitted]⟩, heq]
  have howed' : env.owed (ComprEnv.giveBack { c with pclustersize := size }) = 0 := by
    unfold ComprEnv.owed
    rw [if_neg (fun h => h.2.1 rfl)]
  refine ⟨⟨hk.head_le, hk.tail_le, hdvd, hsize⟩, ?_, fun hemit => ?_, hk.fragment, fun _ => ?_,
    hk.last⟩
  · have hbytes := hk.bytes
    unfold ComprEnv.bytes at hbytes ⊢
    rw [howed']
    rw [howed] at hbytes
    change c.taken + (c.tail - c.head) + (c.remaining + c.fragmentSize) + 0 = need
    omega
  · exact absurd (hemitted.symm.trans hemit) Bool.false_ne_true
  · change c.remaining + c.fragmentSize ≤ frag
    omega

theorem AsksMore.kept (h : AsksMore env c c') (hk : Kept env need frag c) :
    Kept env need frag c' ∧ (c'.remaining = 0 → c'.head = c'.tail) := by
  have hb := env.sbi.blksz_pos
  have hle := hk.head_le
  cases h with
  | data hlen hmore =>
      refine ⟨hk, fun hend => ?_⟩
      have hempty := hmore.resolve_left (not_not.mpr hend)
      omega
  | short hlen hpos hend hfrag hfix =>
      have hup := roundUp_le_of_dvd hb hk.size_dvd hlen
      refine ⟨hk.giveBack hpos hend hfrag hfix (dvd_roundUp _ _) (hup.trans hk.size_le), ?_⟩
      intro h0
      exact absurd (Nat.eq_zero_of_add_eq_zero_left h0) hfrag
  | @unfilled z hpos hz hsize hpart hroom hend hfrag =>
      have hup := roundUp_le_of_dvd hb hk.size_dvd hsize
      have hne : z ≠ c.pclustersize := by
        rintro rfl
        exact hpart (Nat.mod_eq_zero_of_dvd hk.size_dvd)
      obtain ⟨hsome, hfix⟩ := hfrag (lt_of_le_of_ne hsize hne)
      refine ⟨hk.giveBack hpos hend hsome hfix (dvd_roundUp _ _) (hup.trans hk.size_le), ?_⟩
      intro h0
      exact absurd (Nat.eq_zero_of_add_eq_zero_left h0) hsome

theorem OneStep.kept (h : OneStep env c (.done e c')) (hk : Kept env need frag c)
    (hpivot : c.pivot = .none) : Kept env need frag { c' with pivot := .item e } := by
  obtain ⟨c₀, e₀, dedupe, hsame, hkind, hfrag, hdone⟩ := h
  obtain ⟨hm, heq⟩ := hsame.moved hdone
  have hm' : Moved c { c' with pivot := .item e } e₀.length :=
    ⟨hm.queue, hm.head, hm.remaining, hm.pclustersize, hm.fixDedupedfrag⟩
  have htaken : ({ c' with pivot := .item e } : ComprSctx).taken = c.taken + e₀.length := by
    have hextents : c'.extents = c.extents := by
      cases hdone
      exact hsame.extents
    unfold ComprSctx.taken ComprSctx.covered
    rw [hpivot, ← heq]
    dsimp only [Pivot.extent]
    rw [hextents, Nat.add_zero]
  have hsize : c'.fragmentSize = c₀.fragmentSize := by cases hdone; rfl
  have hemit' : c'.fragemitted = c₀.fragemitted := by cases hdone; rfl
  cases hfrag with
  | same hsize₀ hemit₀ =>
      have hflows : Flows c { c' with pivot := .item e } e₀.length :=
        ⟨hm', htaken, hsize.trans hsize₀, hemit'.trans hemit₀⟩
      exact hflows.kept hk hkind.length_le
  | emitted hpacking hemit₀ hlen hown =>
      have hend : c.remaining = 0 := by
        simp only [mayPacking, Bool.and_eq_true, beq_iff_eq] at hpacking
        exact hpacking.1.1.2
      have howed : env.owed c = 0 := by
        unfold ComprEnv.owed
        rcases hown with h0 | hfix
        · rw [h0, ite_self]
        · rw [if_neg (fun h => h.2.1 hfix)]
      have hemit : ({ c' with pivot := .item e } : ComprSctx).fragemitted = true :=
        hemit'.trans hemit₀
      have howed' : env.owed { c' with pivot := .item e } = 0 := by
        unfold ComprEnv.owed
        rw [if_neg (fun h => h.2.2 hemit)]
      have hle := hk.head_le
      refine ⟨hm'.inQueue hk.toInQueue hkind.length_le, ?_, fun _ => ?_, fun hfalse => ?_, ?_,
        hk.last⟩
      · have hbytes := hk.bytes
        unfold ComprEnv.bytes at hbytes ⊢
        rw [howed', htaken, hm'.tail, hm'.head, hm'.remaining]
        omega
      · rw [hm'.tail, hm'.head, hm'.remaining]
        exact ⟨hend, by omega⟩
      · exact absurd (hfalse.symm.trans hemit) Bool.false_ne_true
      · intro _
        rw [hm'.remaining]
        omega

theorem OneStep.left (h : OneStep env c (.done e c')) :
    c'.tail - c'.head = c.tail - c.head - e.length := by
  obtain ⟨c₀, e₀, dedupe, hsame, -, -, hdone⟩ := h
  obtain ⟨hm, heq⟩ := hsame.moved hdone
  rw [hm.tail, hm.head, heq, Nat.sub_add_eq]

theorem OneStep.inQueue (h : OneStep env c (.done e c')) (hq : InQueue env c) :
    InQueue env c' := by
  obtain ⟨c₀, e₀, dedupe, hsame, hkind, -, hdone⟩ := h
  exact (hsame.moved hdone).1.inQueue hq hkind.length_le

/-- The rest of the file is the end of the fragment, or one more extent is taken. -/
theorem afterExtent_kept (hk : Kept env need frag { c with pivot := .item e })
    (hv : SizesValid env) (hlen : len = c.tail - c.head) :
    ((env.afterExtent e c len).1 = false → Kept env need frag (env.afterExtent e c len).2) ∧
      ((env.afterExtent e c len).1 = true → Turned env need frag (env.afterExtent e c len).2) := by
  have hrefill : ∀ {c₁ : ComprSctx}, Kept env need frag c₁ →
      ((env.zErofsNeedRefill c₁).1 = false → Kept env need frag (env.zErofsNeedRefill c₁).2) ∧
        ((env.zErofsNeedRefill c₁).1 = true →
          Turned env need frag (env.zErofsNeedRefill c₁).2) := by
    intro c₁ hk₁
    refine ⟨hk₁.noRefill, fun h => ?_⟩
    obtain ⟨hk', hne⟩ := hk₁.refill hv h
    exact ⟨fun _ => hk', fun h0 => absurd h0 hne⟩
  unfold afterExtent
  dsimp only
  by_cases hfix : c.fixDedupedfrag = true ∧ ¬ c.fragemitted = true
  swap
  · rw [if_neg hfix]
    exact hrefill hk
  rw [if_pos hfix]
  set c₁ : ComprSctx := { c with pivot := .item e } with hc₁
  have hq := hk.toInQueue
  cases hstop : (env.zErofsFixupDedupedFragment c₁ len).1 with
  | false =>
      rw [if_neg Bool.false_ne_true]
      apply hrefill
      have hq' := (zErofsFixupDedupedFragment_false hstop hq hv).1
      unfold zErofsFixupDedupedFragment at hstop hq' ⊢
      dsimp only at hstop hq' ⊢
      split_ifs at hstop hq' ⊢
      exact ⟨hq', hk.bytes, hk.emitted, hk.fragment, hk.fix, hk.last⟩
  | true =>
      rw [if_pos rfl]
      refine ⟨fun h => ?_, fun _ => ?_⟩
      · rw [hstop] at h
        cases h
      have hrem := hk.fix hfix.1
      have hfrag := hk.fragment (Bool.eq_false_iff.mpr hfix.2)
      have hbytes := hk.bytes
      have howed : env.owed c₁ = 0 := by
        unfold ComprEnv.owed
        rw [if_neg (fun h => h.2.1 hfix.1)]
      unfold zErofsFixupDedupedFragment at hstop ⊢
      dsimp only at hstop ⊢
      split_ifs at hstop ⊢ with hgrows
      refine ⟨fun hne => absurd rfl hne, fun _ hsmall => ?_⟩
      have htail : c.tail ≤ zErofsComprQueueSz := hq.tail_le
      have hnew : u32 (u32 (c.remaining + len)) = c.remaining + len := by
        have hlt : c.remaining + len < 2 ^ 32 := by
          change c.remaining ≤ frag at hrem
          omega
        unfold u32
        rw [Nat.mod_mod, Nat.mod_eq_of_lt hlt]
      have hlast : c.remaining + len ≠ 0 → env.lastSegment = true := by
        intro hne
        apply hk.last
        change ¬ c.fragmentSize < u32 (c.remaining + len) at hgrows
        change c.fragmentSize = frag at hfrag
        intro h0
        have hzero : u32 (u32 (c.remaining + len)) = 0 := by
          have : u32 (c.remaining + len) = 0 := by omega
          rw [this]
          rfl
        omega
      unfold ComprEnv.bytes at hbytes
      rw [howed] at hbytes
      change c₁.taken + (c.tail - c.head) + c.remaining + 0 = need at hbytes
      unfold ComprEnv.atEnd
      change need ≤ c₁.taken + if env.lastSegment = true ∧ ¬ c.fragemitted = true then
        u32 (u32 (c.remaining + len)) else 0
      rw [hnew]
      by_cases h0 : c.remaining + len = 0
      · omega
      · rw [if_pos ⟨hlast h0, hfix.2⟩]
        omega

/-- The queue is empty at the end of the segment. -/
theorem Kept.turned (hk : Kept env need frag c) (hend : c.remaining = 0 → c.head = c.tail) :
    Turned env need frag c := by
  refine ⟨fun _ => hk, fun h0 hsmall => ?_⟩
  have hempty := hend h0
  have hbytes := hk.bytes
  unfold ComprEnv.bytes at hbytes
  have howed : env.owed c ≤ if env.lastSegment ∧ ¬ c.fragemitted then u32 c.fragmentSize else 0 := by
    unfold ComprEnv.owed
    split_ifs with h1 h2 h2
    · have hfrag := hk.fragment (Bool.eq_false_iff.mpr h1.2.2)
      unfold u32
      rw [Nat.mod_eq_of_lt (by omega)]
    · exact absurd ⟨h1.1, h1.2.2⟩ h2
    · exact Nat.zero_le _
    · exact le_rfl
  unfold ComprEnv.atEnd
  omega

/-- A run of `z_erofs_compress_one`. -/
theorem OneRun.turned (h : OneRun env c len c') (hk : Kept env need frag c) (hv : SizesValid env)
    (hlen : len = c.tail - c.head) : Turned env need frag c' := by
  induction h with
  | empty c =>
      have hle := hk.head_le
      exact hk.turned fun _ => by omega
  | refilled _ hdedupe =>
      subst hlen
      obtain ⟨hk', hne⟩ := zErofsCompressDedupe_kept hdedupe hk hv
      exact hk'.turned fun h0 => absurd h0 (hne rfl)
  | more _ hdedupe hone =>
      subst hlen
      obtain ⟨hk', hend⟩ := AsksMore.kept hone (zErofsCompressDedupe_kept hdedupe hk hv).1
      exact hk'.turned hend
  | last _ hdedupe hone hstop =>
      subst hlen
      obtain ⟨hleft, hpivot⟩ := zErofsCompressDedupe_left hdedupe hk.toInQueue
      have hk' := hone.kept (zErofsCompressDedupe_kept hdedupe hk hv).1 hpivot
      exact (afterExtent_kept hk' hv (by rw [hone.left, hleft])).2 hstop
  | next _ hdedupe hone hstop hrun ih =>
      subst hlen
      obtain ⟨hk₁, -⟩ := zErofsCompressDedupe_kept hdedupe hk hv
      obtain ⟨hleft, hpivot⟩ := zErofsCompressDedupe_left hdedupe hk.toInQueue
      apply ih ((afterExtent_kept (hone.kept hk₁ hpivot) hv (by rw [hone.left, hleft])).1 hstop)
      rw [(afterExtent_inside hstop (hone.inQueue hk₁.toInQueue) hv).2.2, hone.left, hleft]

theorem Kept.afterRead (hk : Kept env need frag c)
    (hread : ∃ b, (env.read c (readSize c)).1 = some b ∧ b.length = readSize c)
    (hne : c.remaining ≠ 0) : Kept env need frag (env.afterRead c) := by
  have htail := tail_afterRead hread
  have hle := hk.head_le
  have hsize : readSize c ≤ c.remaining := Nat.min_le_left _ _
  refine ⟨hk.toInQueue.afterRead hread, ?_, fun hemit => ?_, hk.fragment, fun hfix => ?_, hk.last⟩
  · have hbytes := hk.bytes
    unfold ComprEnv.bytes at hbytes ⊢
    rw [htail]
    change c.taken + (c.tail + readSize c - c.head) + (c.remaining - readSize c) + env.owed c = need
    omega
  · exact absurd (hk.emitted hemit).1 hne
  · exact (Nat.sub_le _ _).trans (hk.fix hfix)

theorem Turned.turn (h : Turned env need frag c) (hv : SizesValid env) (hne : c.remaining ≠ 0)
    (hturn : env.segmentTurn c = .ok c') : Turned env need frag c' := by
  obtain ⟨hread, hone⟩ := segmentTurn_ok hturn
  exact hone.turned ((h.more hne).afterRead hread hne) hv rfl

end Steps

/-- A segment as `erofs_write_compressed_file` or a worker sets it up: nothing is read, and a
deduplicated fragment is behind the last segment of the file. -/
structure SegmentBegin (c : ComprSctx) : Prop extends SegmentStart env c where
  extents : c.extents = []
  pivot : c.pivot = .dummy
  fragemitted : c.fragemitted = false
  last : c.fragmentSize ≠ 0 → env.lastSegment = true

def Reads (f : SourceFile) (fpos : ℕ) : Prop :=
  ∀ c n, env.read c n = match c.offset with
    | none => f.read c.fd n
    | some offset => f.pread c.fd (fpos + offset) n

section Runs

variable {env} {c c₀ : ComprSctx} {need frag fuel : ℕ} {r : SegmentRet}

theorem SegmentBegin.turned (h : SegmentBegin env c₀) :
    Turned env (c₀.remaining + c₀.fragmentSize) c₀.fragmentSize c₀ := by
  have htaken : c₀.taken = 0 := by
    unfold ComprSctx.taken ComprSctx.covered
    rw [h.extents, h.pivot]
    rfl
  have htail : c₀.tail = 0 := by rw [ComprSctx.tail, h.queue, List.length_nil]
  have hk : Kept env (c₀.remaining + c₀.fragmentSize) c₀.fragmentSize c₀ := by
    refine ⟨h.between.toInQueue, ?_, fun hemit => ?_, fun _ => rfl, fun hfix => ?_, h.last⟩
    · have howed : env.owed c₀ = c₀.fragmentSize := by
        unfold owed
        split_ifs with hlast
        · rfl
        · by_contra hne
          exact hlast ⟨h.last (Ne.symm hne), by simp [h.fix], by simp [h.fragemitted]⟩
      unfold bytes
      rw [htaken, htail, howed, Nat.zero_sub]
      omega
    · exact absurd (h.fragemitted.symm.trans hemit) Bool.false_ne_true
    · exact absurd (h.fix.symm.trans hfix) Bool.false_ne_true
  exact hk.turned fun _ => h.head.trans htail.symm

theorem TurnReach.turned (hc : TurnReach env c₀ c) (hv : SizesValid env)
    (h : Turned env need frag c₀) : Turned env need frag c := by
  induction hc with
  | start => exact h
  | turn _ hmore hturn ih => exact ih.turn hv hmore hturn

/-- A read fails and sets `errno`, or leaves it alone. -/
theorem Reads.cases {f : SourceFile} {fpos : ℕ} (h : Reads env f fpos) (c : ComprSctx) (n : ℕ) :
    ((env.read c n).1 = none ∧ 0 < (env.read c n).2.errno) ∨
      ∃ b, (env.read c n).1 = some b ∧ (env.read c n).2.errno = c.fd.errno := by
  rw [h c n]
  cases c.offset with
  | none =>
      dsimp only
      rw [read_fst, read_errno]
      rcases pread_cases f c.fd c.fd.pos n with herr | ⟨b, hb, -, -, -, hs⟩
      · exact Or.inl herr
      · exact Or.inr ⟨b, hb, by rw [hs]⟩
  | some offset =>
      dsimp only
      rcases pread_cases f c.fd (fpos + offset) n with herr | ⟨b, hb, -, -, -, hs⟩
      · exact Or.inl herr
      · exact Or.inr ⟨b, hb, by rw [hs]⟩

theorem TurnReach.run (hc : TurnReach env c₀ c)
    (hrun : env.zErofsCompressSegment fuel c₀ = some r) :
    ∃ fuel', env.zErofsCompressSegment fuel' c = some r := by
  induction hc with
  | start => exact ⟨fuel, hrun⟩
  | turn _ hmore hturn ih =>
      obtain ⟨fuel', hrun'⟩ := ih
      cases fuel' with
      | zero => cases hrun'
      | succ fuel' =>
          rw [zErofsCompressSegment, if_neg hmore, hturn] at hrun'
          exact ⟨fuel', hrun'⟩

end Runs

end ComprEnv

end ErofsUtils
