import ErofsUtils.BufBuckets
import ErofsUtils.BufMgrInline

/-!
# What the search through the buckets finds

In every run a mapped block is in the bucket of its type and fill level and nowhere else. As long
as no number of the run has wrapped, every block that the search takes from a bucket then meets the
assertions on it, since the bucket number leaves room for the request behind the alignment, and a
mapped block that the search returns is the last mapped one or has that room in its last image
block. The last mapped block can go on over further blocks.
-/

namespace ErofsUtils
namespace IndexedMgr

/-- Each block that is mapped is in its own bucket and in no other one, the others are in none, and
nothing else is in a bucket. -/
structure InBuckets (s : IndexedMgr) : Prop where
  mapped : ∀ b ∈ s.mgr.blocks, b.IsMapped →
    ∀ k, b.id ∈ s.mappedBuckets k ↔ k = bucketOf s.mgr.sb b
  unmapped : ∀ b ∈ s.mgr.blocks, ¬ b.IsMapped → ∀ k, b.id ∉ s.mappedBuckets k
  once : ∀ k, (s.mappedBuckets k).Nodup
  live : ∀ k, ∀ id ∈ s.mappedBuckets k, id ∈ s.mgr.blocks.map BufferBlock.id

section Request

variable (s : IndexedMgr) (type : BlockType) (size requiredExt inlineExt align : ℕ)

/-- The sums of the request wrap neither at 64 bits nor, for what stays below a block, at 32. -/
structure RequestFits : Prop where
  offset : size + requiredExt + inlineExt < 2 ^ 64
  extras : s.mgr.sb.size + requiredExt + inlineExt < 2 ^ 32

def FitsLast (bb : BufferBlock) : Prop :=
  roundUp (bb.off % s.mgr.sb.size) align + size + requiredExt + inlineExt ≤ s.mgr.sb.size

/-- The inline bytes go into the image block in which the rest of the request ends. -/
def InlineAtEnd (bb : BufferBlock) : Prop :=
  (attachEnd bb size align + requiredExt) % s.mgr.sb.size + inlineExt ≤ s.mgr.sb.size

structure Picked (id : ℕ) (bb : BufferBlock) : Prop where
  mem : bb ∈ s.mgr.blocks
  named : bb.id = id
  type : bb.type = type
  inlineAtEnd : bb.IsMapped → s.InlineAtEnd size requiredExt inlineExt align bb
  fits : bb.IsMapped → s.mgr.lastMapped ≠ some id →
    s.FitsLast size requiredExt inlineExt align bb

/-- The search hits no assertion, and what it returns has room for the request. -/
structure SearchOk : Prop where
  noBug : s.NoBug type size requiredExt inlineExt align
    (s.usedBefore size requiredExt inlineExt align)
  picked : ∀ id, s.erofsBfindForAttach type size requiredExt inlineExt align = .ok (some id) →
    ∃ bb, s.Picked type size requiredExt inlineExt align id bb

end Request

section Search

variable {s : IndexedMgr} {type : BlockType} {size requiredExt inlineExt align : ℕ}
variable {p q : List BufferBlock} {cur : BufferBlock} {n : ℕ}

theorem Indexed.keyOf_mem (h : s.Indexed) {b : BufferBlock} (hb : b ∈ s.mgr.blocks) :
    s.keyOf b.id = some (bucketOf s.mgr.sb b) := by
  obtain ⟨p, q, hs⟩ := List.append_of_mem hb
  rw [keyOf, hs, blockOf_mid (h.notMem_left hs)]
  rfl

theorem Indexed.mem_mapped (h : s.Indexed) {b : BufferBlock} (hb : b ∈ s.mgr.blocks) :
    b.id ∈ s.mgr.mappedList ↔ b.IsMapped := by
  obtain ⟨p, q, hs⟩ := List.append_of_mem hb
  rw [h.mem_mappedList hs]
  have hnot := h.notMem_ids hs
  constructor
  · intro hin
    exact (hin.resolve_right hnot).1
  · exact fun hm => Or.inl ⟨hm, rfl⟩

theorem Indexed.inBuckets (h : s.Indexed) : s.InBuckets := by
  refine ⟨fun b hb hm k => ?_, fun b hb hm k hin => ?_, h.tracks.bucket_nodup, fun k id hin => ?_⟩
  · rw [h.tracks.mem, h.keyOf_mem hb, Option.some.injEq]
    constructor
    · exact fun hk => hk.2.symm
    · exact fun hk => ⟨(h.mem_mapped hb).mpr hm, hk.symm⟩
  · exact hm ((h.mem_mapped hb).mp (h.tracks.mem.mp hin).1)
  · obtain ⟨b, hb, -, hid⟩ := mem_of_mem_mappedIds ((h.mapped id).mp (h.tracks.mem.mp hin).1)
    exact hid ▸ List.mem_map_of_mem hb

theorem Indexed.first (h : s.Indexed) (hf : s.firstMapped type n = some (p, cur, q)) :
    s.mgr.blocks = p ++ cur :: q ∧ cur.IsMapped ∧ cur.type = type ∧ cur.off % s.mgr.sb.size = n := by
  rw [IndexedMgr.firstMapped] at hf
  cases hb : s.mappedBuckets (type, n) with
  | nil =>
      rw [hb] at hf
      cases hf
  | cons id ids =>
      rw [hb] at hf
      obtain ⟨hs, hid⟩ := splitAtBlock_some hf
      have hcur : cur ∈ s.mgr.blocks := by
        rw [hs]
        exact List.mem_append_right p List.mem_cons_self
      have hin : id ∈ s.mappedBuckets (type, n) := hb ▸ List.mem_cons_self
      obtain ⟨hlist, hkey⟩ := h.tracks.mem.mp hin
      rw [← hid] at hlist hkey
      rw [h.keyOf_mem hcur, Option.some.injEq, bucketOf, Prod.mk.injEq] at hkey
      exact ⟨hs, (h.mem_mapped hcur).mp hlist, hkey⟩

theorem unmapped_behind (hinv : s.mgr.Inv) (hs : s.mgr.blocks = p ++ cur :: q)
    (hnext : nextAddr q = nullAddr) : ∀ c ∈ q, ¬ c.IsMapped := by
  have horder := hinv.order
  rw [hs, List.pairwise_append, List.pairwise_cons] at horder
  cases q with
  | nil => exact fun c hc => absurd hc List.not_mem_nil
  | cons d q =>
      intro c hc hm
      rw [List.mem_cons] at hc
      cases hc with
      | inl hcd => exact hm (hcd ▸ hnext)
      | inr hcq => exact (List.pairwise_cons.mp horder.2.1.2).1 c hcq hm hnext

theorem last_of_next (hinv : s.mgr.Inv) (hs : s.mgr.blocks = p ++ cur :: q) (hm : cur.IsMapped)
    (hnext : nextAddr q = nullAddr) : s.mgr.lastMapped = some cur.id := by
  rw [hinv.last, hs, mappedIds_append, mappedIds_cons_of_mapped hm,
    mappedIds_eq_nil (unmapped_behind hinv hs hnext), List.getLast?_concat]

end Search

section Arith

variable {s : IndexedMgr} {size requiredExt inlineExt align : ℕ} {cur : BufferBlock}
variable {q : List BufferBlock} {n : ℕ}

theorem pred_mod_succ {off m : ℕ} (hm : 0 < m) (hoff : off % m ≠ 0) :
    (off - 1) % m + 1 = off % m := by
  have hlt := Nat.mod_lt off hm
  have hdiv := Nat.div_add_mod off m
  have hpred : off - 1 = m * (off / m) + (off % m - 1) := by omega
  rw [hpred, Nat.mul_add_mod, Nat.mod_eq_of_lt (by omega)]
  omega

/-- Every bucket that the search looks at leaves room behind the alignment. -/
theorem fitsLast_of_le (halign : 0 < align)
    (hreq : s.RequestFits size requiredExt inlineExt) (hn : cur.off % s.mgr.sb.size = n)
    (hpos : 0 < n) (hle : n ≤ s.usedBefore size requiredExt inlineExt align) :
    s.FitsLast size requiredExt inlineExt align cur := by
  have htotal : total size requiredExt inlineExt = size + requiredExt + inlineExt :=
    u64_of_lt hreq.offset
  rw [usedBefore, htotal] at hle
  by_cases hskip : s.mgr.sb.size ≤ size + requiredExt + inlineExt
  · rw [if_pos hskip] at hle
    omega
  · rw [if_neg hskip] at hle
    have hup := roundUp_le_of_dvd halign
      (Nat.dvd_sub_mod (s.mgr.sb.size - (size + requiredExt + inlineExt))) hle
    have hsub := Nat.sub_le (s.mgr.sb.size - (size + requiredExt + inlineExt))
      ((s.mgr.sb.size - (size + requiredExt + inlineExt)) % align)
    rw [FitsLast, hn]
    omega

/-- A mapped block is far from the end of the byte offsets. -/
theorem off_lt (hinv : s.mgr.Inv) (hcur : cur ∈ s.mgr.blocks) (hm : cur.IsMapped) :
    cur.off < 2 ^ 63 := by
  have hstop := hinv.limit cur hcur hm
  rw [BufferBlock.stop, BufferBlock.nblocks] at hstop
  have hblocks : s.mgr.sb.blocksOf cur.off < 2 ^ 32 := by
    have := nullAddr_lt
    omega
  calc cur.off ≤ s.mgr.sb.blocksOf cur.off * s.mgr.sb.size := s.mgr.sb.le_blocksOf_mul cur.off
    _ < 2 ^ 32 * s.mgr.sb.size := Nat.mul_lt_mul_of_pos_right hblocks s.mgr.sb.size_pos
    _ ≤ 2 ^ 32 * 2 ^ 31 := Nat.mul_le_mul_left _ s.mgr.sb.size_le
    _ = 2 ^ 63 := rfl

theorem dryrun_ok (halign : 0 < align) (hdvd : align ∣ s.mgr.sb.size)
    (hreq : s.RequestFits size requiredExt inlineExt) (hoff : cur.off < 2 ^ 63)
    (hpos : cur.off % s.mgr.sb.size ≠ 0) (hfits : s.FitsLast size requiredExt inlineExt align cur) :
    ∃ up, s.dryrun size requiredExt inlineExt align cur q = some up := by
  apply battachCheck_of_room
  have hextras := hreq.extras
  have hu : u32 (requiredExt + inlineExt) = requiredExt + inlineExt := u32_of_lt (by omega)
  have hmax := s.mgr.sb.size_le
  have hle : align ≤ s.mgr.sb.size := Nat.le_of_dvd s.mgr.sb.size_pos hdvd
  have hup := roundUp_lt (x := cur.off) halign
  rw [FitsLast] at hfits
  have h0 : 0 < cur.off := by
    rcases Nat.eq_zero_or_pos cur.off with h0 | h0
    · rw [h0, Nat.zero_mod] at hpos
      exact absurd rfl hpos
    · exact h0
  rw [hu, battachRoom_eq halign hdvd (by omega) h0, pred_mod_succ s.mgr.sb.size_pos hpos]
  omega

theorem battachRet_eq (halign : 0 < align) (hdvd : align ∣ s.mgr.sb.size)
    (hoff : cur.off < 2 ^ 63) (hpos : cur.off % s.mgr.sb.size ≠ 0)
    (hfits : s.FitsLast size requiredExt inlineExt align cur) :
    battachRet s.mgr.sb cur size align =
      roundUp (cur.off % s.mgr.sb.size) align + size := by
  have hmax := s.mgr.sb.size_le
  have hle : align ≤ s.mgr.sb.size := Nat.le_of_dvd s.mgr.sb.size_pos hdvd
  have hup := roundUp_lt (x := cur.off) halign
  have hge : cur.off % s.mgr.sb.size ≤ roundUp (cur.off % s.mgr.sb.size) align :=
    le_roundUp halign
  have hsplit : cur.off = s.mgr.sb.size * (cur.off / s.mgr.sb.size) + cur.off % s.mgr.sb.size :=
    (Nat.div_add_mod cur.off s.mgr.sb.size).symm
  have haligned := roundUp_split hdvd halign hsplit
  rw [FitsLast] at hfits
  have hpred : s.mgr.sb.size * (cur.off / s.mgr.sb.size) +
      roundUp (cur.off % s.mgr.sb.size) align + size - 1 =
      s.mgr.sb.size * (cur.off / s.mgr.sb.size) +
        (roundUp (cur.off % s.mgr.sb.size) align + size - 1) := by omega
  rw [battachRet, BlockSize.roundup_eq (by omega), u64_of_lt (by omega), BlockSize.pred64,
    if_neg (by omega), haligned, hpred, Nat.mul_add_mod, Nat.mod_eq_of_lt (by omega)]
  omega

theorem usedAfter_le (halign : 0 < align) (hdvd : align ∣ s.mgr.sb.size)
    (hoff : cur.off < 2 ^ 63) (hpos : cur.off % s.mgr.sb.size ≠ 0)
    (hfits : s.FitsLast size requiredExt inlineExt align cur) :
    s.usedAfter size requiredExt inlineExt align cur ≤ s.mgr.sb.size := by
  rw [usedAfter, battachRet_eq halign hdvd hoff hpos hfits]
  exact (Nat.mod_le _ _).trans hfits

/-- The test on the inline bytes, when no 32-bit sum wraps. -/
theorem inlineAtEnd_of_fits (hdvd : align ∣ s.mgr.sb.size)
    (hreq : s.RequestFits size requiredExt inlineExt) (hoff : cur.off < 2 ^ 63)
    (h : s.mgr.InlineFits size requiredExt inlineExt align cur) :
    s.InlineAtEnd size requiredExt inlineExt align cur := by
  have hpos := s.mgr.sb.size_pos
  have hmax := s.mgr.sb.size_le
  have hextras := hreq.extras
  have hle : align ≤ s.mgr.sb.size := Nat.le_of_dvd hpos hdvd
  have hret : battachRet s.mgr.sb cur size align ≤ s.mgr.sb.size := battachRet_le
  have hmod : battachRet s.mgr.sb cur size align % s.mgr.sb.size =
      attachEnd cur size align % s.mgr.sb.size := by
    have hdvd64 : s.mgr.sb.size ∣ 2 ^ 64 := pow_dvd_pow 2 (s.mgr.sb.high.trans (by omega))
    rw [battachRet, pred64_mod, BlockSize.roundup_eq (by omega), u64, Nat.mod_mod_of_dvd _ hdvd64,
      attachEnd]
  have hlt := Nat.mod_lt (attachEnd cur size align + requiredExt) hpos
  rw [BufMgr.InlineFits, u32_of_lt (by omega : battachRet s.mgr.sb cur size align + requiredExt <
    2 ^ 32), Nat.add_mod, hmod, ← Nat.add_mod, u32_of_lt (by omega)] at h
  exact h

theorem inlineAtEnd_of_fitsLast (halign : 0 < align) (hdvd : align ∣ s.mgr.sb.size)
    (hfits : s.FitsLast size requiredExt inlineExt align cur) :
    s.InlineAtEnd size requiredExt inlineExt align cur := by
  have hsplit : cur.off = s.mgr.sb.size * (cur.off / s.mgr.sb.size) + cur.off % s.mgr.sb.size :=
    (Nat.div_add_mod cur.off s.mgr.sb.size).symm
  rw [FitsLast] at hfits
  rw [InlineAtEnd, attachEnd, roundUp_split hdvd halign hsplit, Nat.add_assoc, Nat.add_assoc]
  exact mod_add_le (by omega)

end Arith

section Scan

variable {s : IndexedMgr} {type : BlockType} {size requiredExt inlineExt align : ℕ}

theorem Indexed.scanOk (h : s.Indexed) (hinv : s.mgr.Inv) (halign : 0 < align)
    (hdvd : align ∣ s.mgr.sb.size) (hreq : s.RequestFits size requiredExt inlineExt) {n : ℕ}
    {p q : List BufferBlock} {cur : BufferBlock} (hpos : 0 < n)
    (hle : n ≤ s.usedBefore size requiredExt inlineExt align)
    (hf : s.firstMapped type n = some (p, cur, q)) :
    s.ScanOk type size requiredExt inlineExt align n cur q := by
  obtain ⟨hs, hm, htype, hoff⟩ := h.first hf
  have hcur : cur ∈ s.mgr.blocks := by
    rw [hs]
    exact List.mem_append_right p List.mem_cons_self
  have hfits := fitsLast_of_le halign hreq hoff hpos hle
  have hlt := off_lt hinv hcur hm
  have hne : cur.off % s.mgr.sb.size ≠ 0 := by omega
  constructor
  · exact htype
  · exact hm
  · exact hoff.symm
  · exact last_of_next hinv hs hm
  · exact dryrun_ok halign hdvd hreq hlt hne hfits
  · exact usedAfter_le halign hdvd hlt hne hfits

/-- No assertion is hit from this bucket down. -/
theorem Indexed.noBug (h : s.Indexed) (hinv : s.mgr.Inv) (halign : 0 < align)
    (hdvd : align ∣ s.mgr.sb.size) (hreq : s.RequestFits size requiredExt inlineExt) {n : ℕ}
    (hle : n ≤ s.usedBefore size requiredExt inlineExt align) :
    s.NoBug type size requiredExt inlineExt align n := by
  induction n with
  | zero => trivial
  | succ n ih =>
      have ih := ih (by omega)
      rw [NoBug]
      split
      · exact ih
      · next hf => exact ⟨h.scanOk hinv halign hdvd hreq (Nat.succ_pos n) hle hf, fun _ => ih⟩

theorem findMapped_first {n id used : ℕ}
    (h : s.findMapped type size requiredExt inlineExt align n = some (id, used)) :
    ∃ m p cur q, 0 < m ∧ m ≤ n ∧ s.firstMapped type m = some (p, cur, q) ∧
      nextAddr q ≠ nullAddr ∧ cur.id = id := by
  induction n with
  | zero => cases h
  | succ n ih =>
      have ih : s.findMapped type size requiredExt inlineExt align n = some (id, used) →
          ∃ m p cur q, 0 < m ∧ m ≤ n + 1 ∧ s.firstMapped type m = some (p, cur, q) ∧
            nextAddr q ≠ nullAddr ∧ cur.id = id := by
        intro h
        obtain ⟨m, p, cur, q, hm, hle, hcur⟩ := ih h
        exact ⟨m, p, cur, q, hm, Nat.le_succ_of_le hle, hcur⟩
      rw [IndexedMgr.findMapped] at h
      cases hf : s.firstMapped type (n + 1) with
      | none =>
          rw [hf] at h
          exact ih h
      | some r =>
          obtain ⟨p, cur, q⟩ := r
          rw [hf] at h
          dsimp only at h
          split at h
          · exact ih h
          next hnext =>
          split at h
          · exact ih h
          · rw [Option.some.injEq, Prod.mk.injEq] at h
            exact ⟨n + 1, p, cur, q, Nat.succ_pos n, le_rfl, hf, hnext, h.1⟩

/-- What the search behind the buckets ends with: what it started with, or a block of its own. -/
theorem findExpandable_from {mgr : BufMgr} {used0 id : ℕ} {l : List BufferBlock}
    {acc : Option ℕ × ℕ}
    (h : (mgr.findExpandable type size requiredExt inlineExt align used0 l acc).1 = some id) :
    acc.1 = some id ∨ ∃ bb ∈ l, bb.id = id ∧ bb.type = type ∧
      mgr.InlineFits size requiredExt inlineExt align bb := by
  induction l generalizing acc with
  | nil => exact Or.inl h
  | cons cur rest ih =>
      have hrest : (∃ bb ∈ rest, bb.id = id ∧ bb.type = type ∧
          mgr.InlineFits size requiredExt inlineExt align bb) →
          ∃ bb ∈ cur :: rest, bb.id = id ∧ bb.type = type ∧
            mgr.InlineFits size requiredExt inlineExt align bb := by
        rintro ⟨bb, hbb, hprop⟩
        exact ⟨bb, List.mem_cons_of_mem cur hbb, hprop⟩
      rw [BufMgr.findExpandable] at h
      split at h
      · exact (ih h).imp_right hrest
      next hcur =>
      rw [not_or, not_not] at hcur
      split at h
      · exact (ih h).imp_right hrest
      dsimp only at h
      split at h
      · exact (ih h).imp_right hrest
      next hused =>
      split at h
      · exact (ih h).imp_right hrest
      split at h
      · cases ih h with
        | inl hid =>
            rw [Option.some.injEq] at hid
            exact Or.inr ⟨cur, List.mem_cons_self, hid, hcur.2, Nat.le_of_not_lt hused⟩
        | inr hex => exact Or.inr (hrest hex)
      · exact (ih h).imp_right hrest

theorem lastMapped_of_mem (hinv : s.mgr.Inv) {bb : BufferBlock} (hbb : bb ∈ s.mgr.fromLastMapped)
    (hm : bb.IsMapped) : s.mgr.lastMapped = some bb.id := by
  have hbehind := hinv.splitLastMapped.2.2
  rw [BufMgr.fromLastMapped] at hbb
  rw [BufMgr.splitLastMapped] at hbehind
  cases hl : s.mgr.lastMapped with
  | none =>
      rw [hl] at hbb hbehind
      exact absurd hm (hbehind bb hbb)
  | some id =>
      rw [hl] at hbb hbehind
      dsimp only at hbb hbehind
      cases hsplit : splitAtBlock id s.mgr.blocks with
      | none =>
          rw [hsplit] at hbb
          exact absurd hbb List.not_mem_nil
      | some r =>
          rw [hsplit] at hbb hbehind
          rw [List.mem_cons] at hbb
          cases hbb with
          | inl heq => rw [heq, (splitAtBlock_some hsplit).2]
          | inr hin => exact absurd hm (hbehind bb hin)

theorem Indexed.picked (h : s.Indexed) (hinv : s.mgr.Inv) (halign : 0 < align)
    (hdvd : align ∣ s.mgr.sb.size) (hreq : s.RequestFits size requiredExt inlineExt) {id : ℕ}
    (hfind : s.erofsBfindForAttach type size requiredExt inlineExt align = .ok (some id)) :
    ∃ bb, s.Picked type size requiredExt inlineExt align id bb := by
  rw [IndexedMgr.erofsBfindForAttach] at hfind
  dsimp only at hfind
  split at hfind
  · cases hfind
  split at hfind
  · cases hfind
  rw [Except.ok.injEq] at hfind
  cases findExpandable_from hfind with
  | inl hacc =>
      -- the block comes from a bucket
      split at hacc
      · cases hacc
      next hf =>
      rw [Option.some.injEq] at hacc
      obtain ⟨n, p, cur, q, hpos, hle, hfirst, hnext, hid⟩ := findMapped_first hf
      obtain ⟨hs, hm, htype, hoff⟩ := h.first hfirst
      have hfits := fitsLast_of_le halign hreq hoff hpos hle
      have hcur : cur ∈ s.mgr.blocks := by
        rw [hs]
        exact List.mem_append_right p List.mem_cons_self
      exact ⟨cur, hcur, hid.trans hacc, htype, fun _ => inlineAtEnd_of_fitsLast halign hdvd hfits,
        fun _ _ => hfits⟩
  | inr hex =>
      obtain ⟨bb, hbb, hid, htype, hfits⟩ := hex
      obtain ⟨p, hp⟩ := s.mgr.fromLastMapped_suffix
      have hmem : bb ∈ s.mgr.blocks := by
        rw [hp]
        exact List.mem_append_right p hbb
      refine ⟨bb, hmem, hid, htype, fun hm => ?_, fun hm hne => ?_⟩
      · exact inlineAtEnd_of_fits hdvd hreq (off_lt hinv hmem hm) hfits
      · exact absurd (hid ▸ lastMapped_of_mem hinv hbb hm) hne

end Scan

theorem Reach.mono {ok ok' : BufMgr → BufOp → Prop} {s : IndexedMgr}
    (hok : ∀ mgr op, ok mgr op → ok' mgr op) (hs : Reach ok s) : Reach ok' s := by
  induction hs with
  | init sb startblk metablkcnt => exact .init sb startblk metablkcnt
  | step op _ hop ih => exact .step op ih (hok _ op hop)

/-- In every run a block is in the bucket of its type and fill level and in no other when it is
mapped, and in none when it is not. In a run that stays inside the integer widths the search hits
none of its assertions, and a mapped block that it returns has room for the whole request in its
last image block, unless it is the last mapped one, which has that room for the inline bytes in the
image block in which the rest ends. -/
theorem mappedBuckets_correct {s : IndexedMgr} (hs : Reach (fun _ _ => True) s) :
    s.InBuckets ∧ (Reach (fun mgr op => op.Fits mgr) s →
      ∀ btype align type, getAlignsize s.mgr.sb btype = some (align, type) →
        ∀ size requiredExt inlineExt, s.RequestFits size requiredExt inlineExt →
          s.SearchOk type size requiredExt inlineExt align) := by
  have hindexed := hs.indexed
  refine ⟨hindexed.inBuckets, ?_⟩
  intro hfits btype align type halign size requiredExt inlineExt hreq
  obtain ⟨hpos, hdvd⟩ := getAlignsize_dvd halign
  have hinv := hfits.mgr.inv
  constructor
  · exact hindexed.noBug hinv hpos hdvd hreq le_rfl
  · intro id hfind
    exact hindexed.picked hinv hpos hdvd hreq hfind

/-- A manager for blocks of 4096 bytes with a block of metadata that is 100 bytes longer than that
and is mapped at `startblk`. -/
def metadata4196 (startblk : ℕ) : IndexedMgr :=
  ((init ⟨12, BlockSize.bits4k_low, BlockSize.bits4k_high⟩ startblk 0).step
    (.balloc .metadata 4196 0 0)).step (.mapbh none)

theorem metadata4196_reach : Reach (fun mgr op => op.Fits mgr) (metadata4196 0) := by
  refine .step _ (.step _ (.init _ 0 0) ?_) ?_
  · intro align bt halign
    obtain ⟨rfl, rfl⟩ : align = 1 ∧ bt = .metadata := by
      have : some (1, BlockType.metadata) = some (align, bt) := halign
      simpa [eq_comm] using this
    refine ⟨fun id hid => ?_, fun _ p bb q hsplit => ?_⟩
    · have : (.ok none : Except ℤ (Option ℕ)) = .ok (some id) := hid
      cases this
    · have : some (([] : List BufferBlock), (⟨0, .metadata, nullAddr, 0, []⟩ : BufferBlock), []) =
          some (p, bb, q) := hsplit
      obtain ⟨-, rfl, -⟩ : [] = p ∧ (⟨0, .metadata, nullAddr, 0, []⟩ : BufferBlock) = bb ∧
          [] = q := by
        simpa using this
      exact ⟨by decide +kernel, fun hm => absurd rfl hm⟩
  · intro _
    exact ⟨by decide +kernel, fun _ => trivial⟩

theorem mappedBuckets_correct_one : (metadata4196 0).InBuckets ∧
    (metadata4196 0).SearchOk .metadata 64 0 16 1 := by
  have hfits := metadata4196_reach
  have h := mappedBuckets_correct (hfits.mono fun _ _ _ => trivial)
  exact ⟨h.1, h.2 hfits .metadata 1 .metadata rfl 64 0 16 ⟨by decide +kernel, by decide +kernel⟩⟩

/-- A request for 8000 bytes goes to the last mapped block, whose last image block has 3996 bytes
left. And in front of a block that was mapped at `NULL_ADDR` itself, the search takes a block from
a bucket that seems to be the last mapped one and is not. -/
theorem mappedBuckets_expanded :
    (¬ ∀ s : IndexedMgr, Reach (fun mgr op => op.Fits mgr) s →
      ∀ btype align type, getAlignsize s.mgr.sb btype = some (align, type) →
        ∀ size requiredExt inlineExt, s.RequestFits size requiredExt inlineExt →
          ∀ id, s.erofsBfindForAttach type size requiredExt inlineExt align = .ok (some id) →
            ∀ bb ∈ s.mgr.blocks, bb.id = id → bb.IsMapped →
              s.FitsLast size requiredExt inlineExt align bb) ∧
    ¬ ∀ s : IndexedMgr, Reach (fun _ _ => True) s →
      ∀ btype align type, getAlignsize s.mgr.sb btype = some (align, type) →
        ∀ size requiredExt inlineExt, s.RequestFits size requiredExt inlineExt →
          s.NoBug type size requiredExt inlineExt align
            (s.usedBefore size requiredExt inlineExt align) := by
  constructor
  · intro h
    have hfits := h (metadata4196 0) metadata4196_reach .metadata 1 .metadata rfl 8000 0 0
      ⟨by decide +kernel, by decide +kernel⟩ 0 (by decide +kernel)
      ⟨0, .metadata, 0, 4196, [⟨1, 0, 4196⟩]⟩ (by decide +kernel) rfl (by decide +kernel)
    revert hfits
    rw [FitsLast]
    decide +kernel
  · intro h
    have hs : Reach (fun _ _ => True) (((metadata4196 (2 ^ 32 - 3)).step (.balloc .data 4096 0 0)).step
        (.mapbh none)) :=
      .step _ (.step _ (.step _ (.step _ (.init _ _ 0) trivial) trivial) trivial) trivial
    have hbug := h _ hs .metadata 1 .metadata rfl 3996 0 0 ⟨by decide +kernel, by decide +kernel⟩
    have hstart : (((metadata4196 (2 ^ 32 - 3)).step (.balloc .data 4096 0 0)).step
        (.mapbh none)).usedBefore 3996 0 0 1 = 99 + 1 := by decide +kernel
    have hfirst : (((metadata4196 (2 ^ 32 - 3)).step (.balloc .data 4096 0 0)).step
        (.mapbh none)).firstMapped .metadata (99 + 1) =
        some ([], ⟨0, .metadata, 2 ^ 32 - 3, 4196, [⟨1, 0, 4196⟩]⟩,
          [⟨2, .data, nullAddr, 4096, [⟨3, 0, 4096⟩]⟩]) := by decide +kernel
    rw [hstart, NoBug, hfirst] at hbug
    have hlast := hbug.1.last rfl
    have hother : (((metadata4196 (2 ^ 32 - 3)).step (.balloc .data 4096 0 0)).step
        (.mapbh none)).mgr.lastMapped = some 2 := by decide +kernel
    rw [hother, Option.some.injEq] at hlast
    cases hlast

end IndexedMgr
end ErofsUtils
