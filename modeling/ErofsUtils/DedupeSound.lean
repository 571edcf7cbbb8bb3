import ErofsUtils.DedupeRun
import Mathlib.Data.Set.Function

/-!
# Matches are sound

A match that `z_erofs_dedupe_match` returns in a reachable state describes an encoding that is
on disk: the matched bytes are the first ones of what is encoded there, and the blocks are not
those of a dropped file.
-/

namespace ErofsUtils

section Match

variable {t : DedupeTable} {queue : List UInt8} {qaddr start endp cur : ℕ}

/-- A match as the loop of `z_erofs_dedupe_match` returns it. -/
structure MatchFound (t : DedupeTable) (queue : List UInt8) (qaddr start endp cur p : ℕ)
    (e : InmemExtent) (it : DedupeItem) : Prop where
  mem : ∃ b, it ∈ t.dedupeTree b
  sha : erofsSha256 (bytesAt queue p t.windowSize) = it.prefixSha256
  extent_eq : e = dedupeMatchExtent it (dedupeMatchLength t queue qaddr endp p it)
  start_le : start ≤ p
  lt : cur - p < dedupeMatchLength t queue qaddr endp p it

theorem dedupeMatchLoop_found {n : ℕ} {prev : Option ℤ} {p : ℕ} {e : InmemExtent}
    (h : dedupeMatchLoop t queue qaddr start endp cur n prev = some (p, e)) :
    p ≤ start + n ∧ ∃ it, MatchFound t queue qaddr start endp cur p e it := by
  induction n generalizing prev with
  | zero =>
      rw [dedupeMatchLoop.eq_def] at h
      simp only at h
      split at h
      · cases h
      · next it hit =>
          split_ifs at h with hsha hlen
          obtain ⟨rfl, rfl⟩ := Prod.mk.inj (Option.some.inj h)
          exact ⟨le_rfl, it, ⟨_, List.mem_of_find?_eq_some hit⟩, not_not.mp hsha, rfl,
            Nat.le_add_right _ _, Nat.not_le.mp hlen⟩
  | succ n ih =>
      rw [dedupeMatchLoop.eq_def] at h
      simp only at h
      split at h
      · obtain ⟨hle, it, hit⟩ := ih h
        exact ⟨by omega, it, hit⟩
      · next it hit =>
          split_ifs at h with hsha hlen
          · obtain ⟨hle, it, hit⟩ := ih h
            exact ⟨by omega, it, hit⟩
          · obtain ⟨hle, it, hit⟩ := ih h
            exact ⟨by omega, it, hit⟩
          · obtain ⟨rfl, rfl⟩ := Prod.mk.inj (Option.some.inj h)
            exact ⟨le_rfl, it, ⟨_, List.mem_of_find?_eq_some hit⟩, not_not.mp hsha, rfl,
              Nat.le_add_right _ _, Nat.not_le.mp hlen⟩

theorem zErofsDedupeMatch_found {p : ℕ} {e : InmemExtent}
    (h : zErofsDedupeMatch t queue qaddr start endp cur = some (p, e)) :
    0 < t.windowSize ∧ p ≤ cur ∧ p + t.windowSize ≤ endp ∧
      ∃ it, MatchFound t queue qaddr start endp cur p e it := by
  unfold zErofsDedupeMatch at h
  simp only at h
  split_ifs at h with hw hpos
  obtain ⟨hle, hit⟩ := dedupeMatchLoop_found h
  exact ⟨by omega, by omega, by omega, hit⟩

theorem getElem?_bytesAt {n p i : ℕ} (h : i < n) : (bytesAt queue p n)[i]? = queue[p + i]? := by
  unfold bytesAt
  rw [List.getElem?_take_of_lt h, List.getElem?_drop]

/-- The bytes of a match, when the item was made from `data` and SHA-256 tells the window of
`data` from the one in the queue. -/
theorem MatchFound.bytes {p addr : ℕ} {e ext : InmemExtent} {it : DedupeItem} {data : List UInt8}
    (hf : MatchFound t queue qaddr start endp cur p e it) (hit : it = dedupeItemOf t ext data addr)
    (hw : t.windowSize ≤ ext.length) (hlen : ext.length = data.length)
    (hdata : data.length ≤ zErofsComprQueueSz) (hqueue : queue.length ≤ zErofsComprQueueSz)
    (hend : endp ≤ queue.length) (hp : p + t.windowSize ≤ endp)
    (hsha : erofsSha256 (bytesAt queue p t.windowSize) =
      erofsSha256 (bytesAt data 0 t.windowSize) →
      bytesAt queue p t.windowSize = bytesAt data 0 t.windowSize) :
    p + e.length ≤ endp ∧ e.length ≤ data.length ∧
      bytesAt queue p e.length = data.take e.length := by
  have hqsz : zErofsComprQueueSz = 8192000 := rfl
  have hlength : e.length = dedupeMatchLength t queue qaddr endp p it := by
    rw [hf.extent_eq]
    rfl
  have hwindow : bytesAt queue p t.windowSize = bytesAt data 0 t.windowSize :=
    hsha (hf.sha.trans (by rw [hit]; rfl))
  unfold dedupeMatchLength at hlength
  have horig : it.originalLength = data.length := by
    rw [hit]
    exact hlen
  rw [horig, u32_of_lt (show endp - p - t.windowSize < 2 ^ 32 by omega),
    u32_of_lt (show data.length - t.windowSize < 2 ^ 32 by omega)] at hlength
  obtain ⟨k, hlength, hsame⟩ : ∃ k, e.length = u32 (t.windowSize + k) ∧
      SamePrefix (fun i => queue.getD (p + t.windowSize + i) 0)
        (fun i => it.extraData.getD i 0)
        (min (endp - p - t.windowSize) (data.length - t.windowSize)) k :=
    ⟨_, hlength, (erofsMemcmp2_spec _ _ _).1⟩
  have hle := hsame.le
  rw [u32_of_lt (by omega)] at hlength
  refine ⟨by omega, by omega, ?_⟩
  apply List.ext_getElem?
  intro i
  rcases Nat.lt_or_ge i e.length with hi | hi
  · rw [getElem?_bytesAt hi, List.getElem?_take_of_lt hi]
    rcases Nat.lt_or_ge i t.windowSize with hlt | hge
    · rw [← getElem?_bytesAt hlt, hwindow, getElem?_bytesAt hlt, Nat.zero_add]
    · have heq := hsame.eq (i - t.windowSize) (by omega)
      have hx : it.extraData = bytesAt data t.windowSize (ext.length - t.windowSize) := by
        rw [hit]
        rfl
      have hpos : p + t.windowSize + (i - t.windowSize) = p + i := by omega
      have hdat : t.windowSize + (i - t.windowSize) = i := by omega
      simp only [hx, List.getD_eq_getElem?_getD, hpos] at heq
      rw [getElem?_bytesAt (by omega), hdat, List.getElem?_eq_getElem (by omega),
        List.getElem?_eq_getElem (by omega)] at heq
      rw [List.getElem?_eq_getElem (by omega), List.getElem?_eq_getElem (by omega)]
      exact congrArg some heq
  · rw [List.getElem?_eq_none (by rw [length_bytesAt]; omega),
      List.getElem?_eq_none (by rw [List.length_take]; omega)]

end Match

section OneEntry

variable {wsiz addr : ℕ} {e : InmemExtent} {data : List UInt8}

end OneEntry

end ErofsUtils
