import Mathlib.Data.List.Basic
import Mathlib.Logic.Function.Basic

/-!
# Lists of items by key

An index that holds every item in the list of its key, where an item whose key changes goes to the
end of the list of the new one. The lists together are then a single list, in the order of the last
change, split by key.
-/

namespace ErofsUtils
namespace BucketIndex

variable {κ α : Type*} [DecidableEq κ]

def listDel [DecidableEq α] (buckets : κ → List α) (a : α) : κ → List α :=
  fun k => (buckets k).erase a

/-- The item goes to the end of the list of this key. -/
def listAddTail (buckets : κ → List α) (k : κ) (a : α) : κ → List α :=
  fun l => if l = k then buckets l ++ [a] else buckets l

/-- The lists are those of `order`, split by key. -/
structure Tracks (buckets : κ → List α) (order : List α) (key : α → Option κ) : Prop where
  nodup : order.Nodup
  bucket : ∀ k, buckets k = order.filter fun a => key a = some k

variable {buckets : κ → List α} {order : List α} {key key' : α → Option κ} {a : α} {k : κ}

theorem tracks_nil (key : α → Option κ) : Tracks (fun _ => []) [] key :=
  ⟨List.nodup_nil, fun _ => rfl⟩

namespace Tracks

theorem mem (h : Tracks buckets order key) : a ∈ buckets k ↔ a ∈ order ∧ key a = some k := by
  rw [h.bucket k, List.mem_filter, decide_eq_true_eq]

theorem bucket_nodup (h : Tracks buckets order key) (k : κ) : (buckets k).Nodup := by
  rw [h.bucket k]
  exact h.nodup.filter _

/-- The first item of a list is the first one with this key. -/
theorem head (h : Tracks buckets order key) (k : κ) :
    (buckets k).head? = order.find? fun a => key a = some k := by
  rw [h.bucket k, List.head?_filter]

theorem congr (h : Tracks buckets order key) (hkey : ∀ a ∈ order, key' a = key a) :
    Tracks buckets order key' := by
  refine ⟨h.nodup, fun k => ?_⟩
  rw [h.bucket k]
  apply List.filter_congr
  intro a ha
  rw [hkey a ha]

theorem listDel [DecidableEq α] (h : Tracks buckets order key) (a : α) :
    Tracks (listDel buckets a) (order.erase a) key := by
  refine ⟨h.nodup.erase a, fun k => ?_⟩
  rw [BucketIndex.listDel, h.bucket k, h.nodup.erase_eq_filter,
    List.Nodup.erase_eq_filter (h.nodup.filter _), List.filter_filter, List.filter_filter]
  apply List.filter_congr
  intro b _
  exact Bool.and_comm _ _

/-- An item goes to the end of the list of its new key. -/
theorem move [DecidableEq α] (h : Tracks buckets order key) (hother : ∀ b, b ≠ a → key' b = key b)
    (ha : key' a = some k) :
    Tracks (listAddTail (BucketIndex.listDel buckets a) k a) (order.erase a ++ [a]) key' := by
  have hnot : a ∉ order.erase a := h.nodup.not_mem_erase
  have hdel : Tracks (BucketIndex.listDel buckets a) (order.erase a) key' := by
    apply (h.listDel a).congr
    intro b hb
    apply hother b
    rintro rfl
    exact hnot hb
  refine ⟨?_, fun l => ?_⟩
  · rw [List.nodup_append]
    refine ⟨hdel.nodup, List.nodup_cons.mpr ⟨List.not_mem_nil, List.nodup_nil⟩, ?_⟩
    rintro b hb c hc rfl
    rw [List.mem_singleton] at hc
    exact hnot (hc ▸ hb)
  · rw [listAddTail, List.filter_append, hdel.bucket l, List.filter_singleton, ha]
    by_cases hl : l = k
    · rw [if_pos hl, hl, decide_eq_true rfl]
      rfl
    · have hne : some k ≠ some l := fun hkl => hl (Option.some.inj hkl).symm
      rw [if_neg hl, decide_eq_false hne]
      exact (List.append_nil _).symm

end Tracks

end BucketIndex
end ErofsUtils
