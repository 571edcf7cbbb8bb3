import Mathlib.Data.Int.Basic
import Mathlib.Data.List.Basic
import Mathlib.Tactic.Common

/-!
# Files that are read

A regular file as the system calls find it: it may shrink between two calls, and any of them may
fail. `errno` is whatever an earlier call has left, since a short count does not set it.
-/

namespace ErofsUtils

/-- A regular file: what it holds when a system call is made (it may shrink between two calls),
and which of the calls fail. -/
structure SourceFile where
  content : ℕ → List UInt8
  fault : ℕ → Option ℕ
  fault_pos : ∀ n e, fault n = some e → 0 < e

/-- An open descriptor: how many system calls have been made, the file position, and `errno`. -/
structure FdState where
  calls : ℕ
  pos : ℕ
  errno : ℕ

/-- What `read` and `pread` return. -/
def readCount : Option (List UInt8) → ℤ
  | none => -1
  | some b => b.length

namespace SourceFile

variable (f : SourceFile)

/-- `pread`. At the end of the file it returns fewer bytes and leaves `errno` alone. -/
def pread (s : FdState) (offset n : ℕ) : Option (List UInt8) × FdState :=
  match f.fault s.calls with
  | some e => (none, { s with calls := s.calls + 1, errno := e })
  | none => (some (((f.content s.calls).drop offset).take n), { s with calls := s.calls + 1 })

def read (s : FdState) (n : ℕ) : Option (List UInt8) × FdState :=
  let (r, s') := f.pread s s.pos n
  (r, { s' with pos := s.pos + (r.getD []).length })

end SourceFile

/-- `lseek` with `SEEK_SET`. -/
def FdState.seek (s : FdState) (pos : ℕ) : FdState := { s with pos := pos }

section Reads

variable (f : SourceFile) (s : FdState) (offset n : ℕ)

/-- A read fails, delivers everything, or stops at the end of the file. -/
theorem pread_cases : ((f.pread s offset n).1 = none ∧ 0 < (f.pread s offset n).2.errno) ∨
    (∃ b, (f.pread s offset n).1 = some b ∧ b.length ≤ n ∧
      b = ((f.content s.calls).drop offset).take n ∧ f.fault s.calls = none ∧
      (f.pread s offset n).2 = { s with calls := s.calls + 1 }) := by
  unfold SourceFile.pread
  cases hf : f.fault s.calls with
  | some e => exact .inl ⟨rfl, f.fault_pos _ e hf⟩
  | none => exact .inr ⟨_, rfl, List.length_take_le _ _, rfl, rfl, rfl⟩

theorem read_fst : (f.read s n).1 = (f.pread s s.pos n).1 := rfl

theorem read_errno : (f.read s n).2.errno = (f.pread s s.pos n).2.errno := rfl

theorem readCount_ne (b : List UInt8) : readCount (some b) ≠ n ↔ b.length ≠ n := by
  have hb : readCount (some b) = b.length := rfl
  omega

theorem readCount_none : readCount none ≠ n := by
  have hn : readCount none = -1 := rfl
  omega

end Reads

end ErofsUtils
