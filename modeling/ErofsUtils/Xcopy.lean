import ErofsUtils.ByteMemory
import ErofsUtils.Layout

/-!
# Copying a file into the image

`erofs_io_xcopy` to a file without operations of its own tries `copy_file_range` and `sendfile` and
copies the rest by reads and writes. Only `erofs_io_pwrite` adds the offset of the image to the
position. The reads and writes of a turn move what they are asked for, up to the end of the input,
or fail; their own retry loops are the subject of another module.
-/

namespace ErofsUtils
open ByteMemory

/-- `data` is what the input holds from its position on, `len` what is still to be copied to `pos`. -/
@[ext] structure CopyState where
  data : List UInt8
  out : Mem
  pos : ℕ
  len : ℕ

/-- Up to `n` bytes from the input to the output, with `offset` added to the position. -/
def CopyState.move (s : CopyState) (offset n : ℕ) : CopyState where
  data := s.data.drop n
  out := store s.out (offset + s.pos) (s.data.take n)
  pos := s.pos + (s.data.take n).length
  len := s.len - (s.data.take n).length

/-- The outcomes of the fast paths: the input has operations, and is read through them; the bytes
that `copy_file_range` and `sendfile` are willing to move, 0 if they fail or are not there; `noseek`,
and whether `lseek` succeeds. -/
structure FastPaths where
  viaOps : Bool
  copyFileRange : ℕ
  noseek : Bool
  lseekDone : Bool
  sendfile : ℕ

def FastPaths.run (f : FastPaths) (s : CopyState) : CopyState :=
  if s.len = 0 ∨ f.viaOps then s
  else
    let s := s.move 0 (min f.copyFileRange s.len)
    if s.len ≠ 0 ∧ ¬f.noseek ∧ f.lseekDone then s.move 0 (min f.sendfile s.len) else s

def xcopyBufSize : ℕ := 32768

/-- The loop, with the error of each turn, if any; `none` when it has not ended with these turns. -/
def xcopyLoop (offset : ℕ) : List (Option Errno) → CopyState → Option (Except Errno CopyState)
  | [], _ => none
  | some e :: _, _ => some (.error e)
  | none :: turns, s =>
    if (s.move offset (min s.len xcopyBufSize)).len = 0 then some (.ok (s.move offset (min s.len xcopyBufSize)))
    else xcopyLoop offset turns (s.move offset (min s.len xcopyBufSize))

def erofsIoXcopy (f : FastPaths) (offset : ℕ) (turns : List (Option Errno)) (s : CopyState) :
    Option (Except Errno CopyState) :=
  xcopyLoop offset turns (f.run s)

/-- Whatever the output holds: the next `len` bytes of the input come to the position in the image,
as the loop alone would copy them, and an input that ends early is an error. -/
def XcopyCorrect (f : FastPaths) (offset pos len : ℕ) (data : List UInt8) : Prop :=
  ∀ out, ∃ n, if len ≤ data.length then
      erofsIoXcopy f offset (List.replicate n none) ⟨data, out, pos, len⟩ =
        some (.ok ⟨data.drop len, store out (offset + pos) (data.take len), pos + len, 0⟩)
    else ∃ e, erofsIoXcopy f offset (List.replicate n none) ⟨data, out, pos, len⟩ =
        some (.error e)

def FastPaths.Idle (f : FastPaths) (len : ℕ) : Prop :=
  len = 0 ∨ f.viaOps = true ∨
    f.copyFileRange = 0 ∧ (f.noseek = true ∨ f.lseekDone = false ∨ f.sendfile = 0)

namespace CopyState

variable (s : CopyState) (offset : ℕ)

@[simp] theorem move_zero : s.move offset 0 = s := by
  ext <;> simp [move, store_nil]

theorem move_move (m n : ℕ) : (s.move offset m).move offset n = s.move offset (m + n) := by
  have htake : s.data.take (m + n) = s.data.take m ++ (s.data.drop m).take n := List.take_add
  ext1
  · exact List.drop_drop
  · change store (store s.out (offset + s.pos) (s.data.take m))
      (offset + (s.pos + (s.data.take m).length)) ((s.data.drop m).take n) =
      store s.out (offset + s.pos) (s.data.take (m + n))
    rw [htake, ← store_append, Nat.add_assoc]
  · change s.pos + (s.data.take m).length + ((s.data.drop m).take n).length =
      s.pos + (s.data.take (m + n)).length
    rw [htake, List.length_append, Nat.add_assoc]
  · change s.len - (s.data.take m).length - ((s.data.drop m).take n).length =
      s.len - (s.data.take (m + n)).length
    rw [htake, List.length_append, Nat.sub_sub]

variable {s}

theorem move_len {n : ℕ} (hn : n ≤ s.data.length) : (s.move offset n).len = s.len - n := by
  rw [move, List.length_take, Nat.min_eq_left hn]

theorem move_data_length (n : ℕ) : (s.move offset n).data.length = s.data.length - n :=
  List.length_drop

theorem move_all (h : s.len ≤ s.data.length) :
    s.move offset s.len =
      ⟨s.data.drop s.len, store s.out (offset + s.pos) (s.data.take s.len), s.pos + s.len, 0⟩ := by
  ext1
  · rfl
  · rfl
  · change s.pos + (s.data.take s.len).length = s.pos + s.len
    rw [List.length_take, Nat.min_eq_left h]
  · change s.len - (s.data.take s.len).length = 0
    rw [List.length_take, Nat.min_eq_left h, Nat.sub_self]

theorem move_short (h : s.data.length < s.len) {n : ℕ} (hn : n ≤ s.len) :
    (s.move offset n).data.length < (s.move offset n).len := by
  rw [move_data_length]
  change _ < s.len - (s.data.take n).length
  rw [List.length_take]
  omega

end CopyState

section Loop

variable {offset : ℕ}

theorem xcopyLoop_turn (turns : List (Option Errno)) (s : CopyState) :
    xcopyLoop offset (none :: turns) s =
      if (s.move offset (min s.len xcopyBufSize)).len = 0 then
        some (.ok (s.move offset (min s.len xcopyBufSize)))
      else xcopyLoop offset turns (s.move offset (min s.len xcopyBufSize)) := rfl

/-- The loop alone copies everything, if the input is long enough. -/
theorem xcopyLoop_full (s : CopyState) (h : s.len ≤ s.data.length) :
    ∃ n, xcopyLoop offset (List.replicate n none) s = some (.ok (s.move offset s.len)) := by
  induction hlen : s.len using Nat.strong_induction_on generalizing s with
  | _ len ih =>
    have hmove : (s.move offset (min s.len xcopyBufSize)).len = s.len - min s.len xcopyBufSize :=
      CopyState.move_len offset (by omega)
    have hbuf : 0 < xcopyBufSize := by decide
    by_cases hlast : s.len ≤ xcopyBufSize
    · refine ⟨1, ?_⟩
      rw [List.replicate_one, xcopyLoop_turn, if_pos (by omega), Nat.min_eq_left hlast, hlen]
    · rw [Nat.min_eq_right (by omega)] at hmove
      have hdata : (s.move offset xcopyBufSize).data.length = s.data.length - xcopyBufSize :=
        CopyState.move_data_length offset xcopyBufSize
      obtain ⟨n, hn⟩ := ih (len - xcopyBufSize) (by omega) (s.move offset xcopyBufSize) (by omega)
        (by omega)
      refine ⟨n + 1, ?_⟩
      have hsum : xcopyBufSize + (s.len - xcopyBufSize) = len := by omega
      rw [List.replicate_succ, xcopyLoop_turn, Nat.min_eq_right (by omega), if_neg (by omega), hn,
        CopyState.move_move, ← hlen, hsum, hlen]

/-- It never ends when the input is too short: a turn at its end changes nothing. -/
theorem xcopyLoop_short (n : ℕ) (s : CopyState) (h : s.data.length < s.len) :
    xcopyLoop offset (List.replicate n none) s = none := by
  induction n generalizing s with
  | zero => rfl
  | succ n ih =>
    have hshort := CopyState.move_short offset h (Nat.min_le_left s.len xcopyBufSize)
    rw [List.replicate_succ, xcopyLoop_turn, if_neg (by omega)]
    exact ih _ hshort

/-- How many turns there are to run does not matter, once the loop ends. -/
theorem xcopyLoop_agree {n m : ℕ} {s : CopyState} {r r' : Except Errno CopyState}
    (h : xcopyLoop offset (List.replicate n none) s = some r)
    (h' : xcopyLoop offset (List.replicate m none) s = some r') : r = r' := by
  induction n generalizing m s with
  | zero => cases h
  | succ n ih =>
    cases m with
    | zero => cases h'
    | succ m =>
      rw [List.replicate_succ, xcopyLoop_turn] at h h'
      split at h
      next hend =>
        rw [if_pos hend] at h'
        exact Option.some.inj (h.symm.trans h')
      next hend =>
        rw [if_neg hend] at h'
        exact ih h h'

end Loop

namespace FastPaths

variable {f : FastPaths} {s : CopyState}

/-- The bytes that the fast paths move of a long enough input. -/
def bytes (f : FastPaths) (len : ℕ) : ℕ :=
  if len = 0 ∨ f.viaOps then 0
  else if min f.copyFileRange len ≠ len ∧ ¬f.noseek ∧ f.lseekDone then
    min f.copyFileRange len + min f.sendfile (len - min f.copyFileRange len)
  else min f.copyFileRange len

theorem bytes_le (f : FastPaths) (len : ℕ) : f.bytes len ≤ len := by
  unfold bytes
  split_ifs <;> omega

theorem bytes_eq_zero (f : FastPaths) (len : ℕ) : f.bytes len = 0 ↔ f.Idle len := by
  unfold bytes Idle
  by_cases hzero : len = 0
  · rw [if_pos (Or.inl hzero)]
    exact iff_of_true rfl (Or.inl hzero)
  · by_cases hops : f.viaOps = true
    · rw [if_pos (Or.inr hops)]
      exact iff_of_true rfl (Or.inr (Or.inl hops))
    · rw [if_neg (not_or.2 ⟨hzero, hops⟩), or_iff_right hzero, or_iff_right hops]
      by_cases hcopy : f.copyFileRange = 0
      · have hmin : min f.copyFileRange len = 0 := by omega
        rw [hmin, Nat.zero_add, Nat.sub_zero, and_iff_right hcopy]
        cases f.noseek <;> cases f.lseekDone <;> simp [hzero, Ne.symm hzero]
      · have hmin : min f.copyFileRange len ≠ 0 := by omega
        apply iff_of_false
        · split <;> omega
        · exact fun h => hcopy h.1

theorem run_eq (h : s.len ≤ s.data.length) : f.run s = s.move 0 (f.bytes s.len) := by
  unfold run bytes
  by_cases hskip : s.len = 0 ∨ f.viaOps = true
  · rw [if_pos hskip, if_pos hskip, CopyState.move_zero]
  · have hlen : (s.move 0 (min f.copyFileRange s.len)).len =
        s.len - min f.copyFileRange s.len := CopyState.move_len 0 (by omega)
    have hleft : s.len - min f.copyFileRange s.len ≠ 0 ↔ min f.copyFileRange s.len ≠ s.len := by
      omega
    rw [if_neg hskip, if_neg hskip]
    simp only [hlen, hleft]
    split
    · rw [CopyState.move_move]
    · rfl

theorem run_short (h : s.data.length < s.len) : (f.run s).data.length < (f.run s).len := by
  unfold run
  split
  · exact h
  · have hshort := CopyState.move_short 0 h (Nat.min_le_right f.copyFileRange s.len)
    simp only
    split
    · exact CopyState.move_short 0 hshort (Nat.min_le_right _ _)
    · exact hshort

end FastPaths

section Exact

variable {f : FastPaths} {offset pos len : ℕ} {data : List UInt8}

/-- What the fast paths have moved stands in front of the image's offset. -/
theorem xcopy_result (out : Mem) (h : len ≤ data.length) :
    ∃ n, erofsIoXcopy f offset (List.replicate n none) ⟨data, out, pos, len⟩ =
      some (.ok ((CopyState.move ⟨data, out, pos, len⟩ 0 (f.bytes len)).move offset
        (len - f.bytes len))) := by
  have hle := f.bytes_le len
  have hrun : f.run ⟨data, out, pos, len⟩ = CopyState.move ⟨data, out, pos, len⟩ 0 (f.bytes len) :=
    FastPaths.run_eq h
  have hlen : (CopyState.move ⟨data, out, pos, len⟩ 0 (f.bytes len)).len = len - f.bytes len :=
    CopyState.move_len 0 (by change f.bytes len ≤ data.length; omega)
  have hdata : (CopyState.move ⟨data, out, pos, len⟩ 0 (f.bytes len)).data.length =
      data.length - f.bytes len := CopyState.move_data_length 0 _
  obtain ⟨n, hn⟩ := @xcopyLoop_full offset (CopyState.move ⟨data, out, pos, len⟩ 0 (f.bytes len))
    (by omega)
  refine ⟨n, ?_⟩
  rw [erofsIoXcopy, hrun, hn, hlen]

/-- The byte at `pos` tells where the fast paths have written. -/
theorem not_correct_of_moved (hlen : len ≤ data.length) (hoffset : offset ≠ 0)
    (hbytes : f.bytes len ≠ 0) : ¬ XcopyCorrect f offset pos len data := by
  intro h
  have hle := f.bytes_le len
  obtain ⟨b, data', rfl⟩ : ∃ b data', data = b :: data' :=
    List.exists_cons_of_ne_nil (List.ne_nil_of_length_pos (by omega))
  obtain ⟨n, hn⟩ := h fun _ => b + 1
  rw [if_pos hlen] at hn
  obtain ⟨m, hm⟩ := @xcopy_result f offset pos len (b :: data') (fun _ => b + 1) hlen
  have hsame := Except.ok.inj (xcopyLoop_agree hn hm)
  have hpos := congrFun (congrArg CopyState.out hsame) pos
  have hleft : store (fun _ => b + 1) (offset + pos) ((b :: data').take len) pos = b + 1 :=
    store_of_lt _ (by omega)
  have hlong : ((b :: data').take (f.bytes len)).length = f.bytes len := by
    rw [List.length_take]
    omega
  have hright : ((CopyState.move ⟨b :: data', fun _ => b + 1, pos, len⟩ 0 (f.bytes len)).move offset
      (len - f.bytes len)).out pos = b := by
    change store (store (fun _ => b + 1) (0 + pos) ((b :: data').take (f.bytes len)))
      (offset + (pos + ((b :: data').take (f.bytes len)).length)) _ pos = b
    rw [store_of_lt _ (by omega), store, if_pos (by omega)]
    obtain ⟨k, hk⟩ := Nat.exists_eq_succ_of_ne_zero hbytes
    rw [hk, Nat.zero_add, Nat.sub_self, List.take_succ_cons]
    rfl
  rw [hright] at hpos
  have hne : b + 1 = b := hleft.symm.trans hpos
  have hone : (1 : UInt8) = 0 := by
    have hcancel := congrArg (· - b) hne
    simp only [UInt8.add_comm b 1, UInt8.add_sub_cancel, UInt8.sub_self] at hcancel
    exact hcancel
  cases hone

/-- The copy is right exactly if the input has enough bytes, and the image has no offset or the fast
paths move nothing. -/
theorem erofsIoXcopy_exact (f : FastPaths) (offset pos len : ℕ) (data : List UInt8) :
    XcopyCorrect f offset pos len data ↔
      len ≤ data.length ∧ (offset = 0 ∨ f.Idle len) := by
  by_cases hlen : len ≤ data.length
  · rw [and_iff_right hlen, ← f.bytes_eq_zero len]
    constructor
    · intro h
      by_contra hnot
      rw [not_or] at hnot
      exact not_correct_of_moved hlen hnot.1 hnot.2 h
    · intro h out
      obtain ⟨n, hn⟩ := @xcopy_result f offset pos len data out hlen
      refine ⟨n, ?_⟩
      have hle := f.bytes_le len
      have hall : (CopyState.move ⟨data, out, pos, len⟩ 0 (f.bytes len)).move offset
          (len - f.bytes len) = CopyState.move ⟨data, out, pos, len⟩ offset len := by
        rcases h with rfl | hzero
        · rw [CopyState.move_move, Nat.add_sub_cancel' hle]
        · rw [hzero, CopyState.move_zero, Nat.sub_zero]
      rw [if_pos hlen, hn, hall]
      exact congrArg (fun s => some (Except.ok s))
        (CopyState.move_all (s := ⟨data, out, pos, len⟩) offset hlen)
  · apply iff_of_false
    · intro h
      obtain ⟨n, hn⟩ := h fun _ => 0
      rw [if_neg hlen] at hn
      obtain ⟨e, he⟩ := hn
      have hshort : (f.run ⟨data, fun _ => 0, pos, len⟩).data.length <
          (f.run ⟨data, fun _ => 0, pos, len⟩).len :=
        FastPaths.run_short (Nat.lt_of_not_le hlen)
      rw [erofsIoXcopy, xcopyLoop_short n _ hshort] at he
      cases he
    · exact fun h => hlen h.1

/-- Four bytes that `copy_file_range` copies into an image at offset 1024 of its device. -/
theorem erofsIoXcopy_offset : ¬ XcopyCorrect ⟨false, 4, false, true, 0⟩ 1024 0 4 [1, 2, 3, 4] :=
  not_correct_of_moved (by decide) (by decide) (by decide)

end Exact

end ErofsUtils
