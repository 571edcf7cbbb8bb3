import ErofsUtils.CString

/-!
# Partial transfers

The retry loops of `erofs_io_pwrite`, `erofs_io_pread` and `erofs_io_read`, without a dry run and
for a file without operations of its own. The outcomes of the system calls are given; a call moves
as many bytes as its outcome says, but not more than it is asked for. The main theorem says for
which outcomes the loops move what they are asked for and nothing else.
-/

namespace ErofsUtils.IoTransfer
open ByteMemory CString

/-- The outcome of a system call: `EINTR`, another error, or a number of bytes; with none the end
of the file is reached. -/
inductive SysOutcome
  | intr
  | fail (errno : ℕ)
  | moved (n : ℕ)

/-- How a call ends: it is not over when the outcomes are, it has come to the end of its loop or to
an outcome without bytes and returns `n`, or it returns `-errno`. -/
inductive IoResult
  | waiting
  | full (n : ℤ)
  | eof (n : ℤ)
  | error (errno : ℕ)

def intMax : ℕ := 2 ^ 31 - 1

/-- The loop of `erofs_io_pwrite` and `erofs_io_pread` with `buf` and `pos` as they are before the
next call; `move` moves bytes between the buffer and the file. The places of the buffer that are
touched come with it, each as an index and a number of bytes. Every call asks for `len` bytes. -/
def retryLoop {σ : Type*} (move : ℕ → ℕ → ℕ → σ → σ) (len : ℕ) :
    List SysOutcome → ℕ → ℕ → ℕ → σ → σ × List (ℤ × ℕ) × IoResult
  | [], _, _, _, s => (s, [], .waiting)
  | .fail errno :: _, _, _, _, s => (s, [], .error errno)
  | .intr :: os, buf, pos, total, s =>
    if total < len then retryLoop move len os buf pos total s else (s, [], .full total)
  | .moved n :: os, buf, pos, total, s =>
    let ret := min n len
    if ret = 0 then (s, [], .eof total)
    else if total + ret < len then
      let r := retryLoop move len os (buf + ret) (pos + ret) (total + ret) (move buf pos ret s)
      (r.1, ((buf : ℤ), ret) :: r.2.1, r.2.2)
    else (move buf pos ret s, [((buf : ℤ), ret)], .full (total + ret : ℕ))

/-- `erofs_io_pwrite`: the file is changed. -/
def erofsIoPwrite (buf file : Mem) (offset pos len : ℕ) (os : List SysOutcome) :
    Mem × List (ℤ × ℕ) × IoResult :=
  retryLoop (fun b p n file => store file p (slice buf b n)) len os 0 (pos + offset) 0 file

/-- `erofs_io_pread`: the buffer is changed. -/
def erofsIoPread (buf file : Mem) (offset pos len : ℕ) (os : List SysOutcome) :
    Mem × List (ℤ × ℕ) × IoResult :=
  retryLoop (fun b p n buf => store buf b (slice file p n)) len os 0 (pos + offset) 0 buf

/-- Bytes that are stored in a buffer from an index on, which may be in front of it. -/
def storeFrom (buf : ℤ → UInt8) (i : ℤ) (bs : List UInt8) : ℤ → UInt8 := fun k =>
  if i ≤ k then (bs[(k - i).toNat]?).getD (buf k) else buf k

/-- The loop of `erofs_io_read`; `fpos` is the position of the file. After `EINTR` the result of
the call, `-1`, is taken for a number of bytes. -/
def readLoop (file : Mem) :
    List SysOutcome → ℕ → ℤ → ℕ → (ℤ → UInt8) → (ℤ → UInt8) × List (ℤ × ℕ) × IoResult
  | _, 0, i, _, buf => (buf, [], .full i)
  | [], _ + 1, _, _, buf => (buf, [], .waiting)
  | .fail errno :: _, _ + 1, _, _, buf => (buf, [], .error errno)
  | .intr :: os, bytes + 1, i, fpos, buf => readLoop file os (bytes + 2) (i - 1) fpos buf
  | .moved n :: os, bytes + 1, i, fpos, buf =>
    let ret := min n (min (bytes + 1) intMax)
    if ret = 0 then (buf, [], .eof i)
    else
      let r := readLoop file os (bytes + 1 - ret) (i + ret) (fpos + ret)
        (storeFrom buf i (slice file fpos ret))
      (r.1, (i, ret) :: r.2.1, r.2.2)

def erofsIoRead (buf : ℤ → UInt8) (file : Mem) (fpos len : ℕ) (os : List SysOutcome) :
    (ℤ → UInt8) × List (ℤ × ℕ) × IoResult :=
  readLoop file os len 0 fpos buf

/-- The call has moved `n` bytes so far: the result says so, and it is `len` unless the end of the
file or an error has come first. Nothing outside the buffer has been touched. -/
structure Moved (len n : ℕ) (touched : List (ℤ × ℕ)) (result : IoResult) : Prop where
  le : n ≤ len
  full : ∀ v, result = .full v → v = n ∧ n = len
  eof : ∀ v, result = .eof v → v = n
  inside : ∀ t ∈ touched, 0 ≤ t.1 ∧ t.1 + t.2 ≤ len

/-- `erofs_io_pwrite` writes the bytes of the buffer in their order and nothing else. -/
def PwriteExact (len : ℕ) (os : List SysOutcome) : Prop :=
  ∀ (buf file : Mem) (offset pos : ℕ), ∃ n,
    Moved len n (erofsIoPwrite buf file offset pos len os).2.1
      (erofsIoPwrite buf file offset pos len os).2.2 ∧
    (erofsIoPwrite buf file offset pos len os).1 = store file (pos + offset) (slice buf 0 n)

/-- `erofs_io_pread` stores the bytes of the file in their order and nothing else. -/
def PreadExact (len : ℕ) (os : List SysOutcome) : Prop :=
  ∀ (buf file : Mem) (offset pos : ℕ), ∃ n,
    Moved len n (erofsIoPread buf file offset pos len os).2.1
      (erofsIoPread buf file offset pos len os).2.2 ∧
    (erofsIoPread buf file offset pos len os).1 = store buf 0 (slice file (pos + offset) n)

/-- `erofs_io_read` stores the bytes of the file in their order and nothing else. -/
def ReadExact (len : ℕ) (os : List SysOutcome) : Prop :=
  ∀ (buf : ℤ → UInt8) (file : Mem) (fpos : ℕ), ∃ n,
    Moved len n (erofsIoRead buf file fpos len os).2.1 (erofsIoRead buf file fpos len os).2.2 ∧
    (erofsIoRead buf file fpos len os).1 = storeFrom buf 0 (slice file fpos n)

def Fits (len : ℕ) : ℕ → List SysOutcome → Prop
  | 0, _ => True
  | _ + 1, [] => True
  | _ + 1, .fail _ :: _ => True
  | left + 1, .intr :: os => Fits len (left + 1) os
  | left + 1, .moved n :: os =>
    n = 0 ∨ min n len ≤ left + 1 ∧ Fits len (left + 1 - min n len) os

/-- After an interrupted call there are only interrupted calls and a failing one. -/
def OnlyFails : List SysOutcome → Prop
  | [] => True
  | .fail _ :: _ => True
  | .intr :: os => OnlyFails os
  | .moved _ :: _ => False

/-- No call that is interrupted is followed by one that moves bytes or finds the end of the
file. -/
def Uninterrupted : ℕ → List SysOutcome → Prop
  | 0, _ => True
  | _ + 1, [] => True
  | _ + 1, .fail _ :: _ => True
  | _ + 1, .intr :: os => OnlyFails os
  | left + 1, .moved n :: os =>
    n = 0 ∨ Uninterrupted (left + 1 - min n (min (left + 1) intMax)) os

section Retry

variable {σ : Type*} {move : ℕ → ℕ → ℕ → σ → σ} {len : ℕ}

structure Transfers (move : ℕ → ℕ → ℕ → σ → σ) : Prop where
  nil : ∀ b p s, move b p 0 s = s
  add : ∀ b p m n s, move (b + m) (p + m) n (move b p m s) = move b p (m + n) s

theorem Transfers.extend (hmove : Transfers move) (p k n : ℕ) (s : σ) :
    move k (p + k) n (move 0 p k s) = move 0 p (k + n) s := by
  have h := hmove.add 0 p k n s
  rwa [Nat.zero_add] at h

theorem moved_nil {k left : ℕ} (hk : k + left = len) {result : IoResult}
    (hfull : ∀ v, result = .full v → v = k ∧ k = len) (heof : ∀ v, result = .eof v → v = k) :
    Moved len k [] result :=
  ⟨by omega, hfull, heof, by simp⟩

/-- With outcomes that fit, `k` bytes are moved before the next call, and then some more. -/
theorem retryLoop_moved (hmove : Transfers move) {os : List SysOutcome} (p : ℕ) (s : σ)
    {k left : ℕ} (hk : k + left = len) (hleft : left = 0 → len = 0) (hfits : Fits len left os) :
    ∃ n, Moved len n (retryLoop move len os k (p + k) k (move 0 p k s)).2.1
        (retryLoop move len os k (p + k) k (move 0 p k s)).2.2 ∧
      (retryLoop move len os k (p + k) k (move 0 p k s)).1 = move 0 p n s := by
  induction os generalizing k left with
  | nil => exact ⟨k, moved_nil hk (by simp [retryLoop]) (by simp [retryLoop]), rfl⟩
  | cons o os ih =>
    cases o with
    | fail errno => exact ⟨k, moved_nil hk (by simp [retryLoop]) (by simp [retryLoop]), rfl⟩
    | intr =>
      rw [retryLoop]
      by_cases hlt : k < len
      · obtain ⟨left, rfl⟩ : ∃ l, left = l + 1 := ⟨left - 1, by omega⟩
        rw [if_pos hlt]
        exact ih hk hleft hfits
      · rw [if_neg hlt]
        exact ⟨k, moved_nil hk (by simp; omega) (by simp), rfl⟩
    | moved n =>
      rw [retryLoop]
      by_cases hret : min n len = 0
      · simp only [if_pos hret]
        exact ⟨k, moved_nil hk (by simp) (by simp), rfl⟩
      · obtain ⟨left, rfl⟩ : ∃ l, left = l + 1 := ⟨left - 1, by omega⟩
        obtain ⟨hle, hfits⟩ := hfits.resolve_left (by omega)
        by_cases hlt : k + min n len < len
        · obtain ⟨m, hmoved, hs⟩ := @ih (k + min n len) (left + 1 - min n len) (by omega)
            (by omega) hfits
          simp only [if_neg hret, if_pos hlt, Nat.add_assoc, hmove.extend]
          refine ⟨m, ⟨hmoved.le, hmoved.full, hmoved.eof, ?_⟩, hs⟩
          intro t ht
          rcases List.mem_cons.mp ht with rfl | ht
          · exact ⟨by omega, by push_cast; omega⟩
          · exact hmoved.inside t ht
        · simp only [if_neg hret, if_neg hlt, hmove.extend]
          refine ⟨k + min n len, ⟨by omega, ?_, by simp, ?_⟩, rfl⟩
          · rintro v ⟨⟩
            exact ⟨rfl, by omega⟩
          · intro t ht
            rw [List.mem_singleton.mp ht]
            exact ⟨by omega, by push_cast; omega⟩

theorem fits_zero (os : List SysOutcome) : Fits len 0 os := by
  cases os <;> trivial

theorem retryLoop_outside {os : List SysOutcome} (p : ℕ) (s : σ) {k left : ℕ}
    (hk : k + left = len) (hfits : ¬ Fits len left os) :
    ∃ t ∈ (retryLoop move len os k p k s).2.1, (len : ℤ) < t.1 + t.2 := by
  induction os generalizing k left p s with
  | nil => cases left <;> exact absurd trivial hfits
  | cons o os ih =>
    obtain ⟨left, rfl⟩ : ∃ l, left = l + 1 := by
      cases left with
      | zero => exact absurd (fits_zero _) hfits
      | succ left => exact ⟨left, rfl⟩
    have hlt : k < len := by omega
    cases o with
    | fail errno => exact absurd trivial hfits
    | intr =>
      rw [retryLoop, if_pos hlt]
      exact ih p s hk hfits
    | moved n =>
      rw [Fits, not_or, not_and] at hfits
      obtain ⟨hn, hfits⟩ := hfits
      have hret : min n len ≠ 0 := by omega
      rw [retryLoop]
      by_cases hle : min n len ≤ left + 1
      · have hrest := hfits hle
        have hlt' : k + min n len < len := by
          by_contra hge
          have hzero : left + 1 - min n len = 0 := by omega
          rw [hzero] at hrest
          exact hrest (fits_zero os)
        obtain ⟨t, ht, hout⟩ := @ih (p + min n len) (move k p (min n len) s) (k + min n len)
          _ (by omega) hrest
        simp only [if_neg hret, if_pos hlt']
        exact ⟨t, List.mem_cons_of_mem _ ht, hout⟩
      · simp only [if_neg hret]
        split
        · exact ⟨_, List.mem_cons_self, by push_cast; omega⟩
        · exact ⟨_, List.mem_cons_self, by push_cast; omega⟩

end Retry

section Exact

variable {len : ℕ} {os : List SysOutcome}

theorem transfers_pwrite (buf : Mem) :
    Transfers fun b p n file => store file p (slice buf b n) := by
  constructor
  · intro b p file
    exact store_nil file p
  · intro b p m n file
    have h := store_append file p (slice buf b m) (slice buf (b + m) n)
    rwa [length_slice, ← slice_add] at h

theorem transfers_pread (file : Mem) :
    Transfers fun b p n buf => store buf b (slice file p n) := by
  constructor
  · intro b p buf
    exact store_nil buf b
  · intro b p m n buf
    have h := store_append buf b (slice file p m) (slice file (p + m) n)
    rwa [length_slice, ← slice_add] at h

theorem pwriteExact_iff : PwriteExact len os ↔ Fits len len os := by
  constructor
  · intro h
    by_contra hfits
    obtain ⟨n, hmoved, -⟩ := h (fun _ => 0) (fun _ => 0) 0 0
    obtain ⟨t, ht, hout⟩ := @retryLoop_outside Mem
      (fun b p n file => store file p (slice (fun _ => 0) b n)) len os (0 + 0) (fun _ => 0) 0 len
      (Nat.zero_add len) hfits
    have hin := hmoved.inside t ht
    omega
  · intro hfits buf file offset pos
    obtain ⟨n, hmoved, hs⟩ := retryLoop_moved (transfers_pwrite buf) (pos + offset) file
      (Nat.zero_add len) id hfits
    rw [(transfers_pwrite buf).nil, Nat.add_zero] at hmoved hs
    exact ⟨n, hmoved, hs⟩

theorem preadExact_iff : PreadExact len os ↔ Fits len len os := by
  constructor
  · intro h
    by_contra hfits
    obtain ⟨n, hmoved, -⟩ := h (fun _ => 0) (fun _ => 0) 0 0
    obtain ⟨t, ht, hout⟩ := @retryLoop_outside Mem
      (fun b p n buf => store buf b (slice (fun _ => 0) p n)) len os (0 + 0) (fun _ => 0) 0 len
      (Nat.zero_add len) hfits
    have hin := hmoved.inside t ht
    omega
  · intro hfits buf file offset pos
    obtain ⟨n, hmoved, hs⟩ := retryLoop_moved (transfers_pread file) (pos + offset) buf
      (Nat.zero_add len) id hfits
    rw [(transfers_pread file).nil, Nat.add_zero] at hmoved hs
    exact ⟨n, hmoved, hs⟩

end Exact

section Read

variable {len : ℕ} {file : Mem} {buf : ℤ → UInt8}

theorem storeFrom_slice (buf : ℤ → UInt8) (file : Mem) (fpos n p : ℕ) :
    storeFrom buf 0 (slice file fpos n) p = if p < n then file (fpos + p) else buf p := by
  rw [storeFrom, if_pos (Int.natCast_nonneg p), Int.sub_zero, Int.toNat_natCast, getElem?_slice]
  split <;> rfl

theorem storeFrom_of_lt (i k : ℤ) (bs : List UInt8) (h : k < i) : storeFrom buf i bs k = buf k :=
  if_neg (Int.not_le.mpr h)

theorem storeFrom_nil (buf : ℤ → UInt8) (i : ℤ) : storeFrom buf i [] = buf := by
  funext k
  rw [storeFrom, List.getElem?_nil, Option.getD_none, ite_self]

theorem storeFrom_storeFrom (buf : ℤ → UInt8) (i : ℤ) (xs ys : List UInt8) :
    storeFrom (storeFrom buf i xs) (i + xs.length) ys = storeFrom buf i (xs ++ ys) := by
  funext k
  by_cases hk : i + xs.length ≤ k
  · have he : (k - (i + xs.length)).toNat = (k - i).toNat - xs.length := by omega
    have hold : storeFrom buf i xs k = buf k := by
      rw [storeFrom, if_pos (by omega), List.getElem?_eq_none (by omega), Option.getD_none]
    rw [storeFrom, if_pos hk, hold, storeFrom, if_pos (by omega),
      List.getElem?_append_right (by omega), he]
  · rw [storeFrom_of_lt _ _ _ (by omega), storeFrom, storeFrom]
    by_cases hi : i ≤ k
    · rw [if_pos hi, if_pos hi, List.getElem?_append_left (by omega)]
    · rw [if_neg hi, if_neg hi]

theorem storeFrom_append (fpos k n : ℕ) :
    storeFrom (storeFrom buf 0 (slice file fpos k)) k (slice file (fpos + k) n) =
      storeFrom buf 0 (slice file fpos (k + n)) := by
  have h := storeFrom_storeFrom buf 0 (slice file fpos k) (slice file (fpos + k) n)
  rwa [length_slice, Int.zero_add, ← slice_add] at h

theorem readLoop_onlyFails {os : List SysOutcome} (hos : OnlyFails os) (bytes : ℕ) (i : ℤ)
    (fpos : ℕ) :
    ∃ result, readLoop file os (bytes + 1) i fpos buf = (buf, [], result) ∧
      (∀ v, result ≠ .full v) ∧ ∀ v, result ≠ .eof v := by
  induction os generalizing bytes i with
  | nil => exact ⟨_, rfl, by simp, by simp⟩
  | cons o os ih =>
    cases o with
    | fail errno => exact ⟨_, rfl, by simp, by simp⟩
    | intr => exact ih hos (bytes + 1) (i - 1)
    | moved n => cases hos

theorem readLoop_moved {os : List SysOutcome} (buf : ℤ → UInt8) (fpos : ℕ) {k left : ℕ}
    (hk : k + left = len) (hos : Uninterrupted left os) :
    ∃ n, Moved len n
        (readLoop file os left k (fpos + k) (storeFrom buf 0 (slice file fpos k))).2.1
        (readLoop file os left k (fpos + k) (storeFrom buf 0 (slice file fpos k))).2.2 ∧
      (readLoop file os left k (fpos + k) (storeFrom buf 0 (slice file fpos k))).1 =
        storeFrom buf 0 (slice file fpos n) := by
  induction os generalizing k left with
  | nil =>
    refine ⟨k, ?_, ?_⟩
    · cases left with
      | zero => exact moved_nil hk (by simp [readLoop]; omega) (by simp [readLoop])
      | succ left => exact moved_nil hk (by simp [readLoop]) (by simp [readLoop])
    · cases left <;> rfl
  | cons o os ih =>
    cases left with
    | zero => exact ⟨k, moved_nil hk (by simp [readLoop]; omega) (by simp [readLoop]), rfl⟩
    | succ left =>
      cases o with
      | fail errno => exact ⟨k, moved_nil hk (by simp [readLoop]) (by simp [readLoop]), rfl⟩
      | intr =>
        obtain ⟨result, hrun, hfull, heof⟩ := @readLoop_onlyFails file
          (storeFrom buf 0 (slice file fpos k)) os hos (left + 1) (k - 1) (fpos + k)
        rw [readLoop, hrun]
        exact ⟨k, moved_nil hk (fun v h => absurd h (hfull v)) (fun v h => absurd h (heof v)), rfl⟩
      | moved n =>
        rw [readLoop]
        by_cases hret : min n (min (left + 1) intMax) = 0
        · simp only [if_pos hret]
          exact ⟨k, moved_nil hk (by simp) (by simp), rfl⟩
        · have hle : min n (min (left + 1) intMax) ≤ left + 1 := by omega
          have hrest := hos.resolve_left (by omega)
          simp only [if_neg hret, storeFrom_append, Nat.add_assoc]
          generalize min n (min (left + 1) intMax) = c at hle hrest ⊢
          obtain ⟨m, hmoved, hs⟩ := @ih (k + c) (left + 1 - c) (by omega) hrest
          push_cast at hmoved hs
          refine ⟨m, ⟨hmoved.le, hmoved.full, hmoved.eof, ?_⟩, hs⟩
          intro t ht
          rcases List.mem_cons.mp ht with rfl | ht
          · exact ⟨by omega, by push_cast; omega⟩
          · exact hmoved.inside t ht

theorem readLoop_zero_kept {os : List SysOutcome} {bytes fpos : ℕ} {i p : ℤ}
    (hfile : ∀ j, fpos ≤ j → file j = 0) (hbuf : buf p = 0) :
    (readLoop file os bytes i fpos buf).1 p = 0 := by
  induction os generalizing bytes i fpos buf with
  | nil => cases bytes <;> exact hbuf
  | cons o os ih =>
    cases bytes with
    | zero => exact hbuf
    | succ bytes =>
      cases o with
      | fail errno => exact hbuf
      | intr => exact ih hfile hbuf
      | moved n =>
        rw [readLoop]
        simp only
        split
        · exact hbuf
        · apply ih
          · intro j hj
            exact hfile j (by omega)
          · rw [storeFrom]
            split
            · rw [getElem?_slice]
              split
              · exact hfile _ (by omega)
              · exact hbuf
            · exact hbuf

def markedFile (k : ℕ) : Mem := fun j => if j < k then 1 else 0

def markedBuf : ℤ → UInt8 := fun _ => 2

/-- With `m` interrupted calls behind `k` bytes the call goes wrong, unless it fails. -/
theorem readLoop_interrupted {os : List SysOutcome} (hos : ¬ OnlyFails os) {k left m : ℕ}
    (hk : k + left + 1 = len) (hm : 0 < m) (n : ℕ) :
    ¬ (Moved len n
        (readLoop (markedFile k) os (left + 1 + m) (k - m) k
          (storeFrom markedBuf 0 (slice (markedFile k) 0 k))).2.1
        (readLoop (markedFile k) os (left + 1 + m) (k - m) k
          (storeFrom markedBuf 0 (slice (markedFile k) 0 k))).2.2 ∧
      (readLoop (markedFile k) os (left + 1 + m) (k - m) k
          (storeFrom markedBuf 0 (slice (markedFile k) 0 k))).1 =
        storeFrom markedBuf 0 (slice (markedFile k) 0 n)) := by
  have hone : ∀ p : ℕ, p < k → storeFrom markedBuf 0 (slice (markedFile k) 0 k) p = 1 := by
    intro p hp
    rw [storeFrom_slice, if_pos hp, Nat.zero_add, markedFile, if_pos hp]
  induction os generalizing m with
  | nil => exact absurd trivial hos
  | cons o os ih =>
    have hbytes : left + 1 + m = left + m + 1 := by omega
    cases o with
    | fail errno => exact absurd trivial hos
    | intr =>
      have hi : (k : ℤ) - m - 1 = k - (m + 1 : ℕ) := by
        push_cast
        ring
      have hb : left + m + 2 = left + 1 + (m + 1) := by omega
      rw [hbytes, readLoop, hi, hb]
      exact ih hos (Nat.succ_pos m)
    | moved c =>
      rw [hbytes, readLoop]
      rintro ⟨hmoved, hbuf⟩
      simp only at hmoved hbuf
      split at hmoved
      next hret =>
        rw [if_pos hret] at hbuf
        have hn := hmoved.eof _ rfl
        have hlt : n < k := by omega
        have h := congrFun hbuf n
        simp only at h
        rw [hone n hlt, storeFrom_slice, if_neg (Nat.lt_irrefl n), markedBuf] at h
        exact absurd h (by decide)
      next hret =>
        rw [if_neg hret] at hbuf
        have hin := (hmoved.inside _ List.mem_cons_self).1
        simp only at hin hbuf
        obtain ⟨p, hp⟩ : ∃ p : ℕ, (k : ℤ) - m = p := ⟨k - m, by omega⟩
        have hlt : p < k := by omega
        generalize min c (min (left + m + 1) intMax) = d at hret hbuf
        -- the byte behind the interruption stands where the last one was
        have hzero : storeFrom (storeFrom markedBuf 0 (slice (markedFile k) 0 k)) (k - m)
            (slice (markedFile k) k d) p = 0 := by
          rw [storeFrom, if_pos (by omega), getElem?_slice, if_pos (by omega), Option.getD_some,
            markedFile, if_neg (by omega)]
        have hfile : ∀ j, k + d ≤ j → markedFile k j = 0 := by
          intro j hj
          rw [markedFile, if_neg (by omega)]
        have hkept := @readLoop_zero_kept (markedFile k) _ os (left + m + 1 - d) (k + d)
          (k - m + d) p hfile hzero
        have hn := storeFrom_slice markedBuf (markedFile k) 0 n p
        rw [hbuf, hn, Nat.zero_add, markedFile, if_pos hlt, markedBuf] at hkept
        split at hkept
        · exact absurd hkept (by decide)
        · exact absurd hkept (by decide)

theorem readLoop_not_moved {os : List SysOutcome} {k left : ℕ} (hk : k + left = len)
    (hos : ¬ Uninterrupted left os) :
    ∃ j, ∀ n, ¬ (Moved len n
        (readLoop (markedFile j) os left k k
          (storeFrom markedBuf 0 (slice (markedFile j) 0 k))).2.1
        (readLoop (markedFile j) os left k k
          (storeFrom markedBuf 0 (slice (markedFile j) 0 k))).2.2 ∧
      (readLoop (markedFile j) os left k k
          (storeFrom markedBuf 0 (slice (markedFile j) 0 k))).1 =
        storeFrom markedBuf 0 (slice (markedFile j) 0 n)) := by
  induction os generalizing k left with
  | nil => cases left <;> exact absurd trivial hos
  | cons o os ih =>
    cases left with
    | zero => exact absurd trivial hos
    | succ left =>
      cases o with
      | fail errno => exact absurd trivial hos
      | intr =>
        refine ⟨k, fun n => ?_⟩
        have h := @readLoop_interrupted len os hos k left 1 (by omega) Nat.one_pos n
        rw [Nat.cast_one] at h
        exact h
      | moved c =>
        rw [Uninterrupted, not_or] at hos
        obtain ⟨hc, hos⟩ := hos
        have hret : min c (min (left + 1) intMax) ≠ 0 := by
          have hmax : intMax ≠ 0 := by decide
          omega
        have hle : min c (min (left + 1) intMax) ≤ left + 1 := by omega
        generalize hd : min c (min (left + 1) intMax) = d at hret hle hos
        obtain ⟨j, hj⟩ := @ih (k + d) (left + 1 - d) (by omega) hos
        refine ⟨j, fun n h => hj n ?_⟩
        have happ := @storeFrom_append (markedFile j) markedBuf 0 k d
        rw [Nat.zero_add] at happ
        rw [readLoop, hd] at h
        simp only [if_neg hret, happ] at h
        obtain ⟨hmoved, hbuf⟩ := h
        rw [Nat.cast_add]
        refine ⟨⟨hmoved.le, hmoved.full, hmoved.eof, ?_⟩, hbuf⟩
        intro t ht
        exact hmoved.inside t (List.mem_cons_of_mem _ ht)

theorem readExact_iff {os : List SysOutcome} : ReadExact len os ↔ Uninterrupted len os := by
  have hnil : ∀ (buf : ℤ → UInt8) (file : Mem) (fpos : ℕ),
      storeFrom buf 0 (slice file fpos 0) = buf := fun buf _ _ => storeFrom_nil buf 0
  constructor
  · intro h
    by_contra hos
    obtain ⟨j, hj⟩ := readLoop_not_moved (Nat.zero_add len) hos
    obtain ⟨n, hn⟩ := h markedBuf (markedFile j) 0
    rw [hnil] at hj
    exact hj n hn
  · intro hos buf file fpos
    have h := @readLoop_moved len file os buf fpos 0 len (Nat.zero_add len) hos
    rw [hnil] at h
    exact h

end Read

/-- The three loops are exact for all contents exactly if, for the positional ones, no transfer is
longer than what is left of `len`, and for `erofs_io_read` no call that is interrupted is followed
by one that moves bytes or finds the end of the file. -/
theorem io_exact (len : ℕ) (os : List SysOutcome) :
    (PwriteExact len os ↔ Fits len len os) ∧ (PreadExact len os ↔ Fits len len os) ∧
      (ReadExact len os ↔ Uninterrupted len os) :=
  ⟨pwriteExact_iff, preadExact_iff, readExact_iff⟩

/-- A short count of two bytes, and then four of the four that the second call asks for; and an
interrupted call in front of the bytes. -/
theorem io_not_exact :
    ¬ (∀ (len : ℕ) (os : List SysOutcome), PwriteExact len os) ∧
      ¬ (∀ (len : ℕ) (os : List SysOutcome), PreadExact len os) ∧
        ¬ ∀ (len : ℕ) (os : List SysOutcome), ReadExact len os := by
  have hfits : ¬ Fits 4 4 [.moved 2, .moved 4] := by
    simp [Fits]
  have hos : ¬ Uninterrupted 4 [.intr, .moved 4] := id
  refine ⟨fun h => ?_, fun h => ?_, fun h => ?_⟩
  · exact hfits (pwriteExact_iff.mp (h 4 _))
  · exact hfits (preadExact_iff.mp (h 4 _))
  · exact hos (readExact_iff.mp (h 4 _))

end ErofsUtils.IoTransfer
