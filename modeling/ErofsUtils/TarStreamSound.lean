import ErofsUtils.TarStream

/-!
# The calls follow the stream

A stream whose calls are in step has the next bytes of its input in the buffer, and the file or the
decoder has come as far as these. The calls keep it in step when the file and the decoder fill up
the buffer, when `erofs_iostream_bread` is done in a turn, and when what `erofs_iostream_lskip`
cannot skip fits an `int`.
-/

namespace ErofsUtils
namespace TarStream
open ByteMemory CString IoTransfer

variable {inp : Input} {ios ios' : ErofsIostream} {a : Answers} {p : ℕ}

/-! ## The file and the decoder -/

/-- The outcomes are those of `read` at `fpos` of a file of `size` bytes. -/
def Reads (size : ℕ) : List SysOutcome → ℕ → ℕ → Prop
  | .moved n :: os, bytes + 1, fpos =>
    let ret := min n (min (bytes + 1) IoTransfer.intMax)
    if ret = 0 then size ≤ fpos
    else fpos + ret ≤ size ∧ Reads size os (bytes + 1 - ret) (fpos + ret)
  | .intr :: os, bytes + 1, fpos => Reads size os (bytes + 2) fpos
  | _, _, _ => True

/-- What is documented of `read`, `gzread`, `gzerror` and `lzma_code`: they give out bytes of the
input in their order, as many as there is room for or less, and say at its end only that there are
no more. -/
structure Answers.Honest (inp : Input) (a : Answers) : Prop where
  sys : ∀ pos len, Reads inp.size (a.sys pos len) len pos
  gzread : ∀ pos len n, a.gzread pos len = some n → n ≤ min len (inp.size - pos)
  zStreamEnd : ∀ pos, a.zStreamEnd pos = true → inp.size ≤ pos
  lzmaOut : ∀ pos action availIn availOut,
    (a.lzmaCode pos action availIn availOut).out ≤ min availOut (inp.size - pos)
  lzmaEnd : ∀ pos action availIn availOut,
    (a.lzmaCode pos action availIn availOut).ret = .streamEnd →
      inp.size ≤ pos + (a.lzmaCode pos action availIn availOut).out

/-- No call is interrupted or fails, and the decoder fills the room that there is unless the stream
ends before. -/
def Answers.Full (inp : Input) (a : Answers) : Decoder → Prop
  | .none => ∀ pos len, ∀ o ∈ a.sys pos len, ∃ n, o = .moved n
  | .gzip => ∀ pos len, a.gzread pos len = some (min len (inp.size - pos)) ∧
      (inp.size ≤ pos → a.zStreamEnd pos = true)
  | .liblzma => (∃ n, a.inbuf = .moved n) ∧ ∀ pos action availIn availOut,
      (a.lzmaCode pos action availIn availOut).ret ≠ .error ∧
        (a.lzmaCode pos action availIn availOut).out = min availOut (inp.size - pos)

/-- Uninterrupted calls of `read` move what is asked for, or what the file still has. -/
theorem readLoop_reads {file : Mem} {size left fpos : ℕ} {os : List SysOutcome} {i : ℤ}
    {buf : ℤ → UInt8} (hmoved : ∀ o ∈ os, ∃ n, o = .moved n) (hreads : Reads size os left fpos) :
    (readLoop file os left i fpos buf).2.2 = .waiting ∨
      ((readLoop file os left i fpos buf).2.2 = .full (i + (min left (size - fpos) : ℕ)) ∨
        (readLoop file os left i fpos buf).2.2 = .eof (i + (min left (size - fpos) : ℕ))) ∧
      ((readLoop file os left i fpos buf).2.1.map Prod.snd).sum = min left (size - fpos) ∧
      (readLoop file os left i fpos buf).1 =
        storeFrom buf i (slice file fpos (min left (size - fpos))) := by
  induction os generalizing left fpos i buf with
  | nil =>
    cases left with
    | zero =>
      refine Or.inr ⟨Or.inl ?_, ?_, ?_⟩
      · simp [readLoop]
      · simp [readLoop]
      · rw [Nat.zero_min, slice, storeFrom_nil, readLoop]
    | succ left => exact Or.inl rfl
  | cons o os ih =>
    cases left with
    | zero =>
      refine Or.inr ⟨Or.inl ?_, ?_, ?_⟩
      · simp [readLoop]
      · simp [readLoop]
      · rw [Nat.zero_min, slice, storeFrom_nil, readLoop]
    | succ left =>
      obtain ⟨n, rfl⟩ := hmoved o List.mem_cons_self
      rw [Reads] at hreads
      rw [readLoop]
      by_cases hret : min n (min (left + 1) IoTransfer.intMax) = 0
      · rw [if_pos hret] at hreads
        have hzero : min (left + 1) (size - fpos) = 0 := by omega
        simp only [if_pos hret, hzero, slice, storeFrom_nil]
        simp
      · rw [if_neg hret] at hreads
        obtain ⟨hle, hrest⟩ := hreads
        have hleft : min n (min (left + 1) IoTransfer.intMax) ≤ left + 1 := by omega
        simp only [if_neg hret]
        generalize min n (min (left + 1) IoTransfer.intMax) = c at hle hrest hleft
        have hsplit : min (left + 1) (size - fpos) =
            c + min (left + 1 - c) (size - (fpos + c)) := by omega
        have hstore := storeFrom_storeFrom buf i (slice file fpos c)
          (slice file (fpos + c) (min (left + 1 - c) (size - (fpos + c))))
        rw [length_slice, ← slice_add] at hstore
        have hsum : i + (c : ℤ) + (min (left + 1 - c) (size - (fpos + c)) : ℕ) =
            i + (c + min (left + 1 - c) (size - (fpos + c)) : ℕ) := by
          push_cast
          ring
        have h := @ih (left + 1 - c) (fpos + c) (i + c) (storeFrom buf i (slice file fpos c))
          (fun o ho => hmoved o (List.mem_cons_of_mem _ ho)) hrest
        rw [hsum, hstore] at h
        rw [hsplit, List.map_cons, List.sum_cons]
        cases h with
        | inl hwait => exact Or.inl hwait
        | inr hmore =>
          obtain ⟨hres, htouched, hbuf⟩ := hmore
          refine Or.inr ⟨hres, ?_, hbuf⟩
          rw [htouched]

/-! ## Filling up the buffer -/

structure Filled (inp : Input) (ios ios' : ErofsIostream) (n : ℕ) : Prop where
  sz : ios'.sz = ios.sz
  head : ios'.head = ios.head
  bufsize : ios'.bufsize = ios.bufsize
  decoder : ios'.decoder = ios.decoder
  dump : ios'.dump = ios.dump
  tail : ios'.tail = ios.tail + n
  pos : ios'.pos = ios.pos + n
  old : ∀ k < ios.tail, ios'.buffer k = ios.buffer k
  new : ∀ k < n, ios'.buffer (ios.tail + k : ℕ) = inp.data (ios.pos + k)
  feof : ios'.feof = true → inp.size ≤ ios'.pos

theorem storeFrom_old {buf : ℤ → UInt8} {tail k : ℕ} {bs : List UInt8} (h : k < tail) :
    storeFrom buf tail bs k = buf k := storeFrom_of_lt _ _ _ (by omega)

theorem storeFrom_new {buf : ℤ → UInt8} {data : Mem} {tail pos n k : ℕ} (h : k < n) :
    storeFrom buf tail (slice data pos n) (tail + k : ℕ) = data (pos + k) := by
  have hk : (((tail + k : ℕ) : ℤ) - tail).toNat = k := by omega
  rw [storeFrom, if_pos (by omega), hk, getElem?_slice, if_pos h, Option.getD_some]

section Fill

variable {rabytes n : ℕ} {e : Option ℕ}

theorem fillPlain_full (hhon : a.Honest inp) (hfull : a.Full inp .none) (htail : ios.tail = rabytes)
    (hsize : ios.bufsize ≤ 32768) (hle : rabytes ≤ ios.bufsize)
    (h : fillPlain inp ios rabytes a = some (e, ios')) :
    e = none ∧ Filled inp ios ios' (min (ios.bufsize - rabytes) (inp.size - ios.pos)) := by
  have hread := @readLoop_reads inp.data inp.size (ios.bufsize - rabytes) ios.pos
    (a.sys ios.pos (ios.bufsize - rabytes)) 0 (fun k => ios.buffer (k + rabytes)) (hfull _ _)
    (hhon.sys _ _)
  rw [Int.zero_add] at hread
  have hfit : ios.tail + min (ios.bufsize - rabytes) (inp.size - ios.pos) < 2 ^ 32 := by omega
  unfold fillPlain erofsIoRead at h
  simp only at h
  generalize readLoop inp.data (a.sys ios.pos (ios.bufsize - rabytes)) (ios.bufsize - rabytes) 0
    ios.pos (fun k => ios.buffer (k + rabytes)) = r at hread h
  obtain ⟨buf, touched, result⟩ := r
  simp only at hread h
  have hpos : ¬ ((min (ios.bufsize - rabytes) (inp.size - ios.pos) : ℕ) : ℤ) < 0 := by omega
  rcases hread with rfl | ⟨hres, hsum, rfl⟩
  · cases h
  -- both ends of the loop go on in the same way
  have hgo : some (e, ios') = some (none, { ios with
      buffer := fun k => storeFrom (fun k => ios.buffer (k + rabytes)) 0 (slice inp.data ios.pos
        (min (ios.bufsize - rabytes) (inp.size - ios.pos))) (k - rabytes)
      pos := ios.pos + (touched.map Prod.snd).sum
      tail := u32 (ios.tail + min (ios.bufsize - rabytes) (inp.size - ios.pos))
      feof := decide (((min (ios.bufsize - rabytes) (inp.size - ios.pos) : ℕ) : ℤ) <
        (ios.bufsize - rabytes : ℕ)) }) := by
    rcases hres with rfl | rfl
    · simp only [if_neg hpos, Int.toNat_natCast] at h
      exact h.symm
    · simp only [if_neg hpos, Int.toNat_natCast] at h
      exact h.symm
  obtain ⟨rfl, rfl⟩ := Prod.mk.inj (Option.some.inj hgo)
  refine ⟨rfl, rfl, rfl, rfl, rfl, rfl, ?_, ?_, ?_, ?_, ?_⟩
  · exact Nat.mod_eq_of_lt hfit
  · simp only [hsum]
  · intro k hk
    have hback : (k : ℤ) - rabytes + rabytes = k := by omega
    simp only
    rw [storeFrom_of_lt _ _ _ (by omega), hback]
  · intro k hk
    have hfront : ((ios.tail + k : ℕ) : ℤ) - rabytes = (0 + k : ℕ) := by omega
    have hnew := @storeFrom_new (fun k => ios.buffer (k + rabytes)) inp.data 0 ios.pos _ k hk
    simp only [hfront]
    exact hnew
  · intro hfeof
    have hlt := of_decide_eq_true hfeof
    simp only [hsum]
    omega

theorem fillGzip_full (hfull : a.Full inp .gzip) (hhon : a.Honest inp) (htail : ios.tail = rabytes)
    (hsize : ios.bufsize ≤ 32768) (hle : rabytes ≤ ios.bufsize) (hfeof : ios.feof = false)
    (h : fillGzip inp ios rabytes a = (e, ios')) :
    (e = none ∧ Filled inp ios ios' (min (ios.bufsize - rabytes) (inp.size - ios.pos))) ∨
      (e = some eio ∧ ios' = ios ∧ rabytes = ios.bufsize ∧ ios.pos < inp.size) := by
  obtain ⟨hread, hend⟩ := hfull ios.pos (ios.bufsize - rabytes)
  unfold fillGzip at h
  rw [hread] at h
  have hfit : ios.tail + min (ios.bufsize - rabytes) (inp.size - ios.pos) < 2 ^ 32 := by omega
  cases hn : min (ios.bufsize - rabytes) (inp.size - ios.pos) with
  | zero =>
    simp only [hn] at h
    by_cases hover : inp.size ≤ ios.pos
    · rw [if_pos (hend hover)] at h
      obtain ⟨rfl, rfl⟩ := Prod.mk.inj h
      exact Or.inl ⟨rfl, rfl, rfl, rfl, rfl, rfl, rfl, rfl, fun _ _ => rfl,
        fun k hk => absurd hk (Nat.not_lt_zero k), fun _ => hover⟩
    · have hno : ¬ a.zStreamEnd ios.pos = true := fun hz => hover (hhon.zStreamEnd _ hz)
      rw [if_neg hno] at h
      obtain ⟨rfl, rfl⟩ := Prod.mk.inj h
      exact Or.inr ⟨rfl, rfl, by omega, by omega⟩
  | succ n =>
    simp only [hn] at h
    obtain ⟨rfl, rfl⟩ := Prod.mk.inj h
    rw [hn] at hfit
    refine Or.inl ⟨rfl, rfl, rfl, rfl, rfl, rfl, Nat.mod_eq_of_lt hfit, rfl, ?_, ?_, ?_⟩
    · intro k hk
      exact storeFrom_old (by omega)
    · intro k hk
      have hnew := @storeFrom_new ios.buffer inp.data ios.tail ios.pos (n + 1) k hk
      rwa [htail] at hnew ⊢
    · intro hf
      rw [hfeof] at hf
      cases hf

theorem fillLiblzma_full (hfull : a.Full inp .liblzma) (hhon : a.Honest inp)
    (htail : ios.tail = rabytes) (hsize : ios.bufsize ≤ 32768) (hle : rabytes ≤ ios.bufsize)
    (h : fillLiblzma inp ios rabytes a = (e, ios')) :
    e = none ∧ Filled inp ios ios' (min (ios.bufsize - rabytes) (inp.size - ios.pos)) := by
  obtain ⟨⟨m, hin⟩, hcode⟩ := hfull
  have hfit : ios.tail + min (ios.bufsize - rabytes) (inp.size - ios.pos) < 2 ^ 32 := by omega
  obtain ⟨availIn, action, hinput⟩ : ∃ availIn action,
      lzmaInput ios a = .ok (availIn, action) := by
    unfold lzmaInput
    split
    · exact ⟨min m 32768, if min m 32768 < 32768 then .finish else .run, by rw [hin]⟩
    · exact ⟨ios.availIn, .run, rfl⟩
  obtain ⟨hret, hout⟩ := hcode ios.pos action availIn (ios.bufsize - rabytes)
  have hend := hhon.lzmaEnd ios.pos action availIn (ios.bufsize - rabytes)
  unfold fillLiblzma at h
  simp only [hinput, if_neg hret, hout] at h hend
  obtain ⟨rfl, rfl⟩ := Prod.mk.inj h
  refine ⟨rfl, rfl, rfl, rfl, rfl, rfl, Nat.mod_eq_of_lt hfit, rfl, ?_, ?_, ?_⟩
  · intro k hk
    exact storeFrom_old (by omega)
  · intro k hk
    have hnew := @storeFrom_new ios.buffer inp.data ios.tail ios.pos _ k hk
    rwa [htail] at hnew ⊢
  · intro hf
    exact hend (of_decide_eq_true hf)

/-- The buffer is filled up with the next bytes of the input. Only `gzread` for no bytes in front
of its end is an error. -/
theorem fill_full (hfull : a.Full inp ios.decoder) (hhon : a.Honest inp)
    (htail : ios.tail = rabytes) (hsize : ios.bufsize ≤ 32768) (hle : rabytes ≤ ios.bufsize)
    (hfeof : ios.feof = true → inp.size ≤ ios.pos)
    (h : fill inp ios rabytes a = some (e, ios')) :
    (e = none ∧ Filled inp ios ios' (min (ios.bufsize - rabytes) (inp.size - ios.pos))) ∨
      (e = some eio ∧ ios' = ios ∧ rabytes = ios.bufsize ∧ ios.pos < inp.size) := by
  unfold fill at h
  split at h
  next hf =>
    obtain ⟨rfl, rfl⟩ := Prod.mk.inj (Option.some.inj h)
    have hover := hfeof hf
    have hzero : min (ios.bufsize - rabytes) (inp.size - ios.pos) = 0 := by omega
    rw [hzero]
    exact Or.inl ⟨rfl, rfl, rfl, rfl, rfl, rfl, rfl, rfl, fun _ _ => rfl,
      fun k hk => absurd hk (Nat.not_lt_zero k), fun _ => hover⟩
  next hf =>
    cases hd : ios.decoder with
    | none =>
      rw [hd] at h hfull
      exact Or.inl (fillPlain_full hhon hfull htail hsize hle h)
    | gzip =>
      rw [hd] at h hfull
      exact fillGzip_full hfull hhon htail hsize hle (by simpa using hf) (Option.some.inj h)
    | liblzma =>
      rw [hd] at h hfull
      exact Or.inl (fillLiblzma_full hfull hhon htail hsize hle (Option.some.inj h))

end Fill

/-! ## A stream in step -/

structure InStep (inp : Input) (ios : ErofsIostream) (p : ℕ) : Prop where
  head_le : ios.head ≤ ios.tail
  tail_le : ios.tail ≤ ios.bufsize
  bufsize_pos : 0 < ios.bufsize
  bufsize_le : ios.bufsize ≤ 32768
  held : ∀ k < ios.tail - ios.head, ios.buffer (ios.head + k : ℕ) = inp.data (p + k)
  place : p + (ios.tail - ios.head) = min ios.pos inp.size
  feof : ios.feof = true → inp.size ≤ ios.pos
  sz : ios.sz ≠ 0 → ios.sz = inp.size

/-- How many bytes of the input the calls have not come to. -/
def ErofsIostream.left (inp : Input) (ios : ErofsIostream) : ℕ :=
  (ios.tail - ios.head) + (inp.size - ios.pos)

theorem InStep.le (h : InStep inp ios p) : p ≤ inp.size := by
  have hplace := h.place
  omega

theorem InStep.left_eq (h : InStep inp ios p) : ios.left inp = inp.size - p := by
  have hplace := h.place
  unfold ErofsIostream.left
  omega

theorem InStep.window (h : InStep inp ios p) {n : ℕ} (hn : n ≤ ios.tail - ios.head) :
    slice (window ios.buffer ios.head) 0 n = slice inp.data p n := by
  refine slice_congr fun k hk => ?_
  rw [Nat.zero_add]
  exact h.held k (by omega)

theorem InStep.advance (h : InStep inp ios p) {n : ℕ} (hn : n ≤ ios.tail - ios.head) :
    InStep inp { ios with head := ios.head + n } (p + n) := by
  have hle := h.head_le
  have hplace := h.place
  refine ⟨?_, h.tail_le, h.bufsize_pos, h.bufsize_le, ?_, ?_, h.feof, h.sz⟩
  · simp only
    omega
  · intro k hk
    have heq : ios.head + n + k = ios.head + (n + k) := Nat.add_assoc _ _ _
    simp only at hk ⊢
    rw [heq, h.held (n + k) (by omega), Nat.add_assoc]
  · simp only
    omega

theorem InStep.compact (h : InStep inp ios p) : InStep inp (compact ios) p ∧
    (compact ios).head = 0 ∧ (compact ios).tail = ios.tail - ios.head ∧
      (compact ios).bufsize = ios.bufsize ∧ (compact ios).decoder = ios.decoder := by
  have htail := h.tail_le
  unfold TarStream.compact
  split
  next hz => exact ⟨h, hz, by omega, rfl, rfl⟩
  next hz =>
    refine ⟨⟨Nat.zero_le _, ?_, h.bufsize_pos, h.bufsize_le, ?_, h.place, h.feof, h.sz⟩, rfl, rfl,
      rfl, rfl⟩
    · simp only
      omega
    · intro k hk
      simp only at hk ⊢
      have hnew := @storeFrom_new ios.buffer (TarStream.window ios.buffer ios.head) 0 0
        (ios.tail - ios.head) k hk
      rw [Nat.cast_zero] at hnew
      rw [hnew, Nat.zero_add]
      exact h.held k hk

theorem InStep.filled {n : ℕ} (h : InStep inp ios p) (hzero : ios.head = 0)
    (hf : Filled inp ios ios' n)
    (hn : n = min (ios.bufsize - ios.tail) (inp.size - ios.pos)) : InStep inp ios' p := by
  have hplace := h.place
  have htail := h.tail_le
  refine ⟨?_, ?_, ?_, ?_, ?_, ?_, hf.feof, ?_⟩
  · rw [hf.head, hzero]
    exact Nat.zero_le _
  · rw [hf.tail, hf.bufsize]
    omega
  · rw [hf.bufsize]
    exact h.bufsize_pos
  · rw [hf.bufsize]
    exact h.bufsize_le
  · intro k hk
    rw [hf.head, hf.tail, hzero] at hk
    rw [hf.head, hzero, Nat.zero_add]
    by_cases hold : k < ios.tail
    · have hheld := h.held k (by omega)
      rw [hzero, Nat.zero_add] at hheld
      rw [hf.old k hold, hheld]
    · obtain ⟨j, rfl⟩ : ∃ j, k = ios.tail + j := ⟨k - ios.tail, by omega⟩
      have hpos : ios.pos = p + ios.tail := by omega
      rw [hf.new j (by omega), hpos, Nat.add_assoc]
  · rw [hf.tail, hf.pos, hf.head]
    omega
  · rw [hf.sz]
    exact h.sz

theorem i32_of_le {n : ℕ} (h : n ≤ IoTransfer.intMax) : i32 n = n := by
  have hmax : IoTransfer.intMax = 2147483647 := rfl
  unfold i32
  rw [Int.bmod_def]
  omega

theorem min_i32_intMax {t : ℕ} (ht : t ≤ 32768) (bytes : ℕ) :
    min (i32 t) ((min bytes IoTransfer.intMax : ℕ) : ℤ) = (min bytes t : ℕ) := by
  have hmax : IoTransfer.intMax = 2147483647 := rfl
  rw [i32_of_le (by omega)]
  omega

theorem toNat_emod {n : ℕ} (hn : n ≤ 32768) : ((n : ℤ) % 2 ^ 32).toNat = n := by omega

/-- A call of `erofs_iostream_read` that does not fail gives the next bytes: as many as it is asked
for or as the buffer takes, unless the stream ends before. -/
structure ReadOk (inp : Input) (ios : ErofsIostream) (p bytes : ℕ) (r : ReadOut) : Prop where
  ret : r.ret = (min bytes (min ios.bufsize (inp.size - p)) : ℕ)
  got : slice r.buf 0 r.ret.toNat = slice inp.data p r.ret.toNat
  inStep : InStep inp r.ios (p + r.ret.toNat)
  bufsize : r.ios.bufsize = ios.bufsize
  decoder : r.ios.decoder = ios.decoder
  empty : r.ret.toNat < bytes → r.ios.head = r.ios.tail

theorem InStep.read {bytes : ℕ} {r : ReadOut} (h : InStep inp ios p)
    (hfull : a.Full inp ios.decoder) (hhon : a.Honest inp)
    (hr : erofsIostreamRead inp ios bytes a = some r) :
    ReadOk inp ios p bytes r ∨ r.ret = -eio ∧ InStep inp r.ios p ∧ r.ios.bufsize = ios.bufsize ∧
      r.ios.decoder = ios.decoder ∧ ios.tail - ios.head = ios.bufsize ∧ ios.bufsize < bytes ∧
        ios.bufsize < inp.size - p := by
  have hplace := h.place
  have htail := h.tail_le
  have hbuf := h.bufsize_le
  unfold erofsIostreamRead at hr
  simp only at hr
  split at hr
  next hle =>
    obtain rfl := Option.some.inj hr
    have hmin : bytes = min bytes (min ios.bufsize (inp.size - p)) := by omega
    refine Or.inl ⟨?_, ?_, ?_, rfl, rfl, ?_⟩
    · rw [← hmin]
    · exact h.window hle
    · exact h.advance hle
    · exact fun hlt => absurd hlt (Nat.lt_irrefl _)
  next hgt =>
    obtain ⟨hc, hhead, hctail, hcsize, hcdec⟩ := h.compact
    cases hfill : fill inp (TarStream.compact ios) (ios.tail - ios.head) a with
    | none =>
      rw [hfill] at hr
      cases hr
    | some f =>
      obtain ⟨e, ios'⟩ := f
      rw [hfill] at hr
      have hcplace := hc.place
      rcases fill_full (hcdec ▸ hfull) hhon hctail (hcsize ▸ hbuf) (by omega) hc.feof hfill with
        ⟨rfl, hfilled⟩ | ⟨rfl, rfl, hroom, hpos⟩
      · have hstep := hc.filled hhead hfilled (by rw [hctail])
        have htail' := hfilled.tail
        have hhead' := hfilled.head
        have hstail := hstep.tail_le
        have hssize : ios'.bufsize = ios.bufsize := hfilled.bufsize.trans hcsize
        have htotal : ios'.tail = min ios.bufsize (inp.size - p) := by omega
        have hret : min (i32 ios'.tail) ((min bytes IoTransfer.intMax : ℕ) : ℤ) =
            (min bytes (min ios.bufsize (inp.size - p)) : ℕ) := by
          rw [min_i32_intMax (by omega), htotal]
        have hzero : ios'.head = 0 := hhead'.trans hhead
        simp only [hret, toNat_emod (show min bytes (min ios.bufsize (inp.size - p)) ≤ 32768 by
          omega)] at hr
        obtain rfl := Option.some.inj hr
        have hwindow := hstep.window (n := min bytes (min ios.bufsize (inp.size - p))) (by omega)
        have hadvance := hstep.advance (n := min bytes (min ios.bufsize (inp.size - p))) (by omega)
        rw [hzero] at hwindow
        rw [hzero, Nat.zero_add] at hadvance
        refine Or.inl ⟨rfl, hwindow, hadvance, hssize, hfilled.decoder.trans hcdec, ?_⟩
        intro hlt
        simp only [Int.toNat_natCast] at hlt ⊢
        omega
      · obtain rfl := Option.some.inj hr
        exact Or.inr ⟨rfl, hc, hcsize, hcdec, by omega, by omega, by omega⟩

/-! ## Calls with several turns -/

theorem slice_store_zero (buf : Mem) (bs : List UInt8) :
    slice (store buf 0 bs) 0 bs.length = bs := by
  refine List.ext_getElem? fun k => ?_
  rw [getElem?_slice]
  split
  next hk => rw [Nat.zero_add, store, if_pos (Nat.zero_le _), Nat.sub_zero,
    List.getElem?_eq_getElem hk, Option.getD_some]
  next hk => exact (List.getElem?_eq_none (by omega)).symm

section Turns

variable {as : List Answers} {bytes sz : ℕ}

theorem breadLoop_turn {r : ReadOut} {rem n : ℕ} (hread : erofsIostreamRead inp ios rem a = some r)
    (hret : r.ret = n) (bytes : ℕ) (as : List Answers) (buf : Mem) :
    breadLoop inp bytes (a :: as) ios buf rem =
      if rem - n ≠ 0 ∧ n ≠ 0 then
        breadLoop inp bytes as r.ios (store buf 0 (slice r.buf 0 n)) (rem - n)
      else
        some ⟨i32 (bytes - (rem - n) : ℕ), store buf 0 (slice r.buf 0 n), r.ios⟩ := by
  have hneg : ¬ (n : ℤ) < 0 := by omega
  rw [breadLoop, hread]
  simp only [hret, if_neg hneg, Int.toNat_natCast, ne_eq, Nat.cast_eq_zero]

/-- A call of `erofs_iostream_bread` that is done in a turn, and perhaps one more at the end of the
stream. -/
theorem InStep.bread {buf : Mem} {r : ReadOut} (h : InStep inp ios p)
    (hfull : ∀ a ∈ as, a.Full inp ios.decoder) (hhon : ∀ a ∈ as, a.Honest inp)
    (hfit : bytes ≤ ios.bufsize ∨ inp.size - p ≤ ios.bufsize)
    (hr : erofsIostreamBread inp ios buf bytes as = some r) :
    r.ret = (min bytes (inp.size - p) : ℕ) ∧
      slice r.buf 0 r.ret.toNat = slice inp.data p r.ret.toNat ∧
      InStep inp r.ios (p + r.ret.toNat) ∧ r.ios.bufsize = ios.bufsize ∧
        r.ios.decoder = ios.decoder := by
  have hbuf := h.bufsize_le
  have hle := h.le
  have hi32 : ∀ n ≤ 32768, i32 (n : ℕ) = n := fun n hn => i32_of_le (hn.trans (by decide))
  unfold erofsIostreamBread at hr
  cases as with
  | nil => cases hr
  | cons a as =>
    cases hread : erofsIostreamRead inp ios bytes a with
    | none =>
      rw [breadLoop, hread] at hr
      cases hr
    | some r₁ =>
      rcases h.read (hfull a List.mem_cons_self) (hhon a List.mem_cons_self) hread with
        hok | ⟨-, -, -, -, -, hgt, hleft⟩
      · have hmin : min bytes (min ios.bufsize (inp.size - p)) = min bytes (inp.size - p) := by
          rcases hfit with hb | hs
          · rw [← min_assoc, min_eq_left hb]
          · rw [min_eq_right hs]
        have hret := hok.ret
        rw [hmin] at hret
        have hgot := hok.got
        have hstep := hok.inStep
        rw [hret, Int.toNat_natCast] at hgot hstep
        have hstored : slice (store buf 0 (slice r₁.buf 0 (min bytes (inp.size - p)))) 0
            (min bytes (inp.size - p)) = slice inp.data p (min bytes (inp.size - p)) := by
          have hs := slice_store_zero buf (slice r₁.buf 0 (min bytes (inp.size - p)))
          rw [length_slice] at hs
          exact hs.trans hgot
        have hall : bytes - (bytes - min bytes (inp.size - p)) = min bytes (inp.size - p) := by
          omega
        rw [breadLoop_turn hread hret] at hr
        split at hr
        next hmore =>
          -- the stream is at its end, and the second turn gets nothing
          cases as with
          | nil => cases hr
          | cons a' as =>
            cases hread' : erofsIostreamRead inp r₁.ios (bytes - min bytes (inp.size - p)) a' with
            | none =>
              rw [breadLoop, hread'] at hr
              cases hr
            | some r₂ =>
              have hmem : a' ∈ a :: a' :: as := List.mem_cons_of_mem _ List.mem_cons_self
              rcases hstep.read (hok.decoder ▸ hfull a' hmem) (hhon a' hmem) hread' with
                hok' | ⟨-, -, -, -, -, -, hleft⟩
              · have hnone : min (bytes - min bytes (inp.size - p))
                    (inp.size - p - min bytes (inp.size - p)) = 0 := by
                  rw [Nat.sub_min_sub_right, Nat.sub_self]
                have hzero : min (bytes - min bytes (inp.size - p)) (min r₁.ios.bufsize
                    (inp.size - (p + min bytes (inp.size - p)))) = 0 := by
                  rw [← Nat.sub_sub, min_left_comm, hnone, Nat.min_zero]
                have hret' := hok'.ret
                have hstep' := hok'.inStep
                rw [hzero] at hret'
                rw [hret', Int.toNat_natCast, Nat.add_zero] at hstep'
                rw [breadLoop_turn hread' hret', if_neg (by simp), slice, store_nil, Nat.sub_zero,
                  hall, hi32 _ (by omega)] at hr
                obtain rfl := Option.some.inj hr
                exact ⟨rfl, hstored, hstep', hok'.bufsize.trans hok.bufsize,
                  hok'.decoder.trans hok.decoder⟩
              · omega
        next hdone =>
          rw [hall, hi32 _ (by omega)] at hr
          obtain rfl := Option.some.inj hr
          exact ⟨rfl, hstored, hstep, hok.bufsize, hok.decoder⟩
      · exact absurd hfit (not_or.mpr ⟨Nat.not_le.mpr hgt, Nat.not_le.mpr hleft⟩)

theorem add_min_sub {w a b : ℕ} (ha : w ≤ a) (hb : w ≤ b) :
    w + min (a - w) (b - w) = min a b := by
  rw [Nat.sub_min_sub_right, Nat.add_sub_of_le (le_min ha hb)]

/-- The loop of `erofs_iostream_lskip` skips what it is asked for, or what is left. -/
theorem InStep.lskipLoop {ret : ℤ} (h : InStep inp ios p) (hempty : ios.head = ios.tail)
    (hfull : ∀ a ∈ as, a.Full inp ios.decoder) (hhon : ∀ a ∈ as, a.Honest inp)
    (hr : lskipLoop inp as ios sz = some (ret, ios')) :
    ret = i32 (sz - min sz (inp.size - p) : ℕ) ∧ InStep inp ios' (p + min sz (inp.size - p)) ∧
      ios'.bufsize = ios.bufsize ∧ ios'.decoder = ios.decoder := by
  induction as generalizing ios p sz with
  | nil => cases hr
  | cons a as ih =>
    unfold TarStream.lskipLoop at hr
    cases hread : erofsIostreamRead inp ios sz a with
    | none =>
      rw [hread] at hr
      cases hr
    | some r =>
      rw [hread] at hr
      simp only at hr
      have hpos := h.bufsize_pos
      have hle := h.le
      rcases h.read (hfull a List.mem_cons_self) (hhon a List.mem_cons_self) hread with
        hok | ⟨-, -, -, -, hroom, -⟩
      · have hret := hok.ret
        have hstep := hok.inStep
        have hempty' := hok.empty
        have hto : r.ret.toNat = min sz (min ios.bufsize (inp.size - p)) := by
          rw [hret, Int.toNat_natCast]
        rw [hto] at hstep hempty' hr
        rw [if_neg (by omega)] at hr
        split at hr
        next hend =>
          obtain ⟨rfl, rfl⟩ := Prod.mk.inj (Option.some.inj hr)
          have hall : min sz (min ios.bufsize (inp.size - p)) = min sz (inp.size - p) := by
            rcases hend with hf | hz | hz
            · have hover := hstep.feof hf
              have hplace := hstep.place
              by_cases hlt : min sz (min ios.bufsize (inp.size - p)) < sz
              · have hnone := hempty' hlt
                omega
              · omega
            · omega
            · omega
          rw [hall] at hstep ⊢
          exact ⟨rfl, hstep, hok.bufsize, hok.decoder⟩
        next hmore =>
          obtain ⟨hf, hz, hrest⟩ : r.ios.feof ≠ true ∧ r.ret ≠ 0 ∧
              sz - min sz (min ios.bufsize (inp.size - p)) ≠ 0 := by
            simpa only [not_or] using hmore
          have hgot : min sz (min ios.bufsize (inp.size - p)) ≤ sz := min_le_left _ _
          have hgiven : min sz (min ios.bufsize (inp.size - p)) ≤ inp.size - p :=
            (min_le_right _ _).trans (min_le_right _ _)
          have hnext := ih hstep (hempty' (Nat.lt_of_sub_ne_zero hrest))
            (fun a ha => hok.decoder ▸ hfull a (List.mem_cons_of_mem _ ha))
            (fun a ha => hhon a (List.mem_cons_of_mem _ ha)) hr
          have hsum : p + min sz (min ios.bufsize (inp.size - p)) +
              min (sz - min sz (min ios.bufsize (inp.size - p)))
                (inp.size - (p + min sz (min ios.bufsize (inp.size - p)))) =
              p + min sz (inp.size - p) := by
            rw [Nat.add_assoc, ← Nat.sub_sub, add_min_sub hgot hgiven]
          have hdiff : sz - min sz (min ios.bufsize (inp.size - p)) -
              min (sz - min sz (min ios.bufsize (inp.size - p)))
                (inp.size - (p + min sz (min ios.bufsize (inp.size - p)))) =
              sz - min sz (inp.size - p) := by
            rw [Nat.sub_sub, ← Nat.sub_sub inp.size, add_min_sub hgot hgiven]
          rw [hsum, hdiff, hok.bufsize, hok.decoder] at hnext
          exact hnext
      · omega

theorem InStep.drop (h : InStep inp ios p) :
    InStep inp { ios with head := 0, tail := 0 } (min ios.pos inp.size) := by
  refine ⟨le_refl _, Nat.zero_le _, h.bufsize_pos, h.bufsize_le, ?_, rfl, h.feof, h.sz⟩
  exact fun k hk => absurd hk (Nat.not_lt_zero k)

/-- What is asked of a call of `erofs_iostream_lskip`: it fits an `int` how much of `sz` it cannot
skip, and a file whose position is set is not behind its end, and does not go too far. -/
def LskipFits (inp : Input) (ios : ErofsIostream) (sz : ℕ) : Prop :=
  sz ≤ ios.left inp + IoTransfer.intMax ∧
    (ios.Seeks → ios.pos ≤ inp.size ∧ ios.pos + (sz - (ios.tail - ios.head)) < 2 ^ 63)

theorem lseekCur_of_lt {pos sz : ℕ} (h : pos + sz < 2 ^ 63) :
    lseekCur pos sz = (((pos + sz : ℕ) : ℤ), pos + sz) := by
  have hi : i64 sz = sz := Int.bmod_eq_of_le (by omega) (by omega)
  unfold lseekCur
  simp only [hi, ← Nat.cast_add, Int.toNat_natCast]
  rw [if_pos (by omega)]

/-- The position that `lseek` returns, against the end of the file. -/
theorem seek_past {cur size : ℕ} (hcur : cur < 2 ^ 63) (hle : cur ≤ size + IoTransfer.intMax) :
    (if (size : ℤ) < toU64 cur then i32 (cur - size) else 0) = (cur - size : ℕ) := by
  have hmod : toU64 cur = cur := Int.emod_eq_of_lt (by omega) (by omega)
  rw [hmod]
  split
  next hlt =>
    have hcast : (cur : ℤ) - size = (cur - size : ℕ) := by omega
    rw [hcast]
    exact i32_of_le (by omega)
  next hge => omega

theorem lskipSeek_eq (hlt : ios.pos + sz < 2 ^ 63) (hsz : ios.sz = inp.size)
    (hle : ios.pos + sz ≤ inp.size + IoTransfer.intMax) :
    lskipSeek ios sz =
      (((ios.pos + sz - inp.size : ℕ) : ℤ), { ios with pos := ios.pos + sz }) := by
  unfold lskipSeek
  rw [lseekCur_of_lt hlt, hsz]
  exact congrArg (fun ret => (ret, _)) (seek_past hlt hle)

theorem InStep.lskip {ret : ℤ} (h : InStep inp ios p)
    (hfull : ∀ a ∈ as, a.Full inp ios.decoder) (hhon : ∀ a ∈ as, a.Honest inp)
    (hfit : sz ≤ ios.tail - ios.head ∨ LskipFits inp ios sz)
    (hr : erofsIostreamLskip inp ios sz as = some (ret, ios')) :
    ret = (sz - min sz (inp.size - p) : ℕ) ∧ InStep inp ios' (p + min sz (inp.size - p)) ∧
      ios'.bufsize = ios.bufsize ∧ ios'.decoder = ios.decoder := by
  have hplace := h.place
  have hleft := h.left_eq
  unfold erofsIostreamLskip at hr
  simp only at hr
  split at hr
  next hle =>
    obtain ⟨rfl, rfl⟩ := Prod.mk.inj (Option.some.inj hr)
    have hall : min sz (inp.size - p) = sz := by omega
    rw [hall, Nat.sub_self]
    exact ⟨rfl, h.advance hle, rfl, rfl⟩
  next hgt =>
    obtain ⟨hint, hseek⟩ := hfit.resolve_left hgt
    have hdrop := h.drop
    split at hr
    next hf =>
      obtain ⟨rfl, rfl⟩ := Prod.mk.inj (Option.some.inj hr)
      have hover := h.feof hf
      have hend : min ios.pos inp.size = p + min sz (inp.size - p) := by omega
      have hrest : sz - (ios.tail - ios.head) = sz - min sz (inp.size - p) := by omega
      rw [hend] at hdrop
      rw [hrest]
      exact ⟨i32_of_le (by omega), hdrop, rfl, rfl⟩
    next hf =>
      split at hr
      next hs =>
        obtain ⟨hpos, hlt⟩ := hseek hs
        have hskip : lskipSeek { ios with head := 0, tail := 0 } (sz - (ios.tail - ios.head)) =
            (((ios.pos + (sz - (ios.tail - ios.head)) - inp.size : ℕ) : ℤ),
              { ios with head := 0, tail := 0, pos := ios.pos + (sz - (ios.tail - ios.head)) }) :=
          lskipSeek_eq hlt (h.sz hs.2.1) (by simp only; omega)
        rw [hskip] at hr
        obtain ⟨rfl, rfl⟩ := Prod.mk.inj (Option.some.inj hr)
        refine ⟨by omega, ⟨le_refl _, Nat.zero_le _, h.bufsize_pos, h.bufsize_le, ?_, ?_, ?_, h.sz⟩,
          rfl, rfl⟩
        · exact fun k hk => absurd hk (Nat.not_lt_zero k)
        · simp only
          omega
        · intro hf'
          exact absurd hf' hf
      next hs =>
        have hloop := hdrop.lskipLoop rfl hfull hhon hr
        obtain ⟨hret, hstep, hsize, hdec⟩ := hloop
        have hgot : ios.tail - ios.head ≤ sz := Nat.le_of_not_le hgt
        have hgiven : ios.tail - ios.head ≤ inp.size - p := by omega
        have hto : min ios.pos inp.size + min (sz - (ios.tail - ios.head))
            (inp.size - min ios.pos inp.size) = p + min sz (inp.size - p) := by
          rw [← hplace, Nat.add_assoc, ← Nat.sub_sub, add_min_sub hgot hgiven]
        have hrest : sz - (ios.tail - ios.head) - min (sz - (ios.tail - ios.head))
            (inp.size - min ios.pos inp.size) = sz - min sz (inp.size - p) := by
          rw [← hplace, Nat.sub_sub, ← Nat.sub_sub inp.size, add_min_sub hgot hgiven]
        rw [hto] at hstep
        rw [hrest, i32_of_le (by omega)] at hret
        exact ⟨hret, hstep, hsize, hdec⟩

end Turns

/-! ## Runs -/

inductive Call
  | read (bytes : ℕ)
  | bread (buf : Mem) (bytes : ℕ)
  | lskip (sz : ℕ)

structure Event where
  call : Call
  ret : ℤ
  got : List UInt8

def call (inp : Input) (ios : ErofsIostream) (as : List Answers) (c : Call) :
    Option (Event × ErofsIostream) :=
  match c, as with
  | .read bytes, a :: _ => (erofsIostreamRead inp ios bytes a).map
      fun r => (⟨c, r.ret, slice r.buf 0 r.ret.toNat⟩, r.ios)
  | .bread buf bytes, as => (erofsIostreamBread inp ios buf bytes as).map
      fun r => (⟨c, r.ret, slice r.buf 0 r.ret.toNat⟩, r.ios)
  | .lskip sz, as => (erofsIostreamLskip inp ios sz as).map fun r => (⟨c, r.1, []⟩, r.2)
  | .read _, [] => none

/-- The call gives the bytes of the input from `p` on. Only at its end a call of
`erofs_iostream_read` returns less than it is asked for and less than the buffer takes. -/
def Event.Follows (inp : Input) (bufsize p : ℕ) (e : Event) : Prop :=
  0 ≤ e.ret →
    match e.call with
    | .read bytes => e.got = slice inp.data p e.ret.toNat ∧ e.ret ≤ bytes ∧
        p + e.ret.toNat ≤ inp.size ∧
          (e.ret < (min bytes bufsize : ℕ) → p + e.ret.toNat = inp.size)
    | .bread _ bytes => e.got = slice inp.data p e.ret.toNat ∧ e.ret ≤ bytes ∧
        p + e.ret.toNat ≤ inp.size
    | .lskip sz => e.ret ≤ sz ∧ p + (sz - e.ret.toNat) ≤ inp.size

/-- How far a call comes that does not fail. -/
def Event.advance (e : Event) : ℕ :=
  if e.ret < 0 then 0
  else
    match e.call with
    | .lskip sz => sz - e.ret.toNat
    | _ => e.ret.toNat

def Sequential (inp : Input) (bufsize : ℕ) : ℕ → List Event → Prop
  | _, [] => True
  | p, e :: es => e.Follows inp bufsize p ∧ Sequential inp bufsize (p + e.advance) es

inductive Run (inp : Input) (ok : ErofsIostream → List Answers → Call → Prop) :
    ErofsIostream → List Event → ErofsIostream → Prop
  | nil (ios : ErofsIostream) : Run inp ok ios [] ios
  | cons {ios ios₁ ios₂ : ErofsIostream} {as : List Answers} {c : Call} {e : Event}
      {es : List Event} (hhon : ∀ a ∈ as, a.Honest inp) (hok : ok ios as c)
      (hcall : call inp ios as c = some (e, ios₁)) (hrest : Run inp ok ios₁ es ios₂) :
      Run inp ok ios (e :: es) ios₂

/-- The stream that `erofs_iostream_open` leaves. For a plain file `lseek` finds its end, or
fails. -/
def Start (inp : Input) (ios : ErofsIostream) : Prop :=
  ∃ decoder fsz failed buffer dump,
    erofsIostreamOpen decoder fsz failed buffer dump = some ios ∧
      (decoder = .none → 0 ≤ fsz → fsz = inp.size)

/-- The file and the decoder fill up the buffer; `erofs_iostream_bread` is asked for no more than
the buffer takes, or there is no more left than that; and what `erofs_iostream_lskip` cannot skip
fits an `int`. -/
def Meets (inp : Input) (ios : ErofsIostream) (as : List Answers) (c : Call) : Prop :=
  (∀ a ∈ as, a.Full inp ios.decoder) ∧
    match c with
    | .read _ => True
    | .bread _ bytes => bytes ≤ ios.bufsize ∨ ios.left inp ≤ ios.bufsize
    | .lskip sz => sz ≤ ios.tail - ios.head ∨ LskipFits inp ios sz

theorem Start.inStep (h : Start inp ios) : InStep inp ios 0 := by
  obtain ⟨decoder, fsz, failed, buffer, dump, hopen, hfsz⟩ := h
  unfold erofsIostreamOpen at hopen
  split at hopen
  next => cases hopen
  next hfailed =>
    obtain rfl := Option.some.inj hopen
    have hpow : 2 ^ failed ≤ 32768 := by
      have hle := Nat.pow_le_pow_right (n := 2) (by decide) (Nat.le_of_not_lt hfailed)
      omega
    refine ⟨le_refl _, Nat.zero_le _, Nat.div_pos hpow (by positivity), Nat.div_le_self _ _, ?_, ?_,
      ?_, ?_⟩
    · exact fun k hk => absurd hk (Nat.not_lt_zero k)
    · simp
    · intro hf
      obtain ⟨hd, hzero⟩ := of_decide_eq_true hf
      have hsize := hfsz hd (le_of_eq hzero.symm)
      simp only
      omega
    · intro hsz
      simp only at hsz ⊢
      split at hsz
      next hcond =>
        have hsize := hfsz hcond.1 (le_of_lt hcond.2)
        rw [if_pos hcond]
        omega
      next => exact absurd rfl hsz

theorem InStep.call {as : List Answers} {c : Call} {e : Event} (h : InStep inp ios p)
    (hhon : ∀ a ∈ as, a.Honest inp) (hok : Meets inp ios as c)
    (hcall : call inp ios as c = some (e, ios')) :
    e.Follows inp ios.bufsize p ∧ InStep inp ios' (p + e.advance) ∧ ios'.bufsize = ios.bufsize := by
  have hle := h.le
  obtain ⟨hfull, hfit⟩ := hok
  cases c with
  | read bytes =>
    cases as with
    | nil => cases hcall
    | cons a as =>
      obtain ⟨r, hr, hout⟩ := Option.map_eq_some_iff.mp hcall
      obtain ⟨rfl, rfl⟩ := Prod.mk.inj hout
      rcases h.read (hfull a List.mem_cons_self) (hhon a List.mem_cons_self) hr with
        hread | ⟨hret, hstep, hsize, -⟩
      · have hret := hread.ret
        have hneg : ¬ r.ret < 0 := by omega
        refine ⟨fun _ => ⟨hread.got, ?_, ?_, ?_⟩, ?_, hread.bufsize⟩
        · simp only
          omega
        · simp only
          omega
        · simp only
          omega
        · have hstep := hread.inStep
          simp only [Event.advance, if_neg hneg]
          exact hstep
      · have hneg : r.ret < 0 := by
          rw [hret]
          decide
        refine ⟨fun hpos => absurd hpos (by simpa using hneg), ?_, hsize⟩
        simp only [Event.advance, if_pos hneg]
        exact hstep
  | bread buf bytes =>
    obtain ⟨r, hr, hout⟩ := Option.map_eq_some_iff.mp hcall
    obtain ⟨rfl, rfl⟩ := Prod.mk.inj hout
    simp only [h.left_eq] at hfit
    obtain ⟨hret, hgot, hstep, hsize, -⟩ := h.bread hfull hhon hfit hr
    have hneg : ¬ r.ret < 0 := by omega
    refine ⟨fun _ => ⟨hgot, ?_, ?_⟩, ?_, hsize⟩
    · simp only
      omega
    · simp only
      omega
    · simp only [Event.advance, if_neg hneg]
      exact hstep
  | lskip sz =>
    obtain ⟨r, hr, hout⟩ := Option.map_eq_some_iff.mp hcall
    obtain ⟨ret, ios₁⟩ := r
    obtain ⟨rfl, rfl⟩ := Prod.mk.inj hout
    obtain ⟨hret, hstep, hsize, -⟩ := h.lskip hfull hhon hfit hr
    have hneg : ¬ ret < 0 := by omega
    have hskip : sz - ret.toNat = min sz (inp.size - p) := by omega
    refine ⟨fun _ => ⟨?_, ?_⟩, ?_, hsize⟩
    · simp only
      omega
    · simp only
      omega
    · simp only [Event.advance, if_neg hneg, hskip]
      exact hstep

/-- In a run whose calls all meet the condition, the calls follow the stream from where they have
come to. -/
theorem InStep.run {es : List Event} (h : InStep inp ios p)
    (hrun : Run inp (Meets inp) ios es ios') : Sequential inp ios.bufsize p es := by
  induction hrun generalizing p with
  | nil => trivial
  | cons hhon hok hcall _ ih =>
    obtain ⟨hfollows, hstep, hsize⟩ := h.call hhon hok hcall
    have hrest := ih hstep
    rw [hsize] at hrest
    exact ⟨hfollows, hrest⟩

/-- In every run from `erofs_iostream_open` whose calls all meet the condition, the calls give the
bytes of the input one after the other. -/
theorem iostream_sequential {ios₀ : ErofsIostream} {es : List Event} (hstart : Start inp ios₀)
    (hrun : Run inp (Meets inp) ios₀ es ios) : Sequential inp ios₀.bufsize 0 es :=
  hstart.inStep.run hrun

/-! ## A decoder that fills up the buffer -/

def gzipAnswers (inp : Input) : Answers where
  sys := fun _ _ => []
  inbuf := .moved 0
  gzread := fun pos len => some (min len (inp.size - pos))
  zStreamEnd := fun pos => decide (inp.size ≤ pos)
  lzmaCode := fun _ _ _ _ => ⟨.ok, 0, 0⟩

theorem gzipAnswers_honest (inp : Input) : (gzipAnswers inp).Honest inp where
  sys := fun _ len => by cases len <;> trivial
  gzread := fun _ _ _ h => le_of_eq (Option.some.inj h).symm
  zStreamEnd := fun _ h => of_decide_eq_true h
  lzmaOut := fun _ _ _ _ => Nat.zero_le _
  lzmaEnd := fun _ _ _ _ h => absurd h (by simp [gzipAnswers])

theorem gzipAnswers_full (inp : Input) : (gzipAnswers inp).Full inp .gzip :=
  fun _ _ => ⟨rfl, fun h => decide_eq_true h⟩

def gzipStream : ErofsIostream where
  sz := 0
  buffer := fun _ => 0
  head := 0
  tail := 0
  bufsize := 32768
  decoder := .gzip
  dump := false
  feof := false
  availIn := 0
  pos := 0

theorem gzipStream_start (inp : Input) : Start inp gzipStream :=
  ⟨.gzip, 0, 0, fun _ => 0, false, rfl, fun h => by cases h⟩

/-- A call behind `gzread` always returns. -/
theorem gzip_returns (hd : ios.decoder = .gzip) (bytes : ℕ) (a : Answers) :
    ∃ r, erofsIostreamRead inp ios bytes a = some r := by
  have hc : (compact ios).decoder = .gzip := by
    unfold compact
    split
    · exact hd
    · exact hd
  obtain ⟨⟨e, ios'⟩, hfill⟩ : ∃ f, fill inp (compact ios) (ios.tail - ios.head) a = some f := by
    unfold fill
    split
    · exact ⟨_, rfl⟩
    · rw [hc]
      exact ⟨_, rfl⟩
  unfold erofsIostreamRead
  by_cases hle : bytes ≤ ios.tail - ios.head
  · exact ⟨_, if_pos hle⟩
  · simp only [if_neg hle, hfill]
    cases e with
    | none => exact ⟨_, rfl⟩
    | some errno => exact ⟨_, rfl⟩

/-- The condition of a call, for a decoder that is not skipped by setting the position. -/
def Call.fits (inp : Input) (ios : ErofsIostream) : Call → Bool
  | .read _ => true
  | .bread _ bytes => bytes ≤ ios.bufsize
  | .lskip sz => sz ≤ ios.left inp + IoTransfer.intMax ∧ ¬ios.Seeks

/-- The calls of a run behind `gzread` with the same answers each time, as long as each of them
meets the condition. -/
def runGzip (inp : Input) (as : List Answers) :
    ErofsIostream → List Call → Option (List Event × ErofsIostream)
  | ios, [] => some ([], ios)
  | ios, c :: cs =>
    if ios.decoder = .gzip ∧ c.fits inp ios then
      (call inp ios as c).bind fun r =>
        (runGzip inp as r.2 cs).map fun q => (r.1 :: q.1, q.2)
    else none

theorem run_of_runGzip {inp : Input} {as : List Answers} {ios ios' : ErofsIostream}
    {cs : List Call} {es : List Event} (hhon : ∀ a ∈ as, a.Honest inp)
    (hfull : ∀ a ∈ as, a.Full inp .gzip) (h : runGzip inp as ios cs = some (es, ios')) :
    Run inp (Meets inp) ios es ios' := by
  induction cs generalizing ios es with
  | nil =>
    cases h
    exact .nil _
  | cons c cs ih =>
    rw [runGzip] at h
    split at h
    next hc =>
      obtain ⟨r, hcall, hrest⟩ := Option.bind_eq_some_iff.mp h
      obtain ⟨q, hq, heq⟩ := Option.map_eq_some_iff.mp hrest
      cases heq
      refine .cons hhon ⟨fun a ha => hc.1 ▸ hfull a ha, ?_⟩ hcall (ih hq)
      cases c with
      | read bytes => trivial
      | bread buf bytes => exact Or.inl (of_decide_eq_true hc.2)
      | lskip sz =>
        obtain ⟨hsz, hno⟩ := of_decide_eq_true hc.2
        exact Or.inr ⟨hsz, fun hseeks => absurd hseeks hno⟩
    next => cases h

def smallBuffer : ErofsIostream := { gzipStream with bufsize := 1024 }

/-- The second call moves what is left in the buffer, and the last one skips beyond it. -/
def fourCalls : List Call := [.read 600, .read 600, .bread (fun _ => 0) 200, .lskip 150]

theorem iostream_sequential_fourCalls :
    ∃ inp es ios, es.length = 4 ∧ Start inp smallBuffer ∧ Run inp (Meets inp) smallBuffer es ios ∧
      Sequential inp smallBuffer.bufsize 0 es := by
  let inp : Input := ⟨fun k => UInt8.ofNat k, 1500⟩
  have hall : ((runGzip inp [gzipAnswers inp] smallBuffer fourCalls).map fun r => r.1.length) =
      some 4 := by decide +kernel
  obtain ⟨⟨es, ios⟩, hcalls, hlen⟩ := Option.map_eq_some_iff.mp hall
  have hstart : Start inp smallBuffer := ⟨.gzip, 0, 5, fun _ => 0, false, rfl, fun h => by cases h⟩
  have hrun := run_of_runGzip (fun a ha => List.mem_singleton.mp ha ▸ gzipAnswers_honest inp)
    (fun a ha => List.mem_singleton.mp ha ▸ gzipAnswers_full inp) hcalls
  exact ⟨inp, es, ios, hlen, hstart, hrun, iostream_sequential hstart hrun⟩

/-- A stream of 32769 bytes: zeros, and then a one. -/
def longInput : Input := ⟨fun k => if k < 32768 then 0 else 1, 32769⟩

/-- `erofs_iostream_bread` for all of them copies the last one to the start of `buf`. -/
theorem bread_longInput : ∃ r, erofsIostreamBread longInput gzipStream (fun _ => 0) 32769
    [gzipAnswers longInput, gzipAnswers longInput] = some r ∧ r.ret = (32769 : ℕ) ∧
      r.buf 0 = 1 := by
  have hsize : longInput.size = 32769 := rfl
  have hbuf : gzipStream.bufsize = 32768 := rfl
  have hstep := (gzipStream_start longInput).inStep
  obtain ⟨r₁, hr₁⟩ := @gzip_returns longInput gzipStream rfl 32769 (gzipAnswers longInput)
  rcases hstep.read (gzipAnswers_full longInput) (gzipAnswers_honest longInput) hr₁ with
    hok₁ | ⟨-, -, -, -, hroom, -⟩
  · have hret₁ : r₁.ret = (32768 : ℕ) := by
      have hret := hok₁.ret
      omega
    have hstep₁ := hok₁.inStep
    have hdec₁ : r₁.ios.decoder = .gzip := hok₁.decoder
    have hbuf₁ := hok₁.bufsize
    obtain ⟨r₂, hr₂⟩ := @gzip_returns longInput r₁.ios hdec₁ (32769 - 32768) (gzipAnswers longInput)
    rcases hstep₁.read (hdec₁ ▸ gzipAnswers_full longInput) (gzipAnswers_honest longInput) hr₂ with
      hok₂ | ⟨-, -, -, -, -, hlt, -⟩
    · have hret₂ : r₂.ret = (1 : ℕ) := by
        have hret := hok₂.ret
        omega
      have hgot₂ := hok₂.got
      rw [hret₁, hret₂] at hgot₂
      have hone : r₂.buf 0 = 1 := by simpa [slice, longInput] using hgot₂
      have hlen : 32769 ≤ IoTransfer.intMax := by decide
      have hi32 := i32_of_le hlen
      refine ⟨⟨i32 (32769 : ℕ), store (store (fun _ => 0) 0 (slice r₁.buf 0 32768)) 0
        (slice r₂.buf 0 1), r₂.ios⟩, ?_, hi32, ?_⟩
      · rw [erofsIostreamBread, breadLoop_turn hr₁ hret₁, if_pos (by decide),
          breadLoop_turn hr₂ hret₂, if_neg (by decide)]
      · generalize slice r₁.buf 0 32768 = bs
        simpa [store, slice] using hone
    · omega
  · exact absurd hroom (by decide)

/-- The calls of a run need not give the bytes of the stream. -/
theorem iostream_not_sequential :
    ¬ ∀ (inp : Input) (ios₀ ios : ErofsIostream) (es : List Event), Start inp ios₀ →
      Run inp (fun _ _ _ => True) ios₀ es ios → Sequential inp ios₀.bufsize 0 es := by
  intro h
  obtain ⟨r, hr, hret, hbuf⟩ := bread_longInput
  have hrun : Run longInput (fun _ _ _ => True) gzipStream
      [⟨.bread (fun _ => 0) 32769, r.ret, slice r.buf 0 r.ret.toNat⟩] r.ios := by
    refine @Run.cons _ _ _ _ _ [gzipAnswers longInput, gzipAnswers longInput]
      (.bread (fun _ => 0) 32769) _ _ ?_ trivial ?_ (.nil _)
    · intro a ha
      rcases List.mem_cons.mp ha with rfl | ha
      · exact gzipAnswers_honest _
      · rw [List.mem_singleton.mp ha]
        exact gzipAnswers_honest _
    · rw [call, hr, Option.map_some]
  have hfollows := (h _ _ _ _ (gzipStream_start _) hrun).1
  obtain ⟨hgot, -, -⟩ := hfollows (by simp only [hret]; omega)
  have hfirst := congrArg (fun bs => bs[0]?) hgot
  simp only [hret, Int.toNat_natCast, getElem?_slice] at hfirst
  rw [if_pos (by decide), if_pos (by decide), Nat.add_zero, hbuf] at hfirst
  exact absurd (Option.some.inj hfirst) (by decide)

end TarStream
end ErofsUtils
