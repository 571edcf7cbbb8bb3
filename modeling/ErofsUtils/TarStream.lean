import ErofsUtils.IoTransfer
import ErofsUtils.Layout
import ErofsUtils.TarNumber

/-!
# The input stream of a tar file

`erofs_iostream_open`, `erofs_iostream_read`, `erofs_iostream_bread` and `erofs_iostream_lskip` over
a plain file or a decoder. What `read`, `gzread` and `lzma_code` answer is given, and the main
theorem says in which runs the calls follow the stream byte after byte.
-/

namespace ErofsUtils
namespace TarStream
open ByteMemory CString IoTransfer

inductive Decoder
  | none
  | gzip
  | liblzma
  deriving DecidableEq

/-- What the tar file holds, behind its decoder. -/
structure Input where
  data : Mem
  size : ℕ

inductive LzmaAction
  | run
  | finish

inductive LzmaRet
  | ok
  | streamEnd
  | error
  deriving DecidableEq

/-- What `lzma_code` returns, what it leaves of its input, and how many bytes it gives out. -/
structure LzmaTurn where
  ret : LzmaRet
  availIn : ℕ
  out : ℕ

/-- What the file and the decoder answer in a call of `erofs_iostream_read` when they have come to
`pos`: the calls of `read` that the plain file takes for `len` bytes, and the one that fills
`inbuf`; `gzread`, where `none` stands for `-1`, and whether `gzerror` says `Z_STREAM_END`; and
`lzma_code`. -/
structure Answers where
  sys : (pos len : ℕ) → List SysOutcome
  inbuf : SysOutcome
  gzread : (pos len : ℕ) → Option ℕ
  zStreamEnd : (pos : ℕ) → Bool
  lzmaCode : (pos : ℕ) → LzmaAction → (availIn availOut : ℕ) → LzmaTurn

/-- `struct erofs_iostream`; `dump` says whether there is a `dumpfd`, `availIn` is that of the
decoder's `strm`, and `pos` is how far the file or the decoder has come. -/
structure ErofsIostream where
  sz : ℕ
  buffer : ℤ → UInt8
  head : ℕ
  tail : ℕ
  bufsize : ℕ
  decoder : Decoder
  dump : Bool
  feof : Bool
  availIn : ℕ
  pos : ℕ

def eintr : ℕ := 4

def eio : ℕ := 5

def i32 (x : ℤ) : ℤ := x.bmod (2 ^ 32)

def toU64 (x : ℤ) : ℤ := x % 2 ^ 64

def window (buffer : ℤ → UInt8) (off : ℕ) : Mem := fun k => buffer (off + k : ℕ)

/-- `erofs_iostream_open` for a file whose end `lseek` finds at `fsz`, when `failed` calls of
`malloc` fail; `dumpfd` is set behind it. -/
def erofsIostreamOpen (decoder : Decoder) (fsz : ℤ) (failed : ℕ) (buffer : ℤ → UInt8)
    (dump : Bool) : Option ErofsIostream :=
  if 5 < failed then none
  else some {
    sz := if decoder = .none ∧ 0 < fsz then fsz.toNat else 0
    buffer := buffer
    head := 0
    tail := 0
    bufsize := 32768 / 2 ^ failed
    decoder := decoder
    dump := dump
    feof := decoder = .none ∧ fsz = 0
    availIn := 0
    pos := 0 }

/-- The buffer is filled up behind its first `rabytes` bytes. There is no result when the calls of
`read` are not over, and an errno when `erofs_iostream_read` returns it. -/
def fillPlain (inp : Input) (ios : ErofsIostream) (rabytes : ℕ) (a : Answers) :
    Option (Option ℕ × ErofsIostream) :=
  let room := ios.bufsize - rabytes
  let r := erofsIoRead (fun k => ios.buffer (k + rabytes)) inp.data ios.pos room
    (a.sys ios.pos room)
  let ios' := { ios with
    buffer := fun k => r.1 (k - rabytes)
    pos := ios.pos + (r.2.1.map Prod.snd).sum }
  match r.2.2 with
  | .waiting => none
  | .error errno => some (some errno, ios')
  | .full n | .eof n =>
    if n < 0 then some (some (-n).toNat, ios')
    else some (none, { ios' with tail := u32 (ios.tail + n.toNat), feof := decide (n < room) })

def fillGzip (inp : Input) (ios : ErofsIostream) (rabytes : ℕ) (a : Answers) :
    Option ℕ × ErofsIostream :=
  match a.gzread ios.pos (ios.bufsize - rabytes) with
  | none => (none, { ios with tail := u32 (ios.tail + (2 ^ 32 - 1)) })
  | some 0 => if a.zStreamEnd ios.pos then (none, { ios with feof := true }) else (some eio, ios)
  | some (n + 1) =>
    (none, { ios with
      buffer := storeFrom ios.buffer rabytes (slice inp.data ios.pos (n + 1))
      tail := u32 (ios.tail + (n + 1))
      pos := ios.pos + (n + 1) })

/-- What the decoder has for input, after a call of `read` into `inbuf` when that is empty, and the
action. -/
def lzmaInput (ios : ErofsIostream) (a : Answers) : Except ℕ (ℕ × LzmaAction) :=
  if ios.availIn = 0 then
    match a.inbuf with
    | .intr => .error eintr
    | .fail errno => .error errno
    | .moved n => .ok (min n 32768, if min n 32768 < 32768 then .finish else .run)
  else .ok (ios.availIn, .run)

def fillLiblzma (inp : Input) (ios : ErofsIostream) (rabytes : ℕ) (a : Answers) :
    Option ℕ × ErofsIostream :=
  match lzmaInput ios a with
  | .error errno => (some errno, ios)
  | .ok (availIn, action) =>
    let t := a.lzmaCode ios.pos action availIn (ios.bufsize - rabytes)
    let ios' := { ios with
      buffer := storeFrom ios.buffer rabytes (slice inp.data ios.pos t.out)
      availIn := t.availIn
      pos := ios.pos + t.out }
    if t.ret = .error then (some eio, ios')
    else (none, { ios' with
      tail := u32 (ios.tail + t.out)
      feof := decide (t.ret = .streamEnd) })

def fill (inp : Input) (ios : ErofsIostream) (rabytes : ℕ) (a : Answers) :
    Option (Option ℕ × ErofsIostream) :=
  if ios.feof then some (none, ios)
  else
    match ios.decoder with
    | .gzip => some (fillGzip inp ios rabytes a)
    | .liblzma => some (fillLiblzma inp ios rabytes a)
    | .none => fillPlain inp ios rabytes a

/-- What `erofs_iostream_read` returns, what `buf` points at, and the stream behind it. -/
structure ReadOut where
  ret : ℤ
  buf : Mem
  ios : ErofsIostream

/-- `memmove` of the bytes that are left to the front of the buffer. -/
def compact (ios : ErofsIostream) : ErofsIostream :=
  if ios.head = 0 then ios
  else { ios with
    buffer := storeFrom ios.buffer 0 (slice (window ios.buffer ios.head) 0 (ios.tail - ios.head))
    head := 0
    tail := ios.tail - ios.head }

def erofsIostreamRead (inp : Input) (ios : ErofsIostream) (bytes : ℕ) (a : Answers) :
    Option ReadOut :=
  let rabytes := ios.tail - ios.head
  if bytes ≤ rabytes then
    some ⟨bytes, window ios.buffer ios.head, { ios with head := ios.head + bytes }⟩
  else
    match fill inp (compact ios) rabytes a with
    | none => none
    | some (some errno, ios) => some ⟨-errno, window ios.buffer 0, ios⟩
    | some (none, ios) =>
      let ret := min (i32 ios.tail) (min bytes IoTransfer.intMax : ℕ)
      some ⟨ret, window ios.buffer 0, { ios with head := (ret % 2 ^ 32).toNat }⟩

/-- The loop of `erofs_iostream_bread` for `bytes` bytes of which `rem` are left, with the answers
of its turns. Each turn copies to the start of `buf`. -/
def breadLoop (inp : Input) (bytes : ℕ) :
    List Answers → ErofsIostream → Mem → ℕ → Option ReadOut
  | [], _, _, _ => none
  | a :: as, ios, buf, rem =>
    match erofsIostreamRead inp ios rem a with
    | none => none
    | some r =>
      if r.ret < 0 then some ⟨r.ret, buf, r.ios⟩
      else
        let buf := store buf 0 (slice r.buf 0 r.ret.toNat)
        let rem := rem - r.ret.toNat
        if rem ≠ 0 ∧ r.ret ≠ 0 then breadLoop inp bytes as r.ios buf rem
        else some ⟨i32 (bytes - rem : ℕ), buf, r.ios⟩

def erofsIostreamBread (inp : Input) (ios : ErofsIostream) (buf : Mem) (bytes : ℕ)
    (as : List Answers) : Option ReadOut :=
  breadLoop inp bytes as ios buf bytes

/-- `lseek` with `SEEK_CUR`: what it returns and the position behind it. -/
def lseekCur (pos sz : ℕ) : ℤ × ℕ :=
  let cur := (pos : ℤ) + i64 sz
  if 0 ≤ cur ∧ cur < 2 ^ 63 then (cur, cur.toNat) else (-1, pos)

def lskipLoop (inp : Input) : List Answers → ErofsIostream → ℕ → Option (ℤ × ErofsIostream)
  | [], _, _ => none
  | a :: as, ios, sz =>
    match erofsIostreamRead inp ios sz a with
    | none => none
    | some r =>
      if r.ret < 0 then some (r.ret, r.ios)
      else
        let sz := sz - r.ret.toNat
        if r.ios.feof ∨ r.ret = 0 ∨ sz = 0 then some (i32 sz, r.ios)
        else lskipLoop inp as r.ios sz

/-- The file is not at its end and its position may be set. -/
def ErofsIostream.Seeks (ios : ErofsIostream) : Prop :=
  ios.feof = false ∧ ios.sz ≠ 0 ∧ ios.dump = false

instance (ios : ErofsIostream) : Decidable ios.Seeks := inferInstanceAs (Decidable (_ ∧ _))

/-- The position is set `sz` bytes further. -/
def lskipSeek (ios : ErofsIostream) (sz : ℕ) : ℤ × ErofsIostream :=
  let r := lseekCur ios.pos sz
  (if (ios.sz : ℤ) < toU64 r.1 then i32 (r.1 - ios.sz) else 0, { ios with pos := r.2 })

def erofsIostreamLskip (inp : Input) (ios : ErofsIostream) (sz : ℕ) (as : List Answers) :
    Option (ℤ × ErofsIostream) :=
  let rabytes := ios.tail - ios.head
  if sz ≤ rabytes then some (0, { ios with head := ios.head + sz })
  else
    let sz := sz - rabytes
    let ios := { ios with head := 0, tail := 0 }
    if ios.feof then some (i32 sz, ios)
    else if ios.Seeks then some (lskipSeek ios sz)
    else lskipLoop inp as ios sz

end TarStream
end ErofsUtils
