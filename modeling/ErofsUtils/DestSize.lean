import ErofsUtils.Layout
import ErofsUtils.Inflate
import Mathlib.Data.List.Infix

/-!
# The searches for an output size

`libzstd_compress_destsize` and `libdeflate_compress_destsize` look for a long prefix of the source
whose compression fits in `dstsize` bytes. Both probe between the bounds `l` and `r`; they differ in
the first probe, in when a size is close enough, in the errors of the library, and in the byte that
`libdeflate_compress_destsize` patches.
-/

namespace ErofsUtils

/-- What the library reports for a prefix: the compressed bytes, that they do not fit in its buffer,
or another error. -/
inductive Compressed (ε : Type)
  | done (bytes : List UInt8)
  | tooSmall
  | error (e : ε)

/-- The variables of a search; `dst` is the output buffer. -/
structure DestSearch where
  l : ℕ
  r : ℕ
  m : ℕ
  lCsize : ℕ
  dst : List UInt8

namespace DestSearch

def probe (s : DestSearch) : ℕ := min (max s.m (u64 (s.l + 1))) (sub64 s.r 1)

/-- `memcpy(dst, …, csize)`, the new lower bound, and the estimate by the current ratio. -/
def fits (s : DestSearch) (dstsize m : ℕ) (bytes : List UInt8) : DestSearch where
  l := m
  r := s.r
  m := u64 (dstsize * m) / bytes.length
  lCsize := bytes.length
  dst := bytes ++ s.dst.drop bytes.length

/-- The new upper bound, and the middle between both. -/
def doesntFit (s : DestSearch) (m : ℕ) : DestSearch where
  l := s.l
  r := m
  m := u64 (s.l + m) / 2
  lCsize := s.lCsize
  dst := s.dst

def Closed (s : DestSearch) : Prop := s.r ≤ u64 (s.l + 1)

instance (s : DestSearch) : Decidable s.Closed := inferInstanceAs (Decidable (_ ≤ _))

def turn {ε : Type} (compress : List UInt8 → Compressed ε) (enough : ℕ → Bool) (src : List UInt8)
    (dstsize : ℕ) (s : DestSearch) : Except ε (DestSearch × Bool) :=
  match compress (src.take s.probe) with
  | .error e => .error e
  | .tooSmall => .ok (s.doesntFit s.probe, (s.doesntFit s.probe).Closed)
  | .done bytes =>
    if 0 < bytes.length ∧ bytes.length ≤ dstsize then
      .ok (s.fits dstsize s.probe bytes,
        (s.fits dstsize s.probe bytes).Closed ∨ enough bytes.length)
    else .ok (s.doesntFit s.probe, (s.doesntFit s.probe).Closed)

/-- The loop with at most `fuel` turns; `none` when it has not ended by then. An error leaves `dst` as
it is. -/
def loop {ε : Type} (compress : List UInt8 → Compressed ε) (enough : ℕ → Bool) (src : List UInt8)
    (dstsize : ℕ) : ℕ → DestSearch → Option (Except (ε × List UInt8) DestSearch)
  | 0, _ => none
  | fuel + 1, s =>
    match turn compress enough src dstsize s with
    | .error e => some (.error (e, s.dst))
    | .ok (s, true) => some (.ok s)
    | .ok (s, false) => loop compress enough src dstsize fuel s

def start (srcsize m : ℕ) (dst : List UInt8) : DestSearch where
  l := 0
  r := u32 (srcsize + 1)
  m := m
  lCsize := 0
  dst := dst

end DestSearch

/-- What a search leaves: its return value, `*srcsize` and `dst`. -/
structure DestResult where
  ret : ℤ
  srcsize : ℕ
  dst : List UInt8

/-- Conversion of a `size_t` to `int`. -/
def intOfSize (n : ℕ) : ℤ := if u32 n < 2 ^ 31 then u32 n else (u32 n : ℤ) - 2 ^ 32

/-- `compress` is `ZSTD_compress2` with a destination of `dstsize + 32` bytes. -/
def libzstdCompressDestsize {ε : Type} (compress : List UInt8 → Compressed ε) (src : List UInt8)
    (srcsize : ℕ) (dst : List UInt8) (dstsize fuel : ℕ) : Option DestResult :=
  (DestSearch.loop compress (fun csize => dstsize ≤ csize + 1) src dstsize fuel
    (DestSearch.start srcsize (u32 (dstsize * 4)) dst)).map fun
      | .error (_, dst) => ⟨-14, srcsize, dst⟩
      | .ok s => ⟨intOfSize s.lCsize, s.l, s.dst⟩

/-- The library has no errors; it returns 0 for what does not fit in its buffer. -/
def libdeflateProbe (compress : List UInt8 → List UInt8) (src : List UInt8) : Compressed Empty :=
  .done (compress src)

/-- `csize + (22 - 2 * (int)c->compression_level) >= dstsize` with a `size_t`. -/
def libdeflateEnough (level dstsize csize : ℕ) : Bool :=
  dstsize ≤ ((csize + (22 - 2 * level) : ℤ) % 2 ^ 64).toNat

/-- A zero byte in front becomes the flag of an unused bit. -/
def patchFirst : List UInt8 → List UInt8
  | [] => []
  | b :: bytes => (if b = 0 then 8 else b) :: bytes

/-- The first length that is tried, from the length that the previous call has found. -/
def libdeflateFirst (last dstsize : ℕ) : ℕ :=
  if last ≠ 0 then u64 (last * 15) / 16 else u32 (dstsize * 4)

/-- `compress` is `libdeflate_deflate_compress` with a destination of `dstsize + 9` bytes; `last` is
`last_uncompressed_size` of the context. The second value is its new value. -/
def libdeflateCompressDestsize (compress : List UInt8 → List UInt8) (level last : ℕ)
    (src : List UInt8) (srcsize : ℕ) (dst : List UInt8) (dstsize fuel : ℕ) :
    Option (DestResult × ℕ) :=
  (DestSearch.loop (libdeflateProbe compress) (libdeflateEnough level dstsize) src dstsize fuel
    (DestSearch.start srcsize (libdeflateFirst last dstsize) dst)).map fun
      | .error (e, _) => e.elim
      | .ok s =>
        (⟨intOfSize s.lCsize, s.l, if s.lCsize ≠ 0 then patchFirst s.dst else s.dst⟩, s.l)

namespace DestSearch

section Loop

variable {ε : Type} (compress : List UInt8 → Compressed ε) (src : List UInt8) (srcsize dstsize : ℕ)

/-- The output belongs to the lower bound: `dst` begins with the compression of `l` bytes. -/
structure Kept (s : DestSearch) : Prop where
  l_le : s.l ≤ srcsize
  kept : s.lCsize ≠ 0 → 0 < s.l ∧ s.lCsize ≤ dstsize ∧
    ∃ bytes, compress (src.take s.l) = .done bytes ∧ bytes.length = s.lCsize ∧ bytes <+: s.dst

variable {compress src srcsize dstsize}

theorem Kept.fits (s : DestSearch) {m : ℕ} {bytes : List UInt8} (hm : 0 < m) (hsrc : m ≤ srcsize)
    (hdone : compress (src.take m) = .done bytes) (hfits : bytes.length ≤ dstsize) :
    Kept compress src srcsize dstsize (s.fits dstsize m bytes) where
  l_le := hsrc
  kept := fun _ => ⟨hm, hfits, bytes, hdone, rfl, List.prefix_append _ _⟩

theorem Kept.doesntFit {s : DestSearch} (h : Kept compress src srcsize dstsize s) (m : ℕ) :
    Kept compress src srcsize dstsize (s.doesntFit m) where
  l_le := h.l_le
  kept := h.kept

theorem Kept.start (m : ℕ) (dst : List UInt8) :
    Kept compress src srcsize dstsize (DestSearch.start srcsize m dst) where
  l_le := Nat.zero_le _
  kept := fun h => absurd rfl h

/-- Between two turns there is a length strictly between the bounds. -/
structure Open (srcsize : ℕ) (s : DestSearch) : Prop where
  lt : s.l + 1 < s.r
  le : s.r ≤ srcsize + 1

theorem Open.probe {s : DestSearch} (h : Open srcsize s) (hsrc : srcsize < 2 ^ 32) :
    s.l < s.probe ∧ s.probe < s.r := by
  have hlt := h.lt
  have hle := h.le
  rw [DestSearch.probe, u64_of_lt (by omega), sub64_of_le (by omega) (by omega)]
  omega

/-- The first turn: the upper bound of a source of `2 ^ 32 - 1` bytes is 0. -/
theorem probe_start {m : ℕ} (dst : List UInt8) (hsrc : 0 < srcsize) (hlt : srcsize < 2 ^ 32)
    (hm : m < 2 ^ 32) :
    0 < (start srcsize m dst).probe ∧ (start srcsize m dst).probe ≤ srcsize := by
  have hprobe : (start srcsize m dst).probe = min (max m 1) (sub64 (u32 (srcsize + 1)) 1) := rfl
  rw [hprobe]
  by_cases hmax : srcsize + 1 = 2 ^ 32
  · have hr : sub64 (u32 (srcsize + 1)) 1 = 2 ^ 64 - 1 := by rw [hmax]; decide
    rw [hr]
    omega
  · rw [u32_of_lt (by omega), sub64_of_le (by omega) (by omega)]
    omega

theorem fits_closed {s : DestSearch} {m : ℕ} {bytes : List UInt8} (hm : m < 2 ^ 32) :
    (s.fits dstsize m bytes).Closed ↔ s.r ≤ m + 1 := by
  have hclosed : (s.fits dstsize m bytes).Closed ↔ s.r ≤ u64 (m + 1) := Iff.rfl
  rw [hclosed, u64_of_lt (by omega)]

theorem doesntFit_closed {s : DestSearch} {m : ℕ} (hl : s.l < 2 ^ 32) :
    (s.doesntFit m).Closed ↔ m ≤ s.l + 1 := by
  have hclosed : (s.doesntFit m).Closed ↔ m ≤ u64 (s.l + 1) := Iff.rfl
  rw [hclosed, u64_of_lt (by omega)]

/-- What a turn does when its probe is a length of the source: the output still belongs to the lower
bound, and a loop that goes on has moved one of the bounds to the probe. -/
theorem turn_cases (enough : ℕ → Bool) {s : DestSearch} (hlt : srcsize < 2 ^ 32)
    (hkept : Kept compress src srcsize dstsize s) (hr : s.r ≤ srcsize + 1)
    (hprobe : 0 < s.probe ∧ s.probe ≤ srcsize) :
    (∃ e, turn compress enough src dstsize s = .error e) ∨
      ∃ s' ended, turn compress enough src dstsize s = .ok (s', ended) ∧
        Kept compress src srcsize dstsize s' ∧
        (ended = false → Open srcsize s' ∧
          (s'.l = s.probe ∧ s'.r = s.r ∨ s'.l = s.l ∧ s'.r = s.probe)) := by
  have hl := hkept.l_le
  have hnot : ∀ ended : Bool, (ended = decide (s.doesntFit s.probe).Closed) →
      Kept compress src srcsize dstsize (s.doesntFit s.probe) ∧
      (ended = false → Open srcsize (s.doesntFit s.probe) ∧
        ((s.doesntFit s.probe).l = s.probe ∧ (s.doesntFit s.probe).r = s.r ∨
          (s.doesntFit s.probe).l = s.l ∧ (s.doesntFit s.probe).r = s.probe)) := by
    intro ended hended
    constructor
    · exact hkept.doesntFit s.probe
    · intro hfalse
      rw [hended, decide_eq_false_iff_not, doesntFit_closed (by omega)] at hfalse
      exact ⟨⟨Nat.lt_of_not_le hfalse, Nat.le_succ_of_le hprobe.2⟩, Or.inr ⟨rfl, rfl⟩⟩
  cases hcompress : compress (src.take s.probe) with
  | error e =>
    left
    exact ⟨e, by rw [turn, hcompress]⟩
  | tooSmall =>
    right
    refine ⟨s.doesntFit s.probe, _, by rw [turn, hcompress], hnot _ rfl⟩
  | done bytes =>
    right
    by_cases hfits : 0 < bytes.length ∧ bytes.length ≤ dstsize
    · refine ⟨s.fits dstsize s.probe bytes, _, by rw [turn, hcompress]; exact if_pos hfits,
        Kept.fits s hprobe.1 hprobe.2 hcompress hfits.2, ?_⟩
      intro hfalse
      rw [decide_eq_false_iff_not, not_or, fits_closed (by omega)] at hfalse
      exact ⟨⟨Nat.lt_of_not_le hfalse.1, hr⟩, Or.inl ⟨rfl, rfl⟩⟩
    · exact ⟨s.doesntFit s.probe, _, by rw [turn, hcompress]; exact if_neg hfits, hnot _ rfl⟩

/-- The loop ends, and what it leaves in `dst` belongs to its lower bound. -/
def Ends (compress : List UInt8 → Compressed ε) (enough : ℕ → Bool) (src : List UInt8)
    (srcsize dstsize fuel : ℕ) (s : DestSearch) : Prop :=
  (∃ e, loop compress enough src dstsize fuel s = some (.error e)) ∨
    ∃ s', loop compress enough src dstsize fuel s = some (.ok s') ∧
      Kept compress src srcsize dstsize s'

/-- A turn ends the loop, or leaves it to the turns from a state with open bounds. -/
theorem Ends.turn {enough : ℕ → Bool} {fuel : ℕ} {s : DestSearch} (hlt : srcsize < 2 ^ 32)
    (hkept : Kept compress src srcsize dstsize s) (hr : s.r ≤ srcsize + 1)
    (hprobe : 0 < s.probe ∧ s.probe ≤ srcsize)
    (hrest : ∀ s', Kept compress src srcsize dstsize s' → Open srcsize s' →
      (s'.l = s.probe ∧ s'.r = s.r ∨ s'.l = s.l ∧ s'.r = s.probe) →
      Ends compress enough src srcsize dstsize fuel s') :
    Ends compress enough src srcsize dstsize (fuel + 1) s := by
  obtain ⟨e, he⟩ | ⟨s', ended, hturn, hkept', hopen⟩ := turn_cases enough hlt hkept hr hprobe
  · left
    exact ⟨(e, s.dst), by rw [loop, he]⟩
  · cases ended with
    | true =>
      right
      exact ⟨s', by rw [loop, hturn], hkept'⟩
    | false =>
      have hloop : loop compress enough src dstsize (fuel + 1) s =
          loop compress enough src dstsize fuel s' := by rw [loop, hturn]
      rw [Ends, hloop]
      exact hrest s' hkept' (hopen rfl).1 (hopen rfl).2

/-- The distance of the bounds goes down with every turn. -/
theorem ends_of_open (enough : ℕ → Bool) (hlt : srcsize < 2 ^ 32) (fuel : ℕ) :
    ∀ s, Kept compress src srcsize dstsize s → Open srcsize s → s.r - s.l ≤ fuel →
      Ends compress enough src srcsize dstsize fuel s := by
  induction fuel with
  | zero =>
    intro s _ hopen hfuel
    have := hopen.lt
    omega
  | succ fuel ih =>
    intro s hkept hopen hfuel
    have hprobe := hopen.probe hlt
    have hle := hopen.le
    refine Ends.turn hlt hkept hle ⟨by omega, by omega⟩ ?_
    intro s' hkept' hopen' hmoved
    exact ih s' hkept' hopen' (by omega)

theorem ends_start (enough : ℕ → Bool) {m : ℕ} (dst : List UInt8) (hsrc : 0 < srcsize)
    (hlt : srcsize < 2 ^ 32) (hm : m < 2 ^ 32) :
    Ends compress enough src srcsize dstsize (srcsize + 2) (start srcsize m dst) := by
  have hprobe := probe_start dst hsrc hlt hm
  have hr : (start srcsize m dst).r ≤ srcsize + 1 := Nat.mod_le _ _
  refine Ends.turn hlt (Kept.start m dst) hr hprobe ?_
  intro s' hkept' hopen' _
  have hle := hopen'.le
  exact ends_of_open enough hlt _ s' hkept' hopen' (by omega)

end Loop

end DestSearch

theorem intOfSize_of_pos {n : ℕ} (hn : n < 2 ^ 32) (h : 0 < intOfSize n) :
    n ≠ 0 ∧ intOfSize n = n := by
  unfold intOfSize at h ⊢
  rw [u32_of_lt hn] at h ⊢
  split_ifs at h ⊢ <;> omega

/-- What a positive return value says about the variables of the search. -/
theorem DestSearch.Kept.of_ret_pos {ε : Type} {compress : List UInt8 → Compressed ε}
    {src : List UInt8} {srcsize dstsize : ℕ} {s : DestSearch}
    (h : DestSearch.Kept compress src srcsize dstsize s) (hdst : dstsize < 2 ^ 32)
    (hret : 0 < intOfSize s.lCsize) :
    0 < s.l ∧ s.lCsize ≠ 0 ∧ intOfSize s.lCsize ≤ dstsize ∧ ∃ bytes,
      compress (src.take s.l) = .done bytes ∧ (bytes.length : ℤ) = intOfSize s.lCsize ∧
      bytes ≠ [] ∧ bytes <+: s.dst := by
  have hsize : s.lCsize < 2 ^ 32 := by
    by_cases hzero : s.lCsize = 0
    · omega
    · have hle := (h.kept hzero).2.1
      omega
  obtain ⟨hne, hint⟩ := intOfSize_of_pos hsize hret
  obtain ⟨hpos, hle, bytes, hdone, hlen, hpre⟩ := h.kept hne
  refine ⟨hpos, hne, by omega, bytes, hdone, by omega, ?_, hpre⟩
  rintro rfl
  exact hne hlen.symm

section Patch

theorem length_patchFirst (bytes : List UInt8) : (patchFirst bytes).length = bytes.length := by
  cases bytes with
  | nil => rfl
  | cons b bytes => rfl

theorem patchFirst_prefix {bytes dst : List UInt8} (hne : bytes ≠ []) (h : bytes <+: dst) :
    patchFirst bytes <+: patchFirst dst := by
  obtain ⟨rest, rfl⟩ := h
  cases bytes with
  | nil => exact absurd rfl hne
  | cons b bytes => exact ⟨rest, rfl⟩

theorem patchFirst_head {bytes : List UInt8} (hne : bytes ≠ []) :
    ∃ b rest, patchFirst bytes = b :: rest ∧ b ≠ 0 := by
  cases bytes with
  | nil => exact absurd rfl hne
  | cons b bytes =>
    refine ⟨if b = 0 then 8 else b, bytes, rfl, ?_⟩
    by_cases hb : b = 0
    · rw [if_pos hb]
      decide
    · rw [if_neg hb]
      exact hb

/-- Only a stored block that is not the last one begins with a zero byte. -/
theorem inflate_patchFirst (bytes : List UInt8) :
    Inflate.inflate (patchFirst bytes) = Inflate.inflate bytes := by
  cases bytes with
  | nil => rfl
  | cons b bytes =>
    by_cases hb : b = 0
    · subst hb
      exact Inflate.inflate_flag_padding bytes
    · rw [patchFirst, if_neg hb]

end Patch

/-- The output of exactly `*srcsize` bytes of the source is in `dst`; `accepts` says what is an
output of a prefix. -/
structure DestHolds (accepts : List UInt8 → List UInt8 → Prop) (src : List UInt8)
    (srcsize dstsize : ℕ) (res : DestResult) : Prop where
  srcsize_pos : 0 < res.srcsize
  srcsize_le : res.srcsize ≤ srcsize
  ret_le : res.ret ≤ dstsize
  holds : ∃ out, (out.length : ℤ) = res.ret ∧ out <+: res.dst ∧ accepts (src.take res.srcsize) out

/-- The bytes that a reader finds: the compression but for a patched first byte, which is not zero,
with the same data. -/
def PatchedOf (compress : List UInt8 → List UInt8) (src out : List UInt8) : Prop :=
  out = patchFirst (compress src) ∧ (∃ b rest, out = b :: rest ∧ b ≠ 0) ∧
    Inflate.inflate out = Inflate.inflate (compress src)

/-- `libzstd_compress_destsize` returns, and a positive size means what it should. -/
def LibzstdSound {ε : Type} (compress : List UInt8 → Compressed ε) (src : List UInt8)
    (srcsize : ℕ) (dst : List UInt8) (dstsize : ℕ) : Prop :=
  ∃ fuel res, libzstdCompressDestsize compress src srcsize dst dstsize fuel = some res ∧
    (0 < res.ret → DestHolds (fun p out => compress p = .done out) src srcsize dstsize res)

/-- `libdeflate_compress_destsize` returns, a positive size means what it should, and the length it
remembers is one that a source has. -/
def LibdeflateSound (compress : List UInt8 → List UInt8) (level last : ℕ) (src : List UInt8)
    (srcsize : ℕ) (dst : List UInt8) (dstsize : ℕ) : Prop :=
  ∃ fuel res last',
    libdeflateCompressDestsize compress level last src srcsize dst dstsize fuel =
      some (res, last') ∧ last' < 2 ^ 32 ∧
    (0 < res.ret → DestHolds (PatchedOf compress) src srcsize dstsize res)

theorem libzstd_sound {ε : Type} (compress : List UInt8 → Compressed ε) (src : List UInt8)
    {srcsize dstsize : ℕ} (dst : List UInt8) (hsrc : 0 < srcsize) (hlt : srcsize < 2 ^ 32)
    (hdst : dstsize < 2 ^ 32) : LibzstdSound compress src srcsize dst dstsize := by
  have hends : DestSearch.Ends compress (fun csize => dstsize ≤ csize + 1) src srcsize dstsize
      (srcsize + 2) (DestSearch.start srcsize (u32 (dstsize * 4)) dst) :=
    DestSearch.ends_start _ dst hsrc hlt (u32_lt (dstsize * 4))
  obtain ⟨⟨e, dst'⟩, he⟩ | ⟨s, hs, hkept⟩ := hends
  · refine ⟨srcsize + 2, ⟨-14, srcsize, dst'⟩, by rw [libzstdCompressDestsize, he]; rfl, ?_⟩
    intro hret
    change (0 : ℤ) < -14 at hret
    omega
  · refine ⟨srcsize + 2, ⟨intOfSize s.lCsize, s.l, s.dst⟩,
      by rw [libzstdCompressDestsize, hs]; rfl, ?_⟩
    intro hret
    dsimp only at hret
    obtain ⟨hpos, -, hle, bytes, hdone, hlen, -, hpre⟩ := hkept.of_ret_pos hdst hret
    exact ⟨hpos, hkept.l_le, hle, bytes, hlen, hpre, hdone⟩

theorem libdeflateFirst_lt {last dstsize : ℕ} (hlast : last < 2 ^ 32) :
    libdeflateFirst last dstsize < 2 ^ 32 := by
  unfold libdeflateFirst
  split_ifs
  · rw [u64_of_lt (by omega)]
    omega
  · exact u32_lt _

theorem libdeflate_sound (compress : List UInt8 → List UInt8) (level : ℕ) {last : ℕ}
    (src : List UInt8) {srcsize dstsize : ℕ} (dst : List UInt8) (hlast : last < 2 ^ 32)
    (hsrc : 0 < srcsize) (hlt : srcsize < 2 ^ 32) (hdst : dstsize < 2 ^ 32) :
    LibdeflateSound compress level last src srcsize dst dstsize := by
  have hends : DestSearch.Ends (libdeflateProbe compress) (libdeflateEnough level dstsize) src srcsize
      dstsize (srcsize + 2) (DestSearch.start srcsize (libdeflateFirst last dstsize) dst) :=
    DestSearch.ends_start _ dst hsrc hlt (libdeflateFirst_lt hlast)
  obtain ⟨⟨e, -⟩, -⟩ | ⟨s, hs, hkept⟩ := hends
  · exact e.elim
  · refine ⟨srcsize + 2, ⟨intOfSize s.lCsize, s.l, if s.lCsize ≠ 0 then patchFirst s.dst else s.dst⟩,
      s.l, by rw [libdeflateCompressDestsize, hs]; rfl, Nat.lt_of_le_of_lt hkept.l_le hlt, ?_⟩
    intro hret
    dsimp only at hret
    obtain ⟨hpos, hne, hle, bytes, hdone, hlen, hnil, hpre⟩ := hkept.of_ret_pos hdst hret
    obtain rfl : compress (src.take s.l) = bytes := Compressed.done.inj hdone
    refine ⟨hpos, hkept.l_le, hle, patchFirst (compress (src.take s.l)), ?_, ?_, rfl,
      patchFirst_head hnil, inflate_patchFirst _⟩
    · rw [length_patchFirst]
      exact hlen
    · change patchFirst _ <+: if s.lCsize ≠ 0 then patchFirst s.dst else s.dst
      rw [if_pos hne]
      exact patchFirst_prefix hnil hpre

/-- Both searches end, for any compressor; the output they leave is that of the prefix they report,
and the byte patched for libdeflate is padding of a stored block. -/
theorem compressDestsize_sound {ε : Type} (zstd : List UInt8 → Compressed ε)
    (deflate : List UInt8 → List UInt8) (level : ℕ) {last : ℕ} (src : List UInt8)
    {srcsize dstsize : ℕ} (dst : List UInt8) (hsrc : 0 < srcsize) (hlt : srcsize < 2 ^ 32)
    (hdst : dstsize < 2 ^ 32) (hlast : last < 2 ^ 32) :
    LibzstdSound zstd src srcsize dst dstsize ∧
      LibdeflateSound deflate level last src srcsize dst dstsize := by
  constructor
  · exact libzstd_sound zstd src dst hsrc hlt hdst
  · exact libdeflate_sound deflate level src dst hlast hsrc hlt hdst

/-- Compressors that store a short prefix behind a header, and have no room for a longer one. -/
theorem compressDestsize_sound_stored :
    LibzstdSound (fun p => if p.length ≤ 4 then .done (7 :: p) else .tooSmall : _ → Compressed Unit)
        [1, 2, 3, 4, 5, 6] 6 [] 5 ∧
      LibdeflateSound (fun p => [0, UInt8.ofNat p.length, 0, UInt8.ofNat (255 - p.length), 255] ++ p
        ++ [3, 0]) 1 0 [1, 2, 3, 4, 5, 6] 6 [] 5 :=
  compressDestsize_sound _ _ 1 _ [] (by decide) (by decide) (by decide) (by decide)

end ErofsUtils
