import ErofsUtils.BufMgr
import ErofsUtils.DedupeSound
import ErofsUtils.SourceFile

/-!
# Compressing a segment

The loop of `compress.c` that turns the data of a segment into extents. Data is read into a queue;
extents are taken from its head, by a match with an earlier extent or by the compressor. The last
bytes of a file may be those of an earlier fragment, which the segment then leaves out, and takes
back once when its own last extent could be filled up with them.
-/

namespace ErofsUtils

/-- `ctx->pivot`: the last extent, which is committed when the next one is known. -/
inductive Pivot
  | none
  | dummy
  | item (e : InmemExtent)
  deriving DecidableEq, Repr

/-- The extent of a pivot; `dummy_pivot` has no length. -/
def Pivot.extent : Pivot → InmemExtent
  | .item e => e
  | _ => ⟨0, 0, 0, false, false, false⟩

/-- `struct z_erofs_compress_sctx` with the fields that its functions change in the file's context,
in the inode (where `idata` is the size of inline data and whether it is raw), and in `dedupe.c`,
the descriptor of the file, and the offset to read from if that is not its position. The queue ends
at `ctx->tail`. -/
structure ComprSctx where
  queue : List UInt8
  head : ℕ
  remaining : ℕ
  pclustersize : ℕ
  clusterofs : ℕ
  blkaddr : ℕ
  pivot : Pivot
  extents : List InmemExtent
  fixDedupedfrag : Bool
  fragemitted : Bool
  fragmentSize : ℕ
  fragmentoff : ℕ
  datalayout : Datalayout
  compacted2B : Bool
  idata : Option (ℕ × Bool)
  eofTailraw : Option ℕ
  table : DedupeTable
  fd : FdState
  offset : Option ℕ

def ComprSctx.tail (c : ComprSctx) : ℕ := c.queue.length

inductive ComprCall
  | allocPivot | allocItem | allocIdata | allocTailraw | packFragments | blkWrite | allocFragment
  deriving DecidableEq, Repr

/-- What a segment is compressed with: the options of the file, what the system calls do, and the
compressor, which consumes at least a byte and keeps to the size it is given when it succeeds. -/
structure ComprEnv where
  sbi : SbInfo
  zLogicalClusterbits : ℕ
  packedInode : Bool
  lastSegment : Bool
  cFragments : Bool
  cZtailpacking : Bool
  mtEnabled : Bool
  maxDecompressedExtentBytes : ℕ
  maxPclustersize : ComprSctx → ℕ
  qaddr : ℕ
  read : ComprSctx → ℕ → Option (List UInt8) × FdState
  errnoAfter : ComprSctx → ℕ
  fault : ComprCall → ComprSctx → Option Errno
  dedupeAlloc : ComprSctx → Option ℕ
  packedOffset : ComprSctx → ℕ
  compressDestsize : ComprSctx → ℕ → ℕ → Except Errno (ℕ × ℕ)
  compresses : ∀ {c insize dstsize n z}, compressDestsize c insize dstsize = .ok (n, z) →
    0 < n ∧ n ≤ insize ∧ 0 < z ∧ z ≤ dstsize

/-- `h->compress_threshold`. -/
def compressThreshold : ℕ := 100

/-- A match goes on behind the byte where the search began. -/
theorem zErofsDedupeMatch_advances {t : DedupeTable} {queue : List UInt8}
    {qaddr start endp cur p : ℕ} {e : InmemExtent}
    (h : zErofsDedupeMatch t queue qaddr start endp cur = some (p, e)) : cur - p < e.length := by
  obtain ⟨-, -, -, it, hfound⟩ := zErofsDedupeMatch_found h
  rw [hfound.extent_eq]
  exact hfound.lt

namespace ComprEnv

variable (env : ComprEnv)

def zErofsNeedRefill (c : ComprSctx) : Bool × ComprSctx :=
  if c.remaining = 0 ∨ c.head < erofsConfigComprMaxSz then (false, c)
  else
    let qhAligned := roundDown c.head env.sbi.blksz
    (true, { c with queue := c.queue.drop qhAligned, head := c.head - qhAligned })

def zErofsCommitExtent (c : ComprSctx) : Pivot → ComprSctx
  | .item e => { c with
      extents := c.extents ++ [e]
      clusterofs := (c.clusterofs + e.length) % env.sbi.blksz }
  | _ => c

/-- `dctx.start`: how far a match may reach back into the pivot. -/
def dedupeStart (c : ComprSctx) (e : InmemExtent) : ℕ :=
  c.head - (if e.length ≤ env.sbi.blksz then 0
    else if c.head ≤ e.length - env.sbi.blksz then c.head
    else e.length - env.sbi.blksz)

/-- The end of `z_erofs_compress_dedupe` without a refill. -/
def dedupeOut (c : ComprSctx) : ComprSctx :=
  { env.zErofsCommitExtent c c.pivot with pivot := .none }

/-- The pivot is shortened by the `delta` bytes that the match takes from it and committed, and the
match becomes the pivot. -/
def takeMatch (c : ComprSctx) (delta : ℕ) (e : InmemExtent) : ComprSctx :=
  let ei := c.pivot.extent
  let pivot := match c.pivot with
    | .item _ =>
      .item (if delta ≠ 0 then { ei with partialRef := true, length := ei.length - delta } else ei)
    | p => p
  -- fall back to noncompact indexes for deduplication
  { env.zErofsCommitExtent c pivot with
    compacted2B := false
    datalayout := .compressedFull
    pivot := .item e
    head := c.head + (e.length - delta) }

/-- Whether the queue was refilled after the match `cur`, `e`, and the context. -/
def matched (c : ComprSctx) (cur : ℕ) (e : InmemExtent) : Bool × ComprSctx :=
  env.zErofsNeedRefill (env.takeMatch c (c.head - cur) e)

/-- The loop of `z_erofs_compress_dedupe` for the `len` bytes in the queue: whether the queue was
refilled, the context, and the new `len`. -/
def zErofsCompressDedupeLoop (c : ComprSctx) (len : ℕ) : Except Errno (Bool × ComprSctx × ℕ) :=
  let lcluster := 2 ^ env.zLogicalClusterbits
  let ei := c.pivot.extent
  match _hmatch : zErofsDedupeMatch c.table c.queue env.qaddr (env.dedupeStart c ei) (c.head + len)
      c.head with
  | none => .ok (false, env.dedupeOut c, len)
  | some (cur, e) =>
    let delta := c.head - cur
    -- leave two indexes at least to store CBLKCNT
    if 1 < e.compressedblks ∧
        (c.clusterofs + ei.length - delta) % lcluster + e.length < 2 * lcluster then
      .ok (false, env.dedupeOut c, len)
    else match env.fault .allocPivot c with
      | some err => .error err
      | none =>
        -- make sure that the previous CBLKCNT is still kept
        if delta ≠ 0 ∧ 1 < ei.compressedblks ∧
            c.clusterofs % lcluster + ei.length - delta < 2 * lcluster then
          .ok (false, env.dedupeOut c, len)
        else
          let r := env.matched c cur e
          let len' := len - (e.length - delta)
          if r.1 then .ok (true, r.2, len')
          else if len' = 0 then .ok (false, env.dedupeOut r.2, len')
          else zErofsCompressDedupeLoop r.2 len'
termination_by len
decreasing_by
  have hlt := zErofsDedupeMatch_advances _hmatch
  omega

def zErofsCompressDedupe (c : ComprSctx) (len : ℕ) : Except Errno (Bool × ComprSctx × ℕ) :=
  if c.pivot = .none then .ok (false, c, len)
  else if env.packedInode then .ok (false, env.dedupeOut c, len)
  else env.zErofsCompressDedupeLoop c len

/-- `__z_erofs_compress_one` asks for more data, or has taken an extent. -/
inductive OneRet
  | more (c : ComprSctx)
  | done (e : InmemExtent) (c : ComprSctx)

/-- `fix_dedupedfrag`: the bytes of the deduplicated fragment are to be read after all. -/
def giveBack (c : ComprSctx) : ComprSctx :=
  { c with remaining := c.remaining + c.fragmentSize, fixDedupedfrag := true }

/-- The end of `__z_erofs_compress_one`. -/
def finishExtent (c : ComprSctx) (e : InmemExtent) (dedupe : Bool) : OneRet :=
  let e := { e with partialRef := false, blkaddr := c.blkaddr }
  .done e { c with
    blkaddr := if c.blkaddr = nullAddr then c.blkaddr else u32 (c.blkaddr + e.compressedblks)
    table := if dedupe then zErofsDedupeInsert c.table e (c.queue.drop c.head) (env.dedupeAlloc c)
      else c.table
    head := c.head + e.length }

/-- A block of raw data at the label `nocompression`. -/
def nocompression (c : ComprSctx) (len : ℕ) : Except Errno OneRet :=
  match env.fault .blkWrite c with
  | some err => .error err
  | none => .ok (env.finishExtent c ⟨0, 1, min env.sbi.blksz len, true, false, false⟩
      (!env.packedInode))

/-- `frag_packing`: the rest of the file becomes a fragment of its own. -/
def fragPacking (c : ComprSctx) (len : ℕ) : Except Errno OneRet :=
  match env.fault .packFragments c with
  | some err => .error err
  | none => .ok (env.finishExtent { c with
      fragmentoff := env.packedOffset c, fragmentSize := len, fragemitted := true }
      ⟨0, 0, len, false, false, false⟩ false)

/-- `z_erofs_fill_inline_data` for an extent of `len` bytes. -/
def fillInline (c : ComprSctx) (len size : ℕ) (raw : Bool) : Except Errno OneRet :=
  match env.fault .allocIdata c with
  | some err => .error err
  | none => .ok (env.finishExtent { c with idata := some (size, raw) }
      ⟨0, 1, len, raw, false, true⟩ false)

/-- `tryrecompress_trailing`: the new `insize` and `compressedsize`. -/
def tryrecompressTrailing (c : ComprSctx) (insize compressedsize : ℕ) : ℕ × ℕ :=
  if compressedsize % env.sbi.blksz = 0 then (insize, compressedsize)
  else match env.compressDestsize c insize (roundDown compressedsize env.sbi.blksz) with
    | .error _ => (insize, compressedsize)
    | .ok (count, ret) =>
      if roundUp compressedsize env.sbi.blksz ≤ ret + (insize - count) then
        (insize, compressedsize)
      else (count, ret)

/-- A pcluster with blocks of its own for the first `insize` bytes. -/
def writeCompressed (c : ComprSctx) (insize compressedsize : ℕ) : Except Errno OneRet :=
  match env.fault .blkWrite c with
  | some err => .error err
  | none => .ok (env.finishExtent c
      ⟨0, env.sbi.blkRoundUp compressedsize, insize, false, false, false⟩ (!env.packedInode))

/-- `__z_erofs_compress_one` from the call of the compressor on, for `len` bytes in the queue. -/
def compressExtent (c : ComprSctx) (len : ℕ) (mayPacking mayInline : Bool) :
    Except Errno OneRet :=
  let blksz := env.sbi.blksz
  match env.compressDestsize c (min len env.maxDecompressedExtentBytes) c.pclustersize with
  | .error err => .error err
  | .ok (length, compressedsize) =>
    -- even compressed size is smaller, there is no real gain
    let ret := if mayInline ∧ length = len ∧ compressedsize < blksz then compressedsize
      else roundUp compressedsize blksz
    if length ≤ ret * compressThreshold / 100 then
      if mayInline ∧ len < blksz then env.fillInline c len len true
      else env.nocompression c len
    else if mayPacking ∧ len = length ∧ compressedsize < c.pclustersize ∧
        (c.fragmentSize = 0 ∨ c.fixDedupedfrag) then env.fragPacking c len
    else if mayInline ∧ len = length ∧ compressedsize < blksz then
      -- keep a raw copy if the tail may be moved into the block of the previous extent
      if c.clusterofs + len ≤ blksz then
        match env.fault .allocTailraw c with
        | some err => .error err
        | none => env.fillInline { c with eofTailraw := some len } len compressedsize false
      else env.fillInline c len compressedsize false
    else if mayPacking ∧ len = length ∧ compressedsize % blksz ≠ 0 ∧ c.tail < zErofsComprQueueSz then
      .ok (.more (giveBack { c with pclustersize := roundUp compressedsize blksz }))
    else
      let r := if mayInline ∧ len = length then env.tryrecompressTrailing c length compressedsize
        else (length, compressedsize)
      env.writeCompressed c r.1 r.2

/-- `may_packing` of `__z_erofs_compress_one`. -/
def mayPacking (c : ComprSctx) : Bool :=
  env.cFragments && env.lastSegment && c.remaining == 0 && !env.packedInode && !env.mtEnabled

def mayInline (c : ComprSctx) : Bool :=
  env.cZtailpacking && env.lastSegment && c.remaining == 0 && !env.mayPacking c

def zErofsCompressOneExtent (c : ComprSctx) : Except Errno OneRet :=
  let len := c.tail - c.head
  if len ≤ c.pclustersize then
    if c.remaining ≠ 0 ∨ len = 0 then .ok (.more c)
    else if c.fragmentSize ≠ 0 ∧ ¬ c.fixDedupedfrag then
      .ok (.more (giveBack { c with pclustersize := roundUp len env.sbi.blksz }))
    else if env.mayPacking c then env.fragPacking c len
    else if ¬ env.mayInline c ∧ len ≤ env.sbi.blksz then env.nocompression c len
    else env.compressExtent c len (env.mayPacking c) (env.mayInline c)
  else env.compressExtent c len (env.mayPacking c) (env.mayInline c)

/-- `z_erofs_fixup_deduped_fragment`: whether the segment ends here, and the context. -/
def zErofsFixupDedupedFragment (c : ComprSctx) (len : ℕ) : Bool × ComprSctx :=
  let newsize := u32 (c.remaining + len)
  if c.fragmentSize < newsize then
    let size := roundUp (newsize - c.fragmentSize) env.sbi.blksz
    (false, { c with pclustersize := min (env.maxPclustersize c) size })
  else (true, { c with
    fragmentoff := c.fragmentoff + (c.fragmentSize - newsize)
    fragmentSize := newsize
    head := c.tail
    remaining := 0 })

section Steps

variable {env} {c c' : ComprSctx} {e : InmemExtent}

/-- The match `cur`, `e` for the `len` bytes in the queue is taken: big pclusters keep an index for
the number of their blocks, both the one of the match and the one of the pivot. -/
structure MatchTaken (env : ComprEnv) (c : ComprSctx) (len cur : ℕ) (e : InmemExtent) : Prop where
  found : zErofsDedupeMatch c.table c.queue env.qaddr (env.dedupeStart c c.pivot.extent)
    (c.head + len) c.head = some (cur, e)
  keeps : 1 < e.compressedblks → 2 * 2 ^ env.zLogicalClusterbits ≤
    (c.clusterofs + c.pivot.extent.length - (c.head - cur)) % 2 ^ env.zLogicalClusterbits + e.length
  kept : c.head - cur ≠ 0 → 1 < c.pivot.extent.compressedblks → 2 * 2 ^ env.zLogicalClusterbits ≤
    c.clusterofs % 2 ^ env.zLogicalClusterbits + c.pivot.extent.length - (c.head - cur)

/-- A run of `z_erofs_compress_dedupe`. -/
inductive Deduped (env : ComprEnv) : ComprSctx → ℕ → Bool → ComprSctx → ℕ → Prop
  | out (c : ComprSctx) (len : ℕ) : Deduped env c len false (env.dedupeOut c) len
  | refill {c : ComprSctx} {len cur : ℕ} {e : InmemExtent} (htaken : MatchTaken env c len cur e)
      (hrefill : (env.matched c cur e).1 = true) :
      Deduped env c len true (env.matched c cur e).2 (len - (e.length - (c.head - cur)))
  | more {c c' : ComprSctx} {len len' cur : ℕ} {e : InmemExtent} {b : Bool}
      (htaken : MatchTaken env c len cur e) (hrefill : (env.matched c cur e).1 = false)
      (hrun : Deduped env (env.matched c cur e).2 (len - (e.length - (c.head - cur))) b c' len') :
      Deduped env c len b c' len'

theorem zErofsCompressDedupeLoop_deduped {len len' : ℕ} {b : Bool}
    (h : env.zErofsCompressDedupeLoop c len = .ok (b, c', len')) : Deduped env c len b c' len' := by
  induction len using Nat.strong_induction_on generalizing c with
  | _ len ih =>
      rw [zErofsCompressDedupeLoop.eq_1] at h
      split at h
      · cases h
        apply Deduped.out
      · next cur e hfound =>
          have hlt := zErofsDedupeMatch_advances hfound
          dsimp only at h
          by_cases hkeeps : 1 < e.compressedblks ∧
              (c.clusterofs + c.pivot.extent.length - (c.head - cur)) % 2 ^ env.zLogicalClusterbits
                + e.length < 2 * 2 ^ env.zLogicalClusterbits
          · rw [if_pos hkeeps] at h
            cases h
            apply Deduped.out
          rw [if_neg hkeeps] at h
          cases hfault : env.fault .allocPivot c with
          | some err => rw [hfault] at h; cases h
          | none =>
              rw [hfault] at h
              dsimp only at h
              by_cases hkept : c.head - cur ≠ 0 ∧ 1 < c.pivot.extent.compressedblks ∧
                  c.clusterofs % 2 ^ env.zLogicalClusterbits + c.pivot.extent.length -
                    (c.head - cur) < 2 * 2 ^ env.zLogicalClusterbits
              · rw [if_pos hkept] at h
                cases h
                apply Deduped.out
              rw [if_neg hkept] at h
              have htaken : MatchTaken env c len cur e := by
                refine ⟨hfound, fun h1 => ?_, fun h0 h1 => ?_⟩
                · by_contra hshort
                  exact hkeeps ⟨h1, Nat.not_le.mp hshort⟩
                · by_contra hshort
                  exact hkept ⟨h0, h1, Nat.not_le.mp hshort⟩
              cases hrefill : (env.matched c cur e).1 with
              | true =>
                  rw [if_pos hrefill] at h
                  cases h
                  exact .refill htaken hrefill
              | false =>
                  rw [if_neg (Bool.eq_false_iff.mp hrefill)] at h
                  apply Deduped.more htaken hrefill
                  by_cases hlen : len - (e.length - (c.head - cur)) = 0
                  · rw [if_pos hlen] at h
                    cases h
                    rw [hlen]
                    apply Deduped.out
                  · rw [if_neg hlen] at h
                    apply ih _ _ h
                    omega

/-- The kinds of extents that `__z_erofs_compress_one` takes from the queue of `c`, before they are
given their address, and whether they may be shared later. -/
inductive ExtentKind (env : ComprEnv) (c : ComprSctx) : InmemExtent → Bool → Prop
  | raw (hlen : c.head < c.tail) : ExtentKind env c
      ⟨0, 1, min env.sbi.blksz (c.tail - c.head), true, false, false⟩ (!env.packedInode)
  | fragment (hlen : c.head < c.tail) (hpacking : env.mayPacking c) :
      ExtentKind env c ⟨0, 0, c.tail - c.head, false, false, false⟩ false
  | inline {raw : Bool} (hlen : c.head < c.tail) (hinline : env.mayInline c)
      (hraw : raw → c.tail - c.head < env.sbi.blksz) :
      ExtentKind env c ⟨0, 1, c.tail - c.head, raw, false, true⟩ false
  | compressed {n z : ℕ} (hn : 0 < n) (hle : n ≤ c.tail - c.head)
      (hz : 0 < z) (hsize : z ≤ c.pclustersize)
      (hgain : roundUp z env.sbi.blksz < n ∨ env.mayInline c ∧ ∃ insize csize,
        roundUp csize env.sbi.blksz < insize ∧
          env.tryrecompressTrailing c insize csize = (n, z)) :
      ExtentKind env c ⟨0, env.sbi.blkRoundUp z, n, false, false, false⟩ (!env.packedInode)

/-- The fields that an extent of no kind changes before it is taken. -/
structure SameQueue (c c₀ : ComprSctx) : Prop where
  queue : c₀.queue = c.queue
  head : c₀.head = c.head
  remaining : c₀.remaining = c.remaining
  pclustersize : c₀.pclustersize = c.pclustersize
  clusterofs : c₀.clusterofs = c.clusterofs
  blkaddr : c₀.blkaddr = c.blkaddr
  pivot : c₀.pivot = c.pivot
  extents : c₀.extents = c.extents
  fixDedupedfrag : c₀.fixDedupedfrag = c.fixDedupedfrag
  datalayout : c₀.datalayout = c.datalayout
  table : c₀.table = c.table

theorem SameQueue.refl (c : ComprSctx) : SameQueue c c :=
  ⟨rfl, rfl, rfl, rfl, rfl, rfl, rfl, rfl, rfl, rfl, rfl⟩

/-- The fragment of the file stays what it is, or the rest of the file becomes one and the file has
none before it but one that was taken back. -/
inductive FragmentStep (env : ComprEnv) (c c₀ : ComprSctx) (e₀ : InmemExtent) : Prop
  | same (hsize : c₀.fragmentSize = c.fragmentSize) (hemit : c₀.fragemitted = c.fragemitted)
  | emitted (hpacking : env.mayPacking c) (hemit : c₀.fragemitted = true)
      (hlen : e₀.length = c.tail - c.head) (hown : c.fragmentSize = 0 ∨ c.fixDedupedfrag = true)

/-- `__z_erofs_compress_one` asks for more data, either because there are too few, or because it
takes back the deduplicated fragment. -/
inductive AsksMore (env : ComprEnv) (c : ComprSctx) : ComprSctx → Prop
  | data (hlen : c.tail - c.head ≤ c.pclustersize)
      (hmore : c.remaining ≠ 0 ∨ c.tail - c.head = 0) : AsksMore env c c
  | short (hlen : c.tail - c.head ≤ c.pclustersize) (hpos : c.tail - c.head ≠ 0)
      (hend : c.remaining = 0) (hfrag : c.fragmentSize ≠ 0) (hfix : c.fixDedupedfrag = false) :
      AsksMore env c
        (giveBack { c with pclustersize := roundUp (c.tail - c.head) env.sbi.blksz })
  | unfilled {z : ℕ} (hpos : c.tail - c.head ≠ 0) (hz : 0 < z) (hsize : z ≤ c.pclustersize)
      (hpart : z % env.sbi.blksz ≠ 0) (hroom : c.tail < zErofsComprQueueSz)
      (hend : c.remaining = 0)
      (hfrag : z < c.pclustersize → c.fragmentSize ≠ 0 ∧ c.fixDedupedfrag = false) :
      AsksMore env c (giveBack { c with pclustersize := roundUp z env.sbi.blksz })

/-- What a call of `__z_erofs_compress_one` that does not fail does. -/
def OneStep (env : ComprEnv) (c : ComprSctx) : OneRet → Prop
  | .more c' => AsksMore env c c'
  | .done e c' => ∃ c₀ e₀ dedupe, SameQueue c c₀ ∧ ExtentKind env c e₀ dedupe ∧
      FragmentStep env c c₀ e₀ ∧ env.finishExtent c₀ e₀ dedupe = .done e c'

theorem finishExtent_step {c₀ : ComprSctx} {e₀ : InmemExtent} {dedupe : Bool}
    (hsame : SameQueue c c₀) (hkind : ExtentKind env c e₀ dedupe)
    (hfrag : FragmentStep env c c₀ e₀) : OneStep env c (env.finishExtent c₀ e₀ dedupe) :=
  ⟨c₀, e₀, dedupe, hsame, hkind, hfrag, rfl⟩

variable {r : OneRet}

theorem nocompression_step (h : env.nocompression c (c.tail - c.head) = .ok r)
    (hlen : c.head < c.tail) : OneStep env c r := by
  unfold nocompression at h
  split at h
  · cases h
  · cases h
    exact finishExtent_step (.refl c) (.raw hlen) (.same rfl rfl)

theorem fragPacking_step (h : env.fragPacking c (c.tail - c.head) = .ok r)
    (hlen : c.head < c.tail) (hpacking : env.mayPacking c)
    (hown : c.fragmentSize = 0 ∨ c.fixDedupedfrag = true) : OneStep env c r := by
  unfold fragPacking at h
  split at h
  · cases h
  · cases h
    exact finishExtent_step ⟨rfl, rfl, rfl, rfl, rfl, rfl, rfl, rfl, rfl, rfl, rfl⟩
      (.fragment hlen hpacking) (.emitted hpacking rfl rfl hown)

theorem fillInline_step {c₀ : ComprSctx} {size : ℕ} {raw : Bool} (hsame : SameQueue c c₀)
    (hsize : c₀.fragmentSize = c.fragmentSize) (hemit : c₀.fragemitted = c.fragemitted)
    (h : env.fillInline c₀ (c.tail - c.head) size raw = .ok r)
    (hlen : c.head < c.tail) (hinline : env.mayInline c)
    (hraw : raw → c.tail - c.head < env.sbi.blksz) : OneStep env c r := by
  unfold fillInline at h
  split at h
  · cases h
  · cases h
    refine finishExtent_step ?_ (.inline hlen hinline hraw) (.same hsize hemit)
    exact ⟨hsame.1, hsame.2, hsame.3, hsame.4, hsame.5, hsame.6, hsame.7, hsame.8, hsame.9,
      hsame.10, hsame.11⟩

theorem writeCompressed_step {n z : ℕ} (h : env.writeCompressed c n z = .ok r)
    (hkind : ExtentKind env c ⟨0, env.sbi.blkRoundUp z, n, false, false, false⟩
      (!env.packedInode)) : OneStep env c r := by
  unfold writeCompressed at h
  split at h
  · cases h
  · cases h
    exact finishExtent_step (.refl c) hkind (.same rfl rfl)

theorem roundDown_le {x y : ℕ} : roundDown x y ≤ x := Nat.div_mul_le_self x y

/-- The second try consumes and fills some of what the first one did. -/
theorem tryrecompressTrailing_spec {insize csize : ℕ} (hn : 0 < insize) (hz : 0 < csize) :
    0 < (env.tryrecompressTrailing c insize csize).1 ∧
      (env.tryrecompressTrailing c insize csize).1 ≤ insize ∧
      0 < (env.tryrecompressTrailing c insize csize).2 ∧
      (env.tryrecompressTrailing c insize csize).2 ≤ csize := by
  unfold tryrecompressTrailing
  split_ifs with hpart
  · exact ⟨hn, le_rfl, hz, le_rfl⟩
  · split
    · exact ⟨hn, le_rfl, hz, le_rfl⟩
    · next count ret hret =>
        obtain ⟨h1, h2, h3, h4⟩ := env.compresses hret
        split_ifs
        · exact ⟨hn, le_rfl, hz, le_rfl⟩
        · exact ⟨h1, h2, h3, h4.trans roundDown_le⟩

theorem compressExtent_step
    (h : env.compressExtent c (c.tail - c.head) (env.mayPacking c) (env.mayInline c) = .ok r)
    (hlen : c.head < c.tail) : OneStep env c r := by
  unfold compressExtent at h
  dsimp only at h
  split at h
  · cases h
  · next n z hret =>
      obtain ⟨hn, hle, hz, hsize⟩ := env.compresses hret
      have hle : n ≤ c.tail - c.head := hle.trans (Nat.min_le_left _ _)
      have hend : env.mayPacking c = true → c.remaining = 0 := by
        intro hp
        simp only [mayPacking, Bool.and_eq_true, beq_iff_eq] at hp
        exact hp.1.1.2
      generalize hused : (if env.mayInline c = true ∧ n = c.tail - c.head ∧ z < env.sbi.blksz
        then z else roundUp z env.sbi.blksz) = used at h
      split_ifs at h with hgain hraw hpack hinline hcopy hfill htry
      · exact fillInline_step (.refl c) rfl rfl h hlen hraw.1 fun _ => hraw.2
      · exact nocompression_step h hlen
      · exact fragPacking_step h hlen hpack.1 hpack.2.2.2
      · split at h
        · cases h
        · have hsame : SameQueue c { c with eofTailraw := some (c.tail - c.head) } :=
            ⟨rfl, rfl, rfl, rfl, rfl, rfl, rfl, rfl, rfl, rfl, rfl⟩
          exact fillInline_step hsame rfl rfl h hlen hinline.1 fun h0 =>
            absurd h0 Bool.false_ne_true
      · exact fillInline_step (.refl c) rfl rfl h hlen hinline.1 fun h0 =>
          absurd h0 Bool.false_ne_true
      · cases h
        refine .unfilled (by omega) hz hsize hfill.2.2.1 hfill.2.2.2 (hend hfill.1) fun hlt => ?_
        have hnot : ¬ (c.fragmentSize = 0 ∨ c.fixDedupedfrag = true) :=
          fun hfrag => hpack ⟨hfill.1, hfill.2.1, hlt, hfrag⟩
        rw [not_or, Bool.not_eq_true] at hnot
        exact hnot
      all_goals
        -- an extent that is not inlined was not taken for less than its blocks
        have hblocks : used = roundUp z env.sbi.blksz := by
          rw [← hused, if_neg (fun hall => hinline ⟨hall.1, hall.2.1.symm, hall.2.2⟩)]
        have hsaves : roundUp z env.sbi.blksz < n := by
          rw [hblocks, compressThreshold, Nat.mul_div_cancel _ (by decide)] at hgain
          exact Nat.not_le.mp hgain
      · obtain ⟨hn', hle', hz', hsize'⟩ := @tryrecompressTrailing_spec env c n z hn hz
        apply writeCompressed_step h
        exact .compressed hn' (hle'.trans hle) hz' (hsize'.trans hsize)
          (Or.inr ⟨htry.1, n, z, hsaves, rfl⟩)
      · exact writeCompressed_step h (.compressed hn hle hz hsize (Or.inl hsaves))

theorem zErofsCompressOneExtent_step (h : env.zErofsCompressOneExtent c = .ok r) :
    OneStep env c r := by
  unfold zErofsCompressOneExtent at h
  dsimp only at h
  by_cases hlen : c.tail - c.head ≤ c.pclustersize
  · rw [if_pos hlen] at h
    by_cases hmore : c.remaining ≠ 0 ∨ c.tail - c.head = 0
    · rw [if_pos hmore] at h
      cases h
      exact .data hlen hmore
    rw [if_neg hmore] at h
    rw [not_or, not_not] at hmore
    obtain ⟨hend, hpos⟩ := hmore
    have hhead : c.head < c.tail := Nat.lt_of_sub_ne_zero hpos
    by_cases hfrag : c.fragmentSize ≠ 0 ∧ ¬ c.fixDedupedfrag = true
    · rw [if_pos hfrag] at h
      cases h
      exact .short hlen hpos hend hfrag.1 (Bool.eq_false_iff.mpr hfrag.2)
    rw [if_neg hfrag] at h
    have hown : c.fragmentSize = 0 ∨ c.fixDedupedfrag = true := by
      by_contra hnot
      rw [not_or] at hnot
      exact hfrag hnot
    split_ifs at h with hpack hraw
    · exact fragPacking_step h hhead hpack hown
    · exact nocompression_step h hhead
    · exact compressExtent_step h hhead
  · rw [if_neg hlen] at h
    exact compressExtent_step h (by omega)

theorem Deduped.len_le {len len' : ℕ} {b : Bool} (h : Deduped env c len b c' len') :
    len' ≤ len := by
  induction h with
  | out c len => exact le_rfl
  | refill => exact Nat.sub_le _ _
  | more _ _ _ ih => exact ih.trans (Nat.sub_le _ _)

theorem zErofsCompressDedupe_len_le {len len' : ℕ} {b : Bool}
    (h : env.zErofsCompressDedupe c len = .ok (b, c', len')) : len' ≤ len := by
  unfold zErofsCompressDedupe at h
  split_ifs at h
  · cases h
    exact le_rfl
  · cases h
    exact le_rfl
  · exact (zErofsCompressDedupeLoop_deduped h).len_le

theorem ExtentKind.length_pos {e₀ : InmemExtent} {dedupe : Bool}
    (h : ExtentKind env c e₀ dedupe) : 0 < e₀.length := by
  have hb := env.sbi.blksz_pos
  cases h with
  | raw hlen => exact lt_min hb (Nat.sub_pos_of_lt hlen)
  | fragment hlen _ => exact Nat.sub_pos_of_lt hlen
  | inline hlen _ _ => exact Nat.sub_pos_of_lt hlen
  | compressed hn _ _ _ _ => exact hn

theorem ExtentKind.length_le {e₀ : InmemExtent} {dedupe : Bool}
    (h : ExtentKind env c e₀ dedupe) : e₀.length ≤ c.tail - c.head := by
  cases h with
  | raw _ => exact Nat.min_le_right _ _
  | fragment _ _ => exact le_rfl
  | inline _ _ _ => exact le_rfl
  | compressed _ hle _ _ _ => exact hle

theorem zErofsCompressOneExtent_length_pos
    (h : env.zErofsCompressOneExtent c = .ok (.done e c')) : 0 < e.length := by
  obtain ⟨c₀, e₀, dedupe, -, hkind, -, heq⟩ := zErofsCompressOneExtent_step h
  cases heq
  exact hkind.length_pos

end Steps

/-- The context after an extent was taken, and whether the segment ends there, or the queue was
refilled. -/
def afterExtent (e : InmemExtent) (c : ComprSctx) (len : ℕ) : Bool × ComprSctx :=
  let c := { c with pivot := .item e }
  if c.fixDedupedfrag ∧ ¬ c.fragemitted then
    let r := env.zErofsFixupDedupedFragment c len
    if r.1 then r else env.zErofsNeedRefill r.2
  else env.zErofsNeedRefill c

def zErofsCompressOne (c : ComprSctx) (len : ℕ) : Except Errno ComprSctx :=
  if len = 0 then .ok c
  else match _hdedupe : env.zErofsCompressDedupe c len with
    | .error err => .error err
    | .ok (true, c, _) => .ok c
    | .ok (false, c, len) =>
      match env.fault .allocItem c with
      | some err => .error err
      | none => match _hone : env.zErofsCompressOneExtent c with
        | .error err => .error err
        | .ok (.more c) => .ok c
        | .ok (.done e c) =>
          let r := env.afterExtent e c (len - e.length)
          if r.1 then .ok r.2 else zErofsCompressOne r.2 (len - e.length)
termination_by len
decreasing_by
  have hle := zErofsCompressDedupe_len_le _hdedupe
  have hpos := zErofsCompressOneExtent_length_pos _hone
  omega

/-- A run of `z_erofs_compress_one` that does not fail. -/
inductive OneRun (env : ComprEnv) : ComprSctx → ℕ → ComprSctx → Prop
  | empty (c : ComprSctx) : OneRun env c 0 c
  | refilled {c c' : ComprSctx} {len len' : ℕ} (hlen : len ≠ 0)
      (hdedupe : env.zErofsCompressDedupe c len = .ok (true, c', len')) : OneRun env c len c'
  | more {c c₁ c' : ComprSctx} {len len' : ℕ} (hlen : len ≠ 0)
      (hdedupe : env.zErofsCompressDedupe c len = .ok (false, c₁, len'))
      (hone : OneStep env c₁ (.more c')) : OneRun env c len c'
  | last {c c₁ c₂ : ComprSctx} {e : InmemExtent} {len len' : ℕ} (hlen : len ≠ 0)
      (hdedupe : env.zErofsCompressDedupe c len = .ok (false, c₁, len'))
      (hone : OneStep env c₁ (.done e c₂))
      (hstop : (env.afterExtent e c₂ (len' - e.length)).1 = true) :
      OneRun env c len (env.afterExtent e c₂ (len' - e.length)).2
  | next {c c₁ c₂ c' : ComprSctx} {e : InmemExtent} {len len' : ℕ} (hlen : len ≠ 0)
      (hdedupe : env.zErofsCompressDedupe c len = .ok (false, c₁, len'))
      (hone : OneStep env c₁ (.done e c₂))
      (hstop : (env.afterExtent e c₂ (len' - e.length)).1 = false)
      (hrun : OneRun env (env.afterExtent e c₂ (len' - e.length)).2 (len' - e.length) c') :
      OneRun env c len c'

theorem zErofsCompressOne_run {env : ComprEnv} {c c' : ComprSctx} {len : ℕ}
    (h : env.zErofsCompressOne c len = .ok c') : OneRun env c len c' := by
  induction len using Nat.strong_induction_on generalizing c with
  | _ len ih =>
      rw [zErofsCompressOne.eq_1] at h
      by_cases hlen : len = 0
      · rw [if_pos hlen] at h
        cases h
        rw [hlen]
        exact .empty _
      rw [if_neg hlen] at h
      split at h
      · cases h
      · next hdedupe =>
          cases h
          exact .refilled hlen hdedupe
      · next c₁ len' hdedupe =>
          split at h
          · cases h
          · split at h
            · cases h
            · next hone =>
                cases h
                exact .more hlen hdedupe (zErofsCompressOneExtent_step hone)
            · next e c₂ hone =>
                have hle := zErofsCompressDedupe_len_le hdedupe
                have hpos := zErofsCompressOneExtent_length_pos hone
                have hstep := zErofsCompressOneExtent_step hone
                dsimp only at h
                cases hstop : (env.afterExtent e c₂ (len' - e.length)).1 with
                | true =>
                    rw [hstop, if_pos rfl] at h
                    cases h
                    exact .last hlen hdedupe hstep hstop
                | false =>
                    rw [hstop, if_neg Bool.false_ne_true] at h
                    apply OneRun.next hlen hdedupe hstep hstop
                    exact ih _ (by omega) h

/-- `rx`: how much is read for the next turn. -/
def readSize (c : ComprSctx) : ℕ := min c.remaining (zErofsComprQueueSz - c.tail)

/-- After a read that has delivered all; `errno` is set to what `z_erofs_compress_one` will leave
in it, which never looks at it. -/
def afterRead (c : ComprSctx) : ComprSctx :=
  { c with
    queue := c.queue ++ (env.read c (readSize c)).1.getD []
    remaining := c.remaining - readSize c
    fd := { (env.read c (readSize c)).2 with errno := env.errnoAfter c }
    offset := c.offset.map (· + readSize c) }

/-- How `z_erofs_compress_segment` returns: with 0 at its end, with `-errno` after a short count,
which may be 0 too, or with an error of one of the calls. -/
inductive SegmentRet
  | done (c : ComprSctx)
  | short (errno : ℕ) (c : ComprSctx)
  | failed (e : Errno)

/-- A turn of the loop of `z_erofs_compress_segment`: it returns, or goes on. -/
def segmentTurn (c : ComprSctx) : Except SegmentRet ComprSctx :=
  let r := env.read c (readSize c)
  if readCount r.1 ≠ readSize c then .error (.short r.2.errno { c with fd := r.2 })
  else
    let c := env.afterRead c
    match env.zErofsCompressOne c (c.tail - c.head) with
    | .error e => .error (.failed e)
    | .ok c => .ok c

theorem segmentTurn_ok {env : ComprEnv} {c c' : ComprSctx} (h : env.segmentTurn c = .ok c') :
    (∃ b, (env.read c (readSize c)).1 = some b ∧ b.length = readSize c) ∧
      OneRun env (env.afterRead c) ((env.afterRead c).tail - (env.afterRead c).head) c' := by
  unfold segmentTurn at h
  dsimp only at h
  split_ifs at h with hcount
  split at h
  · cases h
  · next hone =>
      cases h
      refine ⟨?_, zErofsCompressOne_run hone⟩
      cases hr : (env.read c (readSize c)).1 with
      | none =>
          rw [hr] at hcount
          exact absurd (readCount_none _) hcount
      | some b =>
          rw [hr] at hcount
          exact ⟨b, rfl, not_not.mp fun hne => hcount ((readCount_ne _ b).mpr hne)⟩

/-- The end of `z_erofs_compress_segment`: the pivot is committed, and a deduplicated fragment
becomes the last extent. -/
def segmentEnd (c : ComprSctx) : SegmentRet :=
  let c := { env.zErofsCommitExtent c c.pivot with pivot := .none }
  if env.lastSegment ∧ c.fragmentSize ≠ 0 ∧ ¬ c.fragemitted then
    match env.fault .allocFragment c with
    | some err => .failed err
    | none => .done (env.zErofsCommitExtent c
        (.item ⟨c.blkaddr, 0, u32 c.fragmentSize, false, false, false⟩))
  else .done c

/-- `z_erofs_compress_segment`, for at most `fuel` turns of its loop. -/
def zErofsCompressSegment : ℕ → ComprSctx → Option SegmentRet
  | 0, _ => none
  | fuel + 1, c =>
    if c.remaining = 0 then some (env.segmentEnd c)
    else match env.segmentTurn c with
      | .error ret => some ret
      | .ok c => zErofsCompressSegment fuel c

end ComprEnv

end ErofsUtils
