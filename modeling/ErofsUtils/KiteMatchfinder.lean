import ErofsUtils.Dedupe
import ErofsUtils.KiteHuffman

/-!
# The match finder of the DEFLATE encoder

`kite_mf_getmatches_hc3`: hash chains over three bytes. `hash` holds the last position with a
hash value and `chain`, a ring of `wsiz` entries, the one before each position. Positions count
from `base`, so that entries of earlier runs are too far away to be taken.
-/

namespace ErofsUtils

def crcCcittTable : List ℕ := [
  0x0000, 0x1189, 0x2312, 0x329b, 0x4624, 0x57ad, 0x6536, 0x74bf, 0x8c48, 0x9dc1, 0xaf5a, 0xbed3,
  0xca6c, 0xdbe5, 0xe97e, 0xf8f7, 0x1081, 0x0108, 0x3393, 0x221a, 0x56a5, 0x472c, 0x75b7, 0x643e,
  0x9cc9, 0x8d40, 0xbfdb, 0xae52, 0xdaed, 0xcb64, 0xf9ff, 0xe876, 0x2102, 0x308b, 0x0210, 0x1399,
  0x6726, 0x76af, 0x4434, 0x55bd, 0xad4a, 0xbcc3, 0x8e58, 0x9fd1, 0xeb6e, 0xfae7, 0xc87c, 0xd9f5,
  0x3183, 0x200a, 0x1291, 0x0318, 0x77a7, 0x662e, 0x54b5, 0x453c, 0xbdcb, 0xac42, 0x9ed9, 0x8f50,
  0xfbef, 0xea66, 0xd8fd, 0xc974, 0x4204, 0x538d, 0x6116, 0x709f, 0x0420, 0x15a9, 0x2732, 0x36bb,
  0xce4c, 0xdfc5, 0xed5e, 0xfcd7, 0x8868, 0x99e1, 0xab7a, 0xbaf3, 0x5285, 0x430c, 0x7197, 0x601e,
  0x14a1, 0x0528, 0x37b3, 0x263a, 0xdecd, 0xcf44, 0xfddf, 0xec56, 0x98e9, 0x8960, 0xbbfb, 0xaa72,
  0x6306, 0x728f, 0x4014, 0x519d, 0x2522, 0x34ab, 0x0630, 0x17b9, 0xef4e, 0xfec7, 0xcc5c, 0xddd5,
  0xa96a, 0xb8e3, 0x8a78, 0x9bf1, 0x7387, 0x620e, 0x5095, 0x411c, 0x35a3, 0x242a, 0x16b1, 0x0738,
  0xffcf, 0xee46, 0xdcdd, 0xcd54, 0xb9eb, 0xa862, 0x9af9, 0x8b70, 0x8408, 0x9581, 0xa71a, 0xb693,
  0xc22c, 0xd3a5, 0xe13e, 0xf0b7, 0x0840, 0x19c9, 0x2b52, 0x3adb, 0x4e64, 0x5fed, 0x6d76, 0x7cff,
  0x9489, 0x8500, 0xb79b, 0xa612, 0xd2ad, 0xc324, 0xf1bf, 0xe036, 0x18c1, 0x0948, 0x3bd3, 0x2a5a,
  0x5ee5, 0x4f6c, 0x7df7, 0x6c7e, 0xa50a, 0xb483, 0x8618, 0x9791, 0xe32e, 0xf2a7, 0xc03c, 0xd1b5,
  0x2942, 0x38cb, 0x0a50, 0x1bd9, 0x6f66, 0x7eef, 0x4c74, 0x5dfd, 0xb58b, 0xa402, 0x9699, 0x8710,
  0xf3af, 0xe226, 0xd0bd, 0xc134, 0x39c3, 0x284a, 0x1ad1, 0x0b58, 0x7fe7, 0x6e6e, 0x5cf5, 0x4d7c,
  0xc60c, 0xd785, 0xe51e, 0xf497, 0x8028, 0x91a1, 0xa33a, 0xb2b3, 0x4a44, 0x5bcd, 0x6956, 0x78df,
  0x0c60, 0x1de9, 0x2f72, 0x3efb, 0xd68d, 0xc704, 0xf59f, 0xe416, 0x90a9, 0x8120, 0xb3bb, 0xa232,
  0x5ac5, 0x4b4c, 0x79d7, 0x685e, 0x1ce1, 0x0d68, 0x3ff3, 0x2e7a, 0xe70e, 0xf687, 0xc41c, 0xd595,
  0xa12a, 0xb0a3, 0x8238, 0x93b1, 0x6b46, 0x7acf, 0x4854, 0x59dd, 0x2d62, 0x3ceb, 0x0e70, 0x1ff9,
  0xf78f, 0xe606, 0xd49d, 0xc514, 0xb1ab, 0xa022, 0x92b9, 0x8330, 0x7bc7, 0x6a4e, 0x58d5, 0x495c,
  0x3de3, 0x2c6a, 0x1ef1, 0x0f78]

structure KiteMatch where
  len : ℕ
  dist : ℕ
  deriving DecidableEq, Repr

/-- `struct kite_matchfinder` without the buffer. `row` is the half of `matches_matrix` to which
`matches` points. -/
structure KiteMatchfinder where
  hash : CArray
  chain : CArray
  base : ℕ
  offset : ℕ
  cyclicPos : ℕ
  niceLen : ℕ
  wsiz : ℕ
  depth : ℕ
  maxLazy : ℕ
  goodLen : ℕ
  row : Bool
  matrix : Bool → ℕ → KiteMatch

namespace KiteMatchfinder

def matchesRow (mf : KiteMatchfinder) : ℕ → KiteMatch := mf.matrix mf.row

def setMatch (mf : KiteMatchfinder) (k : ℕ) (m : KiteMatch) : KiteMatchfinder :=
  { mf with matrix := fun r i => if r = mf.row ∧ i = k then m else mf.matrix r i }

end KiteMatchfinder

section GetMatches

variable (inp : ℕ → UInt8)

/-- `get_unaligned((u16 *)p)` on a little-endian machine. -/
def getUnaligned16 (p : ℕ) : ℕ := (inp p).toNat + 256 * (inp (p + 1)).toNat

def hashBytes (p : ℕ) : ℕ := getUnaligned16 inp p ^^^ crcCcittTable.getD (inp (p + 2)).toNat 0

/-- The test of a candidate at `q`: `bestlen + 1` bytes agree, the third one by its hash. -/
def candidateAgrees (cur q bestlen : ℕ) : Prop :=
  getUnaligned16 inp cur = getUnaligned16 inp q ∧ (bestlen < 3 ∨
    (getUnaligned16 inp (cur + bestlen - 1) = getUnaligned16 inp (q + bestlen - 1) ∧
      ∀ i < bestlen - 3, inp (cur + 3 + i) = inp (q + 3 + i)))

instance (cur q bestlen : ℕ) : Decidable (candidateAgrees inp cur q bestlen) :=
  inferInstanceAs (Decidable (_ ∧ (_ ∨ (_ ∧ _))))

/-- The loop over a hash chain with `depth` more candidates, for the position `p = base + cur`;
`k` is the next free place of `mf->matches`. Candidates lie behind `base`. -/
def hc3Loop (mf : KiteMatchfinder) (cur p hv : ℕ) : ℕ → ℕ → ℕ → ℕ → (ℕ → KiteMatch) →
    ℕ × (ℕ → KiteMatch)
  | 0, _, _, k, row => (k, row)
  | depth + 1, curMatch, bestlen, k, row =>
      let diff := sub32 p curMatch
      if mf.wsiz ≤ diff then (k, row)
      else
        let q := curMatch - mf.base
        let next := mf.chain ((mf.wsiz + mf.cyclicPos - diff) % mf.wsiz)
        if candidateAgrees inp cur q bestlen then
          let bestlen' := bestlen + 1 + erofsMemcmp2 (fun i => inp (cur + bestlen + 1 + i))
            (fun i => inp (q + bestlen + 1 + i)) (cur + bestlen + 1) (q + bestlen + 1)
            (hv - bestlen - 1)
          let k := if 4 ≤ k then k - 1 else k
          let row := fun i => if i = k then ⟨bestlen', diff⟩ else row i
          if hv ≤ bestlen' then (k + 1, row)
          else hc3Loop mf cur p hv depth next bestlen' (k + 1) row
        else hc3Loop mf cur p hv depth next bestlen k row

/-- `kite_mf_getmatches_hc3` over an input of `inlen` bytes; `none` stands for `-1`. -/
def kiteMfGetmatchesHc3 (inlen : ℕ) (mf : KiteMatchfinder) (depth bestlen : ℕ) :
    KiteMatchfinder × Option ℕ :=
  if inlen < mf.offset + (bestlen + 1) then (mf, none)
  else
    let cur := mf.offset
    let h := hashBytes inp cur
    let curMatch := mf.hash h
    let p := u32 (mf.base + cur)
    let mf₁ := { mf with hash := setAt mf.hash h p, chain := setAt mf.chain mf.cyclicPos curMatch }
    let (k, row) := hc3Loop inp mf₁ cur p (min mf.niceLen (inlen - cur)) depth curMatch bestlen 1
      mf.matchesRow
    ({ mf₁ with
      matrix := fun r i => if r = mf.row then row i else mf.matrix r i
      offset := mf.offset + 1
      cyclicPos := (mf.cyclicPos + 1) % mf.wsiz }, some (k - 1))

def kiteMfHc3Skip (inlen : ℕ) (mf : KiteMatchfinder) : KiteMatchfinder :=
  match kiteMfGetmatchesHc3 inp inlen mf 0 2 with
  | (mf, some _) => mf
  | (mf, none) => { mf with offset := mf.offset + 1 }

/-- `while (--len) kite_mf_hc3_skip(mf)` with `n = len - 1` turns. -/
def kiteMfSkips (inlen : ℕ) : ℕ → KiteMatchfinder → KiteMatchfinder
  | 0, mf => mf
  | n + 1, mf => kiteMfSkips inlen n (kiteMfHc3Skip inp inlen mf)

end GetMatches

structure KiteMatchfinderCfg where
  goodLength : ℕ
  maxLazy : ℕ
  niceLength : ℕ
  depth : ℕ
  lazySearch : Bool
  deriving DecidableEq, Repr

def kiteMfcfg : List KiteMatchfinderCfg := [
  ⟨0, 0, 0, 0, false⟩, ⟨4, 4, 8, 4, false⟩, ⟨4, 5, 16, 8, false⟩, ⟨4, 6, 32, 32, false⟩,
  ⟨4, 4, 16, 16, true⟩, ⟨8, 16, 32, 32, true⟩, ⟨8, 16, 128, 128, true⟩, ⟨8, 32, 128, 256, true⟩,
  ⟨32, 128, 258, 1024, true⟩, ⟨32, 258, 258, 4096, true⟩]

/-- `kite_mf_init`: the match finder and `lazy_search`, or `none` for `-EINVAL`. `chain`, `base`,
`offset`, `cyclic_pos` and the matches keep what `malloc` returned in `mf`. -/
def kiteMfInit (mf : KiteMatchfinder) (wsiz level : ℕ) : Option (KiteMatchfinder × Bool) :=
  match kiteMfcfg[level]? with
  | none => none
  | some cfg =>
      if level = 0 then none
      else if kHistorySize32 < wsiz ∨ wsiz &&& (wsiz - 1) ≠ 0 then none
      else some ({ mf with
        hash := .zero
        wsiz := wsiz
        goodLen := cfg.goodLength
        niceLen := cfg.niceLength
        depth := cfg.depth
        maxLazy := cfg.maxLazy }, cfg.lazySearch)

def kiteMfReset (mf : KiteMatchfinder) : KiteMatchfinder :=
  let base := u32 (mf.base + (mf.offset + kHistorySize32 + 1))
  let (base, hash) := if (2 ^ 32 - 1) / 2 < base then (kHistorySize32 + 1, .zero)
    else (base, mf.hash)
  { mf with
    base := base
    hash := hash
    offset := 0
    cyclicPos := 0
    row := false
    matrix := fun r i => if i = 0 then { mf.matrix r 0 with len := kMatchMinLen - 1 }
      else mf.matrix r i }

end ErofsUtils
