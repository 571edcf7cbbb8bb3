import ErofsUtils.ByteMemory

/-!
# On-disk layout of compressed inodes

The constants of `erofs_fs.h` and `internal.h` that the index writer and the mapper share,
the lcluster index record with its byte encoding, and the part of `struct erofs_inode` that
both sides use. Unions are kept as one field with an accessor for each member.
-/

namespace ErofsUtils
open ByteMemory

/-- `Z_EROFS_LCLUSTER_TYPE_*`. -/
inductive LclusterType
  | plain | head1 | nonhead | head2
  deriving DecidableEq, Repr

namespace LclusterType

def toNat : LclusterType → ℕ
  | plain => 0
  | head1 => 1
  | nonhead => 2
  | head2 => 3

def ofBits (n : ℕ) : LclusterType :=
  match n % 4 with
  | 0 => plain
  | 1 => head1
  | 2 => nonhead
  | _ => head2

@[simp] theorem ofBits_toNat (t : LclusterType) : ofBits t.toNat = t := by
  cases t <;> rfl

theorem toNat_lt (t : LclusterType) : t.toNat < 4 := by
  cases t <;> decide

end LclusterType

/-- `Z_EROFS_LI_D0_CBLKCNT`: the first NONHEAD index stores a block count. -/
def d0Cblkcnt : ℕ := 2048

/-- `Z_EROFS_LI_PARTIAL_REF`. -/
def liPartialRef : ℕ := 32768

/-- `Z_EROFS_PCLUSTER_MAX_SIZE`. -/
def pclusterMaxSize : ℕ := 1024 * 1024

/-- Conversion to `unsigned int`, `erofs_blk_t` or `__le32`. -/
def u32 (n : ℕ) : ℕ := n % 2 ^ 32

/-- Conversion to `u16` or `__le16`. -/
def u16 (n : ℕ) : ℕ := n % 2 ^ 16

/-- Conversion to `erofs_off_t`. -/
def u64 (n : ℕ) : ℕ := n % 2 ^ 64

/-- The difference of two values of an unsigned 64-bit type. -/
def sub64 (a b : ℕ) : ℕ := (a + 2 ^ 64 - b) % 2 ^ 64

/-- Decrement of an `unsigned int`. -/
def dec32 (n : ℕ) : ℕ := (n + (2 ^ 32 - 1)) % 2 ^ 32

theorem dec32_lt (n : ℕ) : dec32 n < 2 ^ 32 := Nat.mod_lt _ (by decide)

theorem u32_lt (n : ℕ) : u32 n < 2 ^ 32 := Nat.mod_lt _ (by decide)

theorem u16_lt (n : ℕ) : u16 n < 2 ^ 16 := Nat.mod_lt _ (by decide)

theorem u32_of_lt {n : ℕ} (h : n < 2 ^ 32) : u32 n = n := Nat.mod_eq_of_lt h

theorem u64_of_lt {n : ℕ} (h : n < 2 ^ 64) : u64 n = n := Nat.mod_eq_of_lt h

theorem u16_of_lt {n : ℕ} (h : n < 2 ^ 16) : u16 n = n := Nat.mod_eq_of_lt h

theorem sub64_of_le {a b : ℕ} (h : b ≤ a) (ha : a < 2 ^ 64) : sub64 a b = a - b := by
  unfold sub64
  omega

def roundUp (x y : ℕ) : ℕ := (x + (y - 1)) / y * y

section Rounding

variable {x y z : ℕ}

theorem le_roundUp (hy : 0 < y) : x ≤ roundUp x y := by
  have h := @Nat.lt_div_mul_add (x + (y - 1)) y hy
  rw [roundUp]
  omega

theorem roundUp_lt (hy : 0 < y) : roundUp x y < x + y := by
  have h := Nat.div_mul_le_self (x + (y - 1)) y
  rw [roundUp]
  omega

theorem dvd_roundUp (x y : ℕ) : y ∣ roundUp x y := Dvd.intro_left _ rfl

theorem roundUp_le_of_dvd (hy : 0 < y) (hz : y ∣ z) (h : x ≤ z) : roundUp x y ≤ z := by
  obtain ⟨c, rfl⟩ := hz
  rw [roundUp, Nat.mul_comm y c]
  refine Nat.mul_le_mul_right y ?_
  rw [Nat.div_le_iff_le_mul_add_pred hy]
  omega

theorem roundUp_add (hy : 0 < y) (hz : y ∣ z) : roundUp (z + x) y = z + roundUp x y := by
  obtain ⟨c, rfl⟩ := hz
  rw [roundUp, roundUp, Nat.add_assoc, Nat.mul_add_div hy, Nat.add_mul, Nat.mul_comm c]

theorem roundUp_one (n : ℕ) : roundUp n 1 = n := by
  rw [roundUp, Nat.sub_self, Nat.add_zero, Nat.div_one, Nat.mul_one]

@[simp] theorem roundUp_zero (hy : 0 < y) : roundUp 0 y = 0 := by
  have h : (0 + (y - 1)) / y = 0 := Nat.div_eq_of_lt (by omega)
  rw [roundUp, h, Nat.zero_mul]

theorem roundUp_of_dvd (hy : 0 < y) (h : y ∣ x) : roundUp x y = x :=
  le_antisymm (roundUp_le_of_dvd hy h le_rfl) (le_roundUp hy)

end Rounding

def roundDown (x y : ℕ) : ℕ := x / y * y

structure InmemExtent where
  blkaddr : ℕ
  compressedblks : ℕ
  length : ℕ
  raw : Bool
  partialRef : Bool
  inlined : Bool
  deriving DecidableEq, Repr

/-- `struct z_erofs_lcluster_index`; `u` is the 32-bit union of `blkaddr` and `delta[2]`. -/
structure LclusterIndex where
  advise : ℕ
  clusterofs : ℕ
  u : ℕ
  deriving DecidableEq, Repr

namespace LclusterIndex

/-- The eight bytes `memcpy` stores for an index. -/
def encode (di : LclusterIndex) : List UInt8 :=
  leBytes 2 di.advise ++ leBytes 2 di.clusterofs ++ leBytes 4 di.u

@[simp] theorem length_encode (di : LclusterIndex) : di.encode.length = 8 := by
  simp [encode]

def decode (mem : Mem) (pos : ℕ) : LclusterIndex where
  advise := leNat mem pos 2
  clusterofs := leNat mem (pos + 2) 2
  u := leNat mem (pos + 4) 4

/-- An index none of whose fields exceeds its on-disk width. -/
structure Fits (di : LclusterIndex) : Prop where
  advise_lt : di.advise < 2 ^ 16
  clusterofs_lt : di.clusterofs < 2 ^ 16
  u_lt : di.u < 2 ^ 32

theorem decode_of_holds {mem : Mem} {pos : ℕ} {di : LclusterIndex} (hf : di.Fits)
    (h : Holds mem pos di.encode) : decode mem pos = di := by
  obtain ⟨h₁₂, h₃⟩ := holds_append.mp h
  obtain ⟨h₁, h₂⟩ := holds_append.mp h₁₂
  rw [length_leBytes] at h₂
  rw [List.length_append, length_leBytes, length_leBytes] at h₃
  cases di with
  | mk advise clusterofs u =>
      simp only [decode, leNat_of_holds_of_lt h₁ hf.advise_lt,
        leNat_of_holds_of_lt h₂ hf.clusterofs_lt, leNat_of_holds_of_lt h₃ hf.u_lt]

def type (di : LclusterIndex) : LclusterType := LclusterType.ofBits di.advise

def delta0 (di : LclusterIndex) : ℕ := di.u % 2 ^ 16

def delta1 (di : LclusterIndex) : ℕ := di.u / 2 ^ 16

/-- The union seen as `delta[2]`, both stored through `cpu_to_le16`. -/
def deltas (d0 d1 : ℕ) : ℕ := u16 d0 + 2 ^ 16 * u16 d1

end LclusterIndex

/-- `EROFS_INODE_*` layouts of regular data. -/
inductive Datalayout
  | flatPlain | compressedFull | flatInline | compressedCompact | chunkBased
  deriving DecidableEq, Repr

/-- `Z_EROFS_ADVISE_*` bits of the map header. -/
structure Advise where
  compacted2B : Bool
  bigPcluster1 : Bool
  bigPcluster2 : Bool
  inlinePcluster : Bool
  interlacedPcluster : Bool
  fragmentPcluster : Bool
  deriving DecidableEq, Repr

/-- `z_advise` as the 16-bit field of the map header. -/
def Advise.ofNat (n : ℕ) : Advise :=
  ⟨n.testBit 0, n.testBit 1, n.testBit 2, n.testBit 3, n.testBit 4, n.testBit 5⟩

/-- Error returns of the modelled functions. -/
inductive Errno
  | eio | einval | enomem | enospc | enoent | eopnotsupp | efscorrupted
  deriving DecidableEq, Repr

/-- The fields of `struct erofs_sb_info` used by the compressed data paths. -/
structure SbInfo where
  blkszbits : ℕ
  islotbits : ℕ
  metaBlkaddr : ℕ
  bigPcluster : Bool
  deriving DecidableEq, Repr

namespace SbInfo

variable (sbi : SbInfo)

/-- `erofs_blksiz`. -/
def blksz : ℕ := 2 ^ sbi.blkszbits

def blknr (pos : ℕ) : ℕ := pos / sbi.blksz

def blkoff (pos : ℕ) : ℕ := pos % sbi.blksz

def pos (blk : ℕ) : ℕ := blk * sbi.blksz

def blkRoundUp (n : ℕ) : ℕ := (n + (sbi.blksz - 1)) / sbi.blksz

theorem blksz_pos : 0 < sbi.blksz := Nat.two_pow_pos _

theorem blknr_add_blkoff (n : ℕ) : sbi.blksz * sbi.blknr n + sbi.blkoff n = n :=
  Nat.div_add_mod n sbi.blksz

end SbInfo

/-- The part of `struct erofs_inode` that describes compressed data. `fragmentoff` shares
its storage with the 32-bit `z_idataoff`; `zInited` is `EROFS_I_Z_INITED`. -/
structure Inode where
  sbi : SbInfo
  zInited : Bool
  nid : ℕ
  iSize : ℕ
  datalayout : Datalayout
  inodeIsize : ℕ
  xattrIsize : ℕ
  zAdvise : Advise
  zAlgorithmtype : ℕ
  zLogicalClusterbits : ℕ
  idataSize : ℕ
  zTailextentHeadlcn : ℕ
  fragmentoff : ℕ
  deriving DecidableEq, Repr

namespace Inode

def iloc (vi : Inode) : ℕ := vi.sbi.pos vi.sbi.metaBlkaddr + vi.nid * 2 ^ vi.sbi.islotbits

def zIdataoff (vi : Inode) : ℕ := u32 vi.fragmentoff

def setIdataoff (vi : Inode) (off : ℕ) : Inode :=
  { vi with fragmentoff := vi.fragmentoff / 2 ^ 32 * 2 ^ 32 + u32 off }

/-- `Z_EROFS_FULL_INDEX_ALIGN`. -/
def fullIndexAlign (e : ℕ) : ℕ := roundUp e 8 + 8 + 8

end Inode

end ErofsUtils
