import ErofsUtils.ExtractRaw
import ErofsUtils.ReadDataCorrect

/-!
# Extraction of every regular file

Compressed files are described by the extents that the lookups of the extraction loops return, and
by what a read of them returns. With the flat and the chunk-based ones these are all the files that
the two data writers take.
-/

namespace ErofsUtils

/-- A compressed file that holds `data`. Its extents are looked up one after the other, with their
whole length, and their pclusters hold an encoding of it. -/
structure CompressedFile (env : DataEnv) (Encodes : ℕ → List UInt8 → List UInt8 → Prop)
    (vi : DataInode) (filled : Inode) (pieces : List Piece) (data : List UInt8) : Prop where
  layout : vi.datalayout.compressed = true
  sbi_filled : filled.sbi = vi.sbi
  layout_filled : filled.datalayout = vi.datalayout
  decoders : DecodersOk env.readEnv Encodes
  decodes : Decodes env.readEnv Encodes (env.blkRead vi.sbi) vi.toInode filled data
  sum : piecesLength pieces = vi.iSize
  len_pos : ∀ p ∈ pieces, 0 < p.len
  mapped : ∀ p ∈ pieces, p.mapped = true
  extent : ∀ pre p post, pieces = pre ++ p :: post → ∀ st, st = vi.toInode ∨ st = filled →
    ∀ map : MapBlocks, map.mLa = piecesLength pre →
    ∃ map', zErofsMapBlocksIter st (env.blkRead vi.sbi) map { fiemap := true } =
        .ok (filled, map') ∧
      map'.mFlags.mapped = true ∧ map'.mLa = piecesLength pre ∧ map'.mLlen = p.len ∧
      (map'.mPlen ≤ pclusterMaxSize ∨ map'.mPlen = map.mPlen) ∧
      PclusterHolds env.readEnv Encodes filled data map' p.len

section Compressed

variable {env : DataEnv} {Encodes : ℕ → List UInt8 → List UInt8 → Prop} {vi : DataInode}
  {filled : Inode} {pieces : List Piece} {data : List UInt8}

theorem copiesExtent_compressed (hlayout : vi.datalayout.compressed = true)
    (henv : DecodersOk env.readEnv Encodes) {map : DataMap} {p : Piece}
    (hplen : map.mPlen ≤ pclusterMaxSize) (hllen : map.mLlen = p.len)
    (hend : map.mLa + p.len < 2 ^ 64)
    (hholds : PclusterHolds env.readEnv Encodes vi.toInode data map.toMapBlocks p.len) :
    CopiesExtent env vi data map.mLa p map := by
  have hread : zErofsReadOneData env.readEnv vi.toInode map.toMapBlocks 0 p.len false =
      .ok (fileBytes data map.mLa (map.mLa + p.len)) :=
    zErofsReadOneData_eq henv hholds (Nat.zero_le _) (Nat.le_refl _) hend fun _ _ => rfl
  constructor
  · intro toFile bufferSize out bufferSize' out' _ hres
    unfold copyExtent at hres
    simp only [hlayout, if_true, hllen, hread] at hres
    rw [if_neg (Nat.not_lt.mpr hplen)] at hres
    generalize (if bufferSize < p.len then u32 p.len else bufferSize) = size at hres
    by_cases hover : size < p.len
    · rw [if_pos hover] at hres
      cases hres
    · rw [if_neg hover] at hres
      cases hres
      unfold OutFile.store
      rw [hlayout]
      rfl
  · intro toFile bufferSize out e out' _ hres
    unfold copyExtent at hres
    simp only [hlayout, if_true, hllen, hread] at hres
    rw [if_neg (Nat.not_lt.mpr hplen)] at hres
    split_ifs at hres <;> cases hres
  · intro hlt toFile bufferSize out _
    unfold copyExtent
    simp only [hlayout, if_true, hllen, hread]
    rw [if_neg (Nat.not_lt.mpr hplen), u32_of_lt (hlt hlayout)]
    by_cases hsmall : bufferSize < p.len
    · rw [if_pos hsmall, if_neg (Nat.lt_irrefl _)]
      exact ⟨_, _, rfl⟩
    · rw [if_neg hsmall, if_neg hsmall]
      exact ⟨_, _, rfl⟩

/-- The loops take a compressed file extent by extent. -/
theorem CompressedFile.tiledBy (h : CompressedFile env Encodes vi filled pieces data) :
    TiledBy env vi { vi with toInode := filled } pieces data where
  size := h.decodes.size
  size_lt := h.decodes.size_lt
  size_filled := h.decodes.size_filled
  layout_filled := h.layout_filled
  sum := h.sum
  len_pos := h.len_pos
  next := by
    intro pre p post hsplit st hst map hla hplen
    have hmem : p ∈ pieces := by simp [hsplit]
    have hsize := h.decodes.size_lt
    have hend : piecesLength pre + p.len ≤ vi.iSize := by
      rw [← h.sum, hsplit, piecesLength_append, piecesLength_cons]
      omega
    have hst' : st.toInode = vi.toInode ∨ st.toInode = filled := by
      rcases hst with rfl | rfl
      · exact Or.inl rfl
      · exact Or.inr rfl
    have hsbi : st.sbi = vi.sbi := by
      rcases hst with rfl | rfl
      · rfl
      · exact h.sbi_filled
    have hlayout : st.datalayout.compressed = true := by
      rcases hst with rfl | rfl
      · exact h.layout
      · exact h.layout_filled ▸ h.layout
    have hfill : { st with toInode := filled } = { vi with toInode := filled } := by
      rcases hst with rfl | rfl <;> rfl
    obtain ⟨m, hmap, hmapped, hmla, hmllen, hmplen, hholds⟩ :=
      h.extent pre p post hsplit st.toInode hst' map.toMapBlocks hla
    have hmax : m.mPlen ≤ pclusterMaxSize := by
      rcases hplen with hplen | hraw
      · rcases hmplen with hle | heq
        · exact hle
        · exact heq ▸ hplen
      · rw [h.layout] at hraw
        cases hraw
    have hnot : ¬ filled.iSize < u64 (m.mLa + m.mLlen) := by
      have hfs := h.decodes.size_filled
      rw [hmla, hmllen, u64_of_lt (by omega)]
      omega
    have hcomp : filled.datalayout.compressed = true := h.layout_filled ▸ h.layout
    refine ⟨{ map with toMapBlocks := m }, ?_, hmla, hmllen,
      hmapped.trans (h.mapped p hmem).symm, Or.inl hmax, fun _ => ?_⟩
    · unfold nextExtent
      simp only [hlayout, if_true, hsbi, hmap, hcomp, not_true_eq_false, false_and, if_false]
      rw [if_neg hnot, hfill]
    · have := @copiesExtent_compressed env Encodes { vi with toInode := filled } data hcomp
        h.decoders { map with toMapBlocks := m } p hmax hmllen (by rw [hmla]; omega) hholds
      rwa [hmla] at this
  hole := by
    apply holesZero_of_split
    intro pre p post hsplit hm
    rw [h.mapped p (by simp [hsplit])] at hm
    cases hm
  pread := by
    intro k hk
    have hsize := h.decodes.size_lt
    have hread := erofsPread_eq h.decoders h.decodes (show k + 1 < 2 ^ 64 by omega)
    rw [fileBytes_one] at hread
    have hlayout := h.layout
    unfold erofsPreadData
    cases hl : vi.datalayout with
    | compressedFull | compressedCompact => simp only [hread]
    | flatPlain | flatInline | chunkBased =>
        rw [hl] at hlayout
        cases hlayout

end Compressed

inductive RegularFile (env : DataEnv) (Encodes : ℕ → List UInt8 → List UInt8 → Prop)
    (vi : DataInode) : List Piece → List UInt8 → Prop
  | flat {data} (h : FlatFile env vi data) : RegularFile env Encodes vi (flatPieces vi) data
  | chunks {data} (h : ChunkFile env vi data) :
      RegularFile env Encodes vi (chunkPieces env vi) data
  | compressed {filled pieces data} (h : CompressedFile env Encodes vi filled pieces data) :
      RegularFile env Encodes vi pieces data

section Regular

variable {env : DataEnv} {Encodes : ℕ → List UInt8 → List UInt8 → Prop} {vi : DataInode}
  {pieces : List Piece} {data : List UInt8}

theorem RegularFile.tiledBy (h : RegularFile env Encodes vi pieces data) :
    ∃ filled, TiledBy env vi filled pieces data := by
  cases h with
  | flat h => exact ⟨vi, h.tiledBy⟩
  | chunks h => exact ⟨vi, h.tiledBy⟩
  | compressed h => exact ⟨_, h.tiledBy⟩

/-- A writer that leaves holes out makes a whole copy of extents only. -/
theorem copied_extents_iff (toFile compressed : Bool) (pos : ℕ) (ps : List Piece) :
    Copied ⟨toFile, false⟩ compressed pos ps ↔
      ∀ p ∈ ps, p.mapped = true ∧ toFile = true ∧ p.Writable compressed := by
  induction ps generalizing pos with
  | nil => simp [Copied]
  | cons p ps ih =>
      rw [Copied, ih, List.forall_mem_cons]
      cases p.mapped with
      | false => simp
      | true => simp

/-- Extraction of a regular file equals its content exactly when no piece is cut: `fsck.erofs`
copies a file that does not end in a hole and in which no hole ends at an offset that is negative
as an `int`, `extract.erofs` only a file without holes. -/
theorem extraction_whole_iff (h : RegularFile env Encodes vi pieces data) {outfd : ℤ}
    (hfd : 0 ≤ outfd) (errno : ℕ) :
    (Extracts env vi (fsckVerifyInodeData env vi true outfd errno) ↔
      Copied ⟨true, true⟩ vi.datalayout.compressed 0 pieces) ∧
    (Extracts env vi (extractVerifyInodeData env vi true outfd) ↔
      ∀ p ∈ pieces, p.mapped = true ∧ 0 < outfd ∧ p.Writable vi.datalayout.compressed) := by
  obtain ⟨filled, htiled⟩ := h.tiledBy
  constructor
  · exact htiled.fsck_extracts_iff hfd errno
  · rw [htiled.extract_extracts_iff outfd, copied_extents_iff]
    simp only [decide_eq_true_eq]

end Regular

/-- The block of an inode with a block map of one block and a hole. -/
def holeHeader : List UInt8 :=
  List.replicate 32 0 ++ [1, 0, 0, 0, 255, 255, 255, 255] ++ List.replicate 472 0

theorem length_holeHeader : holeHeader.length = 512 := by
  rw [holeHeader, List.length_append, List.length_append, List.length_replicate,
    List.length_replicate]
  rfl

/-- An image of two blocks, the second one full of data. -/
def holeEnv : DataEnv where
  devs := []
  deviceIdMask := 0
  primary := holeHeader ++ List.replicate 512 7
  blobs := []
  decoder _ _ := .error .eopnotsupp
  packedPread _ _ := .error .enoent

/-- A chunk-based file of two blocks that ends in a hole. -/
def holeInode : DataInode where
  sbi := ⟨9, 5, 0, false⟩
  zInited := false
  nid := 0
  iSize := 1024
  datalayout := .chunkBased
  inodeIsize := 32
  xattrIsize := 0
  zAdvise := ⟨false, false, false, false, false, false⟩
  zAlgorithmtype := 0
  zLogicalClusterbits := 0
  idataSize := 0
  zTailextentHeadlcn := 0
  fragmentoff := 0
  iBlkaddr := 0
  chunkIndexes := false
  chunkbits := 9

def holeData : List UInt8 := List.replicate 512 7 ++ List.replicate 512 0

theorem chunkFile_holeInode : ChunkFile holeEnv holeInode holeData := by
  have hbound {c : ℕ} (hc : c * 2 ^ holeInode.chunkbits < holeInode.iSize) : c = 0 ∨ c = 1 := by
    change c * 2 ^ 9 < 1024 at hc
    omega
  have h0 : chunkOf holeEnv holeInode 0 = some (0, 1) := by decide
  have h1 : chunkOf holeEnv holeInode 1 = none := by decide
  refine ⟨rfl, by decide, ⟨0, by decide, rfl⟩, ?_, by decide, ?_, ?_⟩
  · rw [holeData, List.length_append, List.length_replicate, List.length_replicate]
    rfl
  · intro c dev blkaddr hc hchunk
    rcases hbound hc with rfl | rfl
    · rw [h0] at hchunk
      cases hchunk
      refine ⟨512, holeEnv.primary, rfl, rfl, ?_⟩
      intro i hi _
      change i < 512 at hi
      have hlen : (List.replicate 512 (7 : UInt8)).length = 512 := List.length_replicate
      rw [Nat.zero_mul, Nat.zero_add, holeData, fileByte_append_left (by rwa [hlen])]
      have hskip := @fileByte_append_right holeHeader (List.replicate 512 7) (512 + i)
        (by rw [length_holeHeader]; omega)
      rwa [length_holeHeader, Nat.add_sub_cancel_left] at hskip
    · rw [h1] at hchunk
      cases hchunk
  · intro c hc hchunk i _
    rcases hbound hc with rfl | rfl
    · rw [h0] at hchunk
      cases hchunk
    · change fileByte holeData (1 * 512 + i) = 0
      have hlen : (List.replicate 512 (7 : UInt8)).length = 512 := List.length_replicate
      rw [holeData, fileByte_append_replicate, fileByte,
        List.getElem?_eq_none (by rw [hlen]; omega)]
      rfl

theorem extraction_whole_iff_holeInode :
    (Extracts holeEnv holeInode (fsckVerifyInodeData holeEnv holeInode true 3 0) ↔
      Copied ⟨true, true⟩ holeInode.datalayout.compressed 0 (chunkPieces holeEnv holeInode)) ∧
    (Extracts holeEnv holeInode (extractVerifyInodeData holeEnv holeInode true 3) ↔
      ∀ p ∈ chunkPieces holeEnv holeInode, p.mapped = true ∧ (0 : ℤ) < 3 ∧
        p.Writable holeInode.datalayout.compressed) :=
  @extraction_whole_iff _ (fun _ _ _ => False) _ _ _ (.chunks chunkFile_holeInode) 3
    (by decide) 0

/-- Neither copy of the file with the hole at its end is whole. -/
theorem holeInode_cut :
    RegularFile holeEnv (fun _ _ _ => False) holeInode (chunkPieces holeEnv holeInode)
      holeData ∧
    ¬ Extracts holeEnv holeInode (fsckVerifyInodeData holeEnv holeInode true 3 0) ∧
    ¬ Extracts holeEnv holeInode (extractVerifyInodeData holeEnv holeInode true 3) := by
  have htiled := chunkFile_holeInode.tiledBy
  have hpieces : chunkPieces holeEnv holeInode = [⟨512, true⟩, ⟨512, false⟩] := by decide
  refine ⟨.chunks chunkFile_holeInode, ?_, ?_⟩
  · rw [htiled.fsck_extracts_iff (by decide), hpieces]
    rintro ⟨-, ⟨-, hnil, -⟩, -⟩
    exact hnil rfl
  · rw [htiled.extract_extracts_iff, copied_extents_iff, hpieces]
    intro hall
    have := (hall ⟨512, false⟩ (by simp)).1
    cases this

end ErofsUtils
