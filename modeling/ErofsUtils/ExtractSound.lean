import ErofsUtils.Extract

/-!
# What extraction writes

A file is described by the pieces that its lookups return from the start on, each one an extent or
a hole. Both loops take one piece per turn. The copy of `fsck.erofs` is whole unless the last piece
is a hole or a hole ends at an offset that is negative as an `int`; `extract.erofs` leaves every
hole out.
-/

namespace ErofsUtils

/-- A part of a file: an extent with its data, or a hole. -/
structure Piece where
  len : ℕ
  mapped : Bool
  deriving DecidableEq, Repr

def piecesLength (ps : List Piece) : ℕ := (ps.map Piece.len).sum

@[simp] theorem piecesLength_nil : piecesLength [] = 0 := rfl

@[simp] theorem piecesLength_cons (p : Piece) (ps : List Piece) :
    piecesLength (p :: ps) = p.len + piecesLength ps := by
  simp [piecesLength]

@[simp] theorem piecesLength_append (ps qs : List Piece) :
    piecesLength (ps ++ qs) = piecesLength ps + piecesLength qs := by
  simp [piecesLength]

def HolesZero (data : List UInt8) : ℕ → List Piece → Prop
  | _, [] => True
  | pos, p :: ps =>
    (p.mapped = false → ∀ i, pos ≤ i → i < pos + p.len → fileByte data i = 0) ∧
      HolesZero data (pos + p.len) ps

/-- How the data of an extent reaches the file: a compressed extent is decoded as a whole and
written at once, other data goes out in pieces of `Z_EROFS_PCLUSTER_MAX_SIZE`. -/
def OutFile.store (out : OutFile) (compressed : Bool) (bs : List UInt8) : OutFile :=
  if compressed then out.write bs else out.put bs

/-- An extent that one `write` can take, where it is written at once. -/
def Piece.Writable (compressed : Bool) (p : Piece) : Prop :=
  compressed = true → p.len ≤ maxRwCount

/-- What the body of the loops does with the extent `p` at `la`; the length of a compressed one has
to fit into `buffer_size`. -/
structure CopiesExtent (env : DataEnv) (vi : DataInode) (data : List UInt8) (la : ℕ) (p : Piece)
    (map : DataMap) : Prop where
  sound : ∀ toFile bufferSize out bufferSize' out', out.Appending →
    copyExtent env vi map toFile bufferSize out = some (.ok bufferSize', out') →
    out' = if toFile then out.store vi.datalayout.compressed (fileBytes data la (la + p.len))
      else out
  no_error : ∀ toFile bufferSize out e out', out.Appending →
    copyExtent env vi map toFile bufferSize out ≠ some (.error e, out')
  succeeds : (vi.datalayout.compressed = true → p.len < 2 ^ 32) →
    ∀ toFile bufferSize out, out.Appending → ∃ bufferSize' out',
      copyExtent env vi map toFile bufferSize out = some (.ok bufferSize', out')

/-- `m_plen` is in the bound that the loops check. -/
def PlenOk (vi : DataInode) (map : DataMap) : Prop :=
  map.mPlen ≤ pclusterMaxSize ∨ vi.datalayout.compressed = false

/-- An inode whose lookups return the pieces of a file one after the other, and whose reads return
its bytes. The first lookup may fill the inode. -/
structure TiledBy (env : DataEnv) (vi filled : DataInode) (pieces : List Piece)
    (data : List UInt8) : Prop where
  size : vi.iSize = data.length
  size_lt : vi.iSize < 2 ^ 63
  size_filled : filled.iSize = vi.iSize
  layout_filled : filled.datalayout = vi.datalayout
  sum : piecesLength pieces = vi.iSize
  len_pos : ∀ p ∈ pieces, 0 < p.len
  next : ∀ pre p post, pieces = pre ++ p :: post → ∀ st, st = vi ∨ st = filled →
    ∀ map : DataMap, map.mLa = piecesLength pre → PlenOk vi map →
    ∃ map', nextExtent env st map = .ok (filled, map') ∧ map'.mLa = piecesLength pre ∧
      map'.mLlen = p.len ∧ map'.mFlags.mapped = p.mapped ∧ PlenOk vi map' ∧
      (p.mapped = true → CopiesExtent env filled data (piecesLength pre) p map')
  hole : HolesZero data 0 pieces
  pread : ∀ k < vi.iSize, erofsPreadData env vi 1 k = some (.ok [fileByte data k])

section Store

variable {out : OutFile} {c : Bool} {bs : List UInt8}

theorem OutFile.Appending.store (h : out.Appending) (c : Bool) (bs : List UInt8) :
    (out.store c bs).Appending := by
  unfold OutFile.store
  cases c with
  | true => exact h.write bs
  | false => exact h.put bs

theorem OutFile.store_pos_le (out : OutFile) (c : Bool) (bs : List UInt8) :
    (out.store c bs).pos ≤ out.pos + bs.length := by
  unfold OutFile.store
  cases c with
  | true =>
      rw [if_pos rfl, write_pos]
      omega
  | false => exact le_of_eq (put_pos out bs)

theorem OutFile.store_of_le (out : OutFile) (h : c = true → bs.length ≤ maxRwCount) :
    out.store c bs = out.put bs := by
  unfold OutFile.store
  cases c with
  | true => exact write_of_le out (h rfl)
  | false => rfl

/-- A write that is cut leaves the position behind. -/
theorem OutFile.store_pos_lt (out : OutFile) (hc : c = true) (h : maxRwCount < bs.length) :
    (out.store c bs).pos < out.pos + bs.length := by
  unfold OutFile.store
  rw [if_pos hc, write_pos]
  omega

end Store

section Turn

variable {env : DataEnv} {vi filled st : DataInode} {pieces pre post : List Piece} {p : Piece}
  {data : List UInt8} {outfd : ℤ} {errno fuel bufferSize : ℕ} {map : DataMap} {out : OutFile}

theorem TiledBy.end_le (h : TiledBy env vi filled pieces data) (hp : pieces = pre ++ p :: post) :
    piecesLength pre + p.len + piecesLength post = vi.iSize := by
  rw [← h.sum, hp, piecesLength_append, piecesLength_cons, Nat.add_assoc]

theorem TiledBy.state_size (h : TiledBy env vi filled pieces data) (hst : st = vi ∨ st = filled) :
    st.iSize = vi.iSize := by
  rcases hst with rfl | rfl
  · rfl
  · exact h.size_filled

theorem TiledBy.turn (h : TiledBy env vi filled pieces data)
    (hp : pieces = pre ++ p :: post) (hst : st = vi ∨ st = filled) (hmap : PlenOk vi map) :
    ¬ st.iSize ≤ piecesLength pre ∧ ∃ map',
      nextExtent env st { map with mLa := piecesLength pre } = .ok (filled, map') ∧
      PlenOk vi map' ∧ ¬ filled.iSize ≤ map'.mLa ∧ map'.mLlen = p.len ∧
      map'.mFlags.mapped = p.mapped ∧
      u64 (piecesLength pre + p.len) = piecesLength pre + p.len ∧
      (p.mapped = true → CopiesExtent env filled data (piecesLength pre) p map') := by
  have hend := h.end_le hp
  have hlen := h.len_pos p (by simp [hp])
  have hsize := h.size_lt
  obtain ⟨map', hnext, hla, hllen, hmapped, hplen, hcopy⟩ :=
    h.next pre p post hp st hst { map with mLa := piecesLength pre } rfl hmap
  have hfront : ¬ filled.iSize ≤ map'.mLa := by
    rw [h.size_filled, hla]
    omega
  have hst' := h.state_size hst
  exact ⟨by omega, map', hnext, hplen, hfront, hllen, hmapped, u64_of_lt (by omega), hcopy⟩

/-! ## The loop of `fsck.erofs` -/

theorem fsckVerifyLoop_of_le {check : Bool} {pos : ℕ} (h : st.iSize ≤ pos) :
    fsckVerifyLoop env check outfd errno fuel st map pos bufferSize out =
      some (.ok (), out) := by
  cases fuel <;> rw [fsckVerifyLoop, if_pos h]

theorem TiledBy.fsck_hole (h : TiledBy env vi filled pieces data)
    (hp : pieces = pre ++ p :: post) (hhole : p.mapped = false) (hst : st = vi ∨ st = filled)
    (hmap : PlenOk vi map) (hfd : 0 ≤ outfd) :
    ∃ map', PlenOk vi map' ∧
      fsckVerifyLoop env true outfd errno (fuel + 1) st map (piecesLength pre) bufferSize out =
        if 2 ^ 31 ≤ u32 (out.pos + p.len) then
          some (if errno = 0 then .ok () else .error (.sys errno), out.skip p.len)
        else fsckVerifyLoop env true outfd errno fuel filled map' (piecesLength pre + p.len)
          bufferSize (out.skip p.len) := by
  obtain ⟨hpos, map', hnext, hplen, hfront, hllen, hmapped, hu, -⟩ := h.turn hp hst hmap
  refine ⟨map', hplen, ?_⟩
  rw [fsckVerifyLoop, if_neg hpos, hnext]
  simp only [not_true_eq_false, or_false]
  rw [if_neg hfront, if_pos ⟨hfd, by simp [hmapped, hhole]⟩, hllen, OutFile.skip_pos, hu]

theorem TiledBy.fsck_extent (h : TiledBy env vi filled pieces data)
    (hp : pieces = pre ++ p :: post) (hext : p.mapped = true) (hst : st = vi ∨ st = filled)
    (hmap : PlenOk vi map) :
    ∃ map', PlenOk vi map' ∧ CopiesExtent env filled data (piecesLength pre) p map' ∧
      fsckVerifyLoop env true outfd errno (fuel + 1) st map (piecesLength pre) bufferSize out =
        match copyExtent env filled map' (decide (0 ≤ outfd)) bufferSize out with
        | none => none
        | some (.error e, out) => some (.error e, out)
        | some (.ok bufferSize, out) =>
          fsckVerifyLoop env true outfd errno fuel filled map' (piecesLength pre + p.len)
            bufferSize out := by
  obtain ⟨hpos, map', hnext, hplen, hfront, hllen, hmapped, hu, hcopy⟩ := h.turn hp hst hmap
  refine ⟨map', hplen, hcopy hext, ?_⟩
  rw [fsckVerifyLoop, if_neg hpos, hnext]
  simp only [not_true_eq_false, or_false]
  rewrite [if_neg hfront, if_neg (by simp [hmapped, hext]), hllen, hu]
  rfl

/-! ## The loop of `extract.erofs` -/

theorem extractVerifyLoop_of_le {check : Bool} {pos : ℕ} (h : st.iSize ≤ pos) :
    extractVerifyLoop env check outfd fuel st map pos bufferSize out = some (.ok (), out) := by
  cases fuel <;> rw [extractVerifyLoop, if_pos h]

theorem TiledBy.extract_hole (h : TiledBy env vi filled pieces data)
    (hp : pieces = pre ++ p :: post) (hhole : p.mapped = false) (hst : st = vi ∨ st = filled)
    (hmap : PlenOk vi map) :
    ∃ map', PlenOk vi map' ∧
      extractVerifyLoop env true outfd (fuel + 1) st map (piecesLength pre) bufferSize out =
        extractVerifyLoop env true outfd fuel filled map' (piecesLength pre + p.len)
          bufferSize out := by
  obtain ⟨hpos, map', hnext, hplen, hfront, hllen, hmapped, hu, -⟩ := h.turn hp hst hmap
  refine ⟨map', hplen, ?_⟩
  rw [extractVerifyLoop, if_neg hpos, hnext]
  simp only [not_true_eq_false, or_false]
  rw [if_pos (by simp [hmapped, hhole]), hllen, hu]

theorem TiledBy.extract_extent (h : TiledBy env vi filled pieces data)
    (hp : pieces = pre ++ p :: post) (hext : p.mapped = true) (hst : st = vi ∨ st = filled)
    (hmap : PlenOk vi map) :
    ∃ map', PlenOk vi map' ∧ CopiesExtent env filled data (piecesLength pre) p map' ∧
      extractVerifyLoop env true outfd (fuel + 1) st map (piecesLength pre) bufferSize out =
        match copyExtent env filled map' (decide (0 < outfd)) bufferSize out with
        | none => none
        | some (.error e, out) => some (.error e, out)
        | some (.ok bufferSize, out) =>
          extractVerifyLoop env true outfd fuel filled map' (piecesLength pre + p.len)
            bufferSize out := by
  obtain ⟨hpos, map', hnext, hplen, hfront, hllen, hmapped, hu, hcopy⟩ := h.turn hp hst hmap
  refine ⟨map', hplen, hcopy hext, ?_⟩
  rw [extractVerifyLoop, if_neg hpos, hnext]
  simp only [not_true_eq_false, or_false]
  rewrite [if_neg (by simp [hmapped, hext]), hllen, hu]
  rfl

end Turn

/-! ## Runs -/

/-- What a data writer does: whether it writes to its descriptor at all, and whether it moves over
a hole or leaves it out. -/
structure Writer where
  toFile : Bool
  seeks : Bool

/-- A run over the pieces from `pos` on that returns 0: from the first file to the second. A writer
that moves over a hole stops where the new offset is negative as an `int`. -/
inductive CopyRun (w : Writer) (compressed : Bool) (data : List UInt8) :
    ℕ → List Piece → OutFile → OutFile → Prop
  | done (pos : ℕ) (out : OutFile) : CopyRun w compressed data pos [] out out
  | extent {pos p ps out out'} (hp : p.mapped = true)
      (next : CopyRun w compressed data (pos + p.len) ps
        (if w.toFile then out.store compressed (fileBytes data pos (pos + p.len)) else out) out') :
      CopyRun w compressed data pos (p :: ps) out out'
  | hole {pos p ps out out'} (hp : p.mapped = false)
      (hofs : w.seeks = true → u32 (out.pos + p.len) < 2 ^ 31)
      (next : CopyRun w compressed data (pos + p.len) ps
        (if w.seeks then out.skip p.len else out) out') :
      CopyRun w compressed data pos (p :: ps) out out'
  | stop {pos p ps out} (hp : p.mapped = false) (hw : w.seeks = true)
      (hneg : 2 ^ 31 ≤ u32 (out.pos + p.len)) :
      CopyRun w compressed data pos (p :: ps) out (out.skip p.len)

/-- The pieces, from `pos` on, of which a writer makes a whole copy. -/
def Copied (w : Writer) (compressed : Bool) : ℕ → List Piece → Prop
  | _, [] => True
  | pos, p :: ps =>
    (if p.mapped then w.toFile = true ∧ p.Writable compressed
      else w.seeks = true ∧ ps ≠ [] ∧ u32 (pos + p.len) < 2 ^ 31) ∧
      Copied w compressed (pos + p.len) ps

section Runs

variable {w : Writer} {c : Bool} {data : List UInt8} {pos : ℕ} {ps : List Piece}
  {out out' : OutFile}

theorem CopyRun.length_le (h : CopyRun w c data pos ps out out') (happ : out.Appending) :
    out'.bytes.length ≤ out.pos + piecesLength ps := by
  induction h with
  | done pos out => exact happ
  | @extent pos p ps out out' hp next ih =>
      rw [piecesLength_cons]
      cases hw : w.toFile with
      | false =>
          rw [hw, if_neg Bool.false_ne_true] at ih
          have := ih happ
          omega
      | true =>
          rw [hw, if_pos rfl] at ih
          have hlen := ih (happ.store _ _)
          have hpos := out.store_pos_le c (fileBytes data pos (pos + p.len))
          rw [length_fileBytes] at hpos
          omega
  | @hole pos p ps out out' hp hofs next ih =>
      rw [piecesLength_cons]
      cases hw : w.seeks with
      | false =>
          rw [hw, if_neg Bool.false_ne_true] at ih
          have := ih happ
          omega
      | true =>
          rw [hw, if_pos rfl] at ih
          have hlen := ih (happ.skip _)
          rw [OutFile.skip_pos] at hlen
          omega
  | @stop pos p ps out hp hw hneg =>
      have : out.bytes.length ≤ out.pos := happ
      rw [OutFile.skip_bytes]
      omega

/-- Without a whole copy of one of the pieces the file is too short. -/
theorem CopyRun.length_lt (h : CopyRun w c data pos ps out out') (happ : out.Appending)
    (hpos : out.pos = pos) (hlen : ∀ p ∈ ps, 0 < p.len) (hnot : ¬ Copied w c pos ps) :
    out'.bytes.length < pos + piecesLength ps := by
  induction h with
  | done pos out => exact absurd trivial hnot
  | @extent pos p ps out out' hp next ih =>
      have hp0 := hlen p List.mem_cons_self
      rw [piecesLength_cons]
      rw [Copied, if_pos hp, not_and] at hnot
      by_cases hgood : w.toFile = true ∧ p.Writable c
      · have hbs : (fileBytes data pos (pos + p.len)).length = p.len := by simp
        rw [if_pos hgood.1, OutFile.store_of_le _ (by rw [hbs]; exact hgood.2)] at ih
        have hput : (out.put (fileBytes data pos (pos + p.len))).pos = pos + p.len := by
          rw [OutFile.put_pos, hbs, hpos]
        have := ih (happ.put _) hput (fun q hq => hlen q (List.mem_cons_of_mem _ hq)) (hnot hgood)
        omega
      · cases hw : w.toFile with
        | false =>
            rw [hw, if_neg Bool.false_ne_true] at next
            have := next.length_le happ
            omega
        | true =>
            rw [hw, if_pos rfl] at next
            have hbig : c = true ∧ maxRwCount < p.len := by
              have hnw : ¬ p.Writable c := fun hwr => hgood ⟨hw, hwr⟩
              rwa [Piece.Writable, Classical.not_imp, Nat.not_le] at hnw
            have hbs : (fileBytes data pos (pos + p.len)).length = p.len := by simp
            have hshort := out.store_pos_lt hbig.1 (by rw [hbs]; exact hbig.2)
            have := next.length_le (happ.store _ _)
            rw [hbs] at hshort
            omega
  | @hole pos p ps out out' hp hofs next ih =>
      have hp0 := hlen p List.mem_cons_self
      rw [piecesLength_cons]
      rw [Copied, if_neg (by simp [hp]), not_and] at hnot
      cases hw : w.seeks with
      | false =>
          rw [hw, if_neg Bool.false_ne_true] at next
          have := next.length_le happ
          omega
      | true =>
          have hofs' := hofs hw
          rw [hpos] at hofs'
          rw [hw, if_pos rfl] at ih next
          rcases eq_or_ne ps [] with rfl | hne
          · -- a hole at the end of the file leaves nothing to be written behind it
            cases next
            have : out.bytes.length ≤ out.pos := happ
            rw [OutFile.skip_bytes, piecesLength_nil]
            omega
          · have hskip : (out.skip p.len).pos = pos + p.len := by rw [OutFile.skip_pos, hpos]
            have := ih (happ.skip _) hskip (fun q hq => hlen q (List.mem_cons_of_mem _ hq))
              (hnot ⟨hw, hne, hofs'⟩)
            omega
  | @stop pos p ps out hp hw hneg =>
      have hp0 := hlen p List.mem_cons_self
      have : out.bytes.length ≤ out.pos := happ
      rw [OutFile.skip_bytes, piecesLength_cons]
      omega

theorem CopyRun.whole (h : CopyRun w c data pos ps out out') (happ : out.Appending)
    (hpos : out.pos = pos) (hlen : ∀ p ∈ ps, 0 < p.len) (hgood : Copied w c pos ps)
    (hzero : HolesZero data pos ps) (hcopy : out.Copies data)
    (hlast : ps = [] → out.bytes.length = pos) :
    out'.Copies data ∧ out'.pos = pos + piecesLength ps ∧
      out'.bytes.length = pos + piecesLength ps := by
  induction h with
  | done pos out => exact ⟨hcopy, hpos, hlast rfl⟩
  | @extent pos p ps out out' hp next ih =>
      obtain ⟨hfirst, hrest⟩ := hgood
      rw [if_pos hp] at hfirst
      have hbs : (fileBytes data pos (pos + p.len)).length = p.len := by simp
      have hne : fileBytes data pos (pos + p.len) ≠ [] := by
        have hp0 := hlen p List.mem_cons_self
        apply List.ne_nil_of_length_pos
        omega
      have hend := happ.length_put hne
      have hcopy' := hcopy.put happ p.len
      rw [if_pos hfirst.1, OutFile.store_of_le _ (by rw [hbs]; exact hfirst.2)] at ih
      rw [hbs, hpos] at hend
      rw [hpos] at hcopy'
      rw [piecesLength_cons, ← Nat.add_assoc]
      apply ih (happ.put _) _ (fun q hq => hlen q (List.mem_cons_of_mem _ hq)) hrest hzero.2
        hcopy' fun _ => hend
      rw [OutFile.put_pos, hbs, hpos]
  | @hole pos p ps out out' hp hofs next ih =>
      obtain ⟨hfirst, hrest⟩ := hgood
      rw [if_neg (by simp [hp])] at hfirst
      rw [if_pos hfirst.1] at ih
      rw [piecesLength_cons, ← Nat.add_assoc]
      apply ih (happ.skip _) _ (fun q hq => hlen q (List.mem_cons_of_mem _ hq)) hrest hzero.2 _
        fun hnil => absurd hnil hfirst.2.1
      · rw [OutFile.skip_pos, hpos]
      · apply hcopy.skip happ
        rw [hpos]
        exact hzero.1 hp
  | @stop pos p ps out hp hw hneg =>
      obtain ⟨hfirst, -⟩ := hgood
      rw [if_neg (by simp [hp])] at hfirst
      rw [hpos] at hneg
      omega

end Runs

/-! ## The loops make such runs -/

section Loops

variable {env : DataEnv} {vi filled st : DataInode} {pieces pre post : List Piece} {p : Piece}
  {data : List UInt8} {outfd : ℤ} {errno fuel bufferSize : ℕ} {map : DataMap}
  {out out' : OutFile}

theorem TiledBy.fsck_run (h : TiledBy env vi filled pieces data)
    (hp : pieces = pre ++ post) (hst : st = vi ∨ st = filled) (hmap : PlenOk vi map)
    (hfd : 0 ≤ outfd) (happ : out.Appending)
    (hrun : fsckVerifyLoop env true outfd errno fuel st map (piecesLength pre) bufferSize out =
      some (.ok (), out')) :
    CopyRun ⟨true, true⟩ vi.datalayout.compressed data (piecesLength pre) post out out' := by
  induction post generalizing pre st map bufferSize out fuel with
  | nil =>
      have hend : st.iSize ≤ piecesLength pre := by
        rw [h.state_size hst, ← h.sum, hp, List.append_nil]
      rw [fsckVerifyLoop_of_le hend] at hrun
      cases hrun
      exact .done _ _
  | cons p post ih =>
      have hpre : pieces = (pre ++ [p]) ++ post := by rw [hp, List.append_assoc]; rfl
      have hsum : piecesLength (pre ++ [p]) = piecesLength pre + p.len := by simp
      cases fuel with
      | zero =>
          rw [fsckVerifyLoop, if_neg (h.turn hp hst hmap).1] at hrun
          cases hrun
      | succ fuel =>
          cases hm : p.mapped with
          | false =>
              obtain ⟨map', hmap', hturn⟩ := h.fsck_hole hp hm hst hmap hfd
              rw [hturn, ← hsum] at hrun
              rcases Nat.lt_or_ge (u32 (out.pos + p.len)) (2 ^ 31) with hlt | hge
              · rw [if_neg (Nat.not_le.mpr hlt)] at hrun
                have := ih hpre (Or.inr rfl) hmap' (happ.skip p.len) hrun
                rw [hsum] at this
                exact .hole hm (fun _ => hlt) this
              · rw [if_pos hge] at hrun
                by_cases herrno : errno = 0
                · rw [if_pos herrno] at hrun
                  cases hrun
                  exact .stop hm rfl hge
                · rw [if_neg herrno] at hrun
                  cases hrun
          | true =>
              obtain ⟨map', hmap', hcopy, hturn⟩ := h.fsck_extent hp hm hst hmap
              rw [hturn, ← hsum] at hrun
              split at hrun
              · cases hrun
              · cases hrun
              · next b out₁ hc =>
                  have hstore := hcopy.sound _ _ _ _ _ happ hc
                  rw [if_pos (decide_eq_true hfd), h.layout_filled] at hstore
                  have := ih hpre (Or.inr rfl) hmap' (hstore ▸ happ.store _ _) hrun
                  rw [hsum, hstore] at this
                  exact .extent hm this

theorem TiledBy.extract_run (h : TiledBy env vi filled pieces data)
    (hp : pieces = pre ++ post) (hst : st = vi ∨ st = filled) (hmap : PlenOk vi map)
    (happ : out.Appending)
    (hrun : extractVerifyLoop env true outfd fuel st map (piecesLength pre) bufferSize out =
      some (.ok (), out')) :
    CopyRun ⟨decide (0 < outfd), false⟩ vi.datalayout.compressed data (piecesLength pre) post
      out out' := by
  induction post generalizing pre st map bufferSize out fuel with
  | nil =>
      have hend : st.iSize ≤ piecesLength pre := by
        rw [h.state_size hst, ← h.sum, hp, List.append_nil]
      rw [extractVerifyLoop_of_le hend] at hrun
      cases hrun
      exact .done _ _
  | cons p post ih =>
      have hpre : pieces = (pre ++ [p]) ++ post := by rw [hp, List.append_assoc]; rfl
      have hsum : piecesLength (pre ++ [p]) = piecesLength pre + p.len := by simp
      cases fuel with
      | zero =>
          rw [extractVerifyLoop, if_neg (h.turn hp hst hmap).1] at hrun
          cases hrun
      | succ fuel =>
          cases hm : p.mapped with
          | false =>
              obtain ⟨map', hmap', hturn⟩ := h.extract_hole hp hm hst hmap
              rw [hturn, ← hsum] at hrun
              have := ih hpre (Or.inr rfl) hmap' happ hrun
              rw [hsum] at this
              exact .hole hm (fun hw => absurd hw Bool.false_ne_true) this
          | true =>
              obtain ⟨map', hmap', hcopy, hturn⟩ := h.extract_extent hp hm hst hmap
              rw [hturn, ← hsum] at hrun
              split at hrun
              · cases hrun
              · cases hrun
              · next b out₁ hc =>
                  have hstore := hcopy.sound _ _ _ _ _ happ hc
                  rw [h.layout_filled] at hstore
                  have happ' : out₁.Appending := by
                    rw [hstore]
                    split_ifs
                    · exact happ.store _ _
                    · exact happ
                  have := ih hpre (Or.inr rfl) hmap' happ' hrun
                  rw [hsum, hstore] at this
                  exact .extent hm this

/-- The loop of `extract.erofs` never returns an error for such a file. -/
theorem TiledBy.extract_ne_error (h : TiledBy env vi filled pieces data)
    (hp : pieces = pre ++ post) (hst : st = vi ∨ st = filled) (hmap : PlenOk vi map)
    (happ : out.Appending) (e : DataErr) :
    extractVerifyLoop env true outfd fuel st map (piecesLength pre) bufferSize out ≠
      some (.error e, out') := by
  induction post generalizing pre st map bufferSize out fuel with
  | nil =>
      have hend : st.iSize ≤ piecesLength pre := by
        rw [h.state_size hst, ← h.sum, hp, List.append_nil]
      rw [extractVerifyLoop_of_le hend]
      simp
  | cons p post ih =>
      have hpre : pieces = (pre ++ [p]) ++ post := by rw [hp, List.append_assoc]; rfl
      have hsum : piecesLength (pre ++ [p]) = piecesLength pre + p.len := by simp
      cases fuel with
      | zero =>
          rw [extractVerifyLoop, if_neg (h.turn hp hst hmap).1]
          simp
      | succ fuel =>
          cases hm : p.mapped with
          | false =>
              obtain ⟨map', hmap', hturn⟩ := h.extract_hole hp hm hst hmap
              rw [hturn, ← hsum]
              exact ih hpre (Or.inr rfl) hmap' happ
          | true =>
              obtain ⟨map', hmap', hcopy, hturn⟩ := h.extract_extent hp hm hst hmap
              rw [hturn, ← hsum]
              split
              · simp
              · next hc => exact absurd hc (hcopy.no_error _ _ _ _ _ happ)
              · next b out₁ hc =>
                  have hstore := hcopy.sound _ _ _ _ _ happ hc
                  have happ' : out₁.Appending := by
                    rw [hstore]
                    split_ifs
                    · exact happ.store _ _
                    · exact happ
                  exact ih hpre (Or.inr rfl) hmap' happ'

theorem Piece.Writable.lt {c : Bool} (h : p.Writable c) : c = true → p.len < 2 ^ 32 := by
  intro hc
  exact Nat.lt_of_le_of_lt (h hc) (by decide)

/-- Over pieces of which it makes a whole copy the loop comes to its end. -/
theorem TiledBy.fsck_ends (h : TiledBy env vi filled pieces data)
    (hp : pieces = pre ++ post) (hst : st = vi ∨ st = filled) (hmap : PlenOk vi map)
    (hfd : 0 ≤ outfd) (happ : out.Appending) (hpos : out.pos = piecesLength pre)
    (hgood : Copied ⟨true, true⟩ vi.datalayout.compressed (piecesLength pre) post)
    (hfuel : vi.iSize ≤ piecesLength pre + fuel) :
    ∃ out', fsckVerifyLoop env true outfd errno fuel st map (piecesLength pre) bufferSize out =
      some (.ok (), out') := by
  induction post generalizing pre st map bufferSize out fuel with
  | nil =>
      apply Exists.intro out
      apply fsckVerifyLoop_of_le
      rw [h.state_size hst, ← h.sum, hp, List.append_nil]
  | cons p post ih =>
      have hpre : pieces = (pre ++ [p]) ++ post := by rw [hp, List.append_assoc]; rfl
      have hsum : piecesLength (pre ++ [p]) = piecesLength pre + p.len := by simp
      have hlen := h.len_pos p (by simp [hp])
      obtain ⟨hfirst, hrest⟩ := hgood
      rw [← hsum] at hrest
      cases fuel with
      | zero =>
          have := h.end_le hp
          omega
      | succ fuel =>
          have hfuel' : vi.iSize ≤ piecesLength (pre ++ [p]) + fuel := by omega
          cases hm : p.mapped with
          | false =>
              obtain ⟨map', hmap', hturn⟩ := h.fsck_hole hp hm hst hmap hfd
              rw [hm, if_neg Bool.false_ne_true] at hfirst
              rw [hturn, ← hsum, if_neg (by rw [hpos]; omega)]
              apply ih hpre (Or.inr rfl) hmap' (happ.skip p.len) _ hrest hfuel'
              rw [OutFile.skip_pos, hpos, hsum]
          | true =>
              obtain ⟨map', hmap', hcopy, hturn⟩ := h.fsck_extent hp hm hst hmap
              rw [hm, if_pos rfl] at hfirst
              have hlt := hfirst.2.lt
              rw [← h.layout_filled] at hlt
              obtain ⟨b, out₁, hc⟩ := hcopy.succeeds hlt (decide (0 ≤ outfd)) bufferSize out happ
              have hstore := hcopy.sound _ _ _ _ _ happ hc
              have hbs : (fileBytes data (piecesLength pre)
                (piecesLength pre + p.len)).length = p.len := by simp
              rw [if_pos (decide_eq_true hfd), h.layout_filled,
                OutFile.store_of_le _ (by rw [hbs]; exact hfirst.2)] at hstore
              rw [hturn, ← hsum, hc]
              apply ih hpre (Or.inr rfl) hmap' (hstore ▸ happ.put _) _ hrest hfuel'
              rw [hstore, OutFile.put_pos, hbs, hpos, hsum]

theorem TiledBy.extract_ends (h : TiledBy env vi filled pieces data)
    (hp : pieces = pre ++ post) (hst : st = vi ∨ st = filled) (hmap : PlenOk vi map)
    (happ : out.Appending)
    (hgood : Copied ⟨decide (0 < outfd), false⟩ vi.datalayout.compressed (piecesLength pre) post)
    (hfuel : vi.iSize ≤ piecesLength pre + fuel) :
    ∃ out', extractVerifyLoop env true outfd fuel st map (piecesLength pre) bufferSize out =
      some (.ok (), out') := by
  induction post generalizing pre st map bufferSize out fuel with
  | nil =>
      apply Exists.intro out
      apply extractVerifyLoop_of_le
      rw [h.state_size hst, ← h.sum, hp, List.append_nil]
  | cons p post ih =>
      have hpre : pieces = (pre ++ [p]) ++ post := by rw [hp, List.append_assoc]; rfl
      have hsum : piecesLength (pre ++ [p]) = piecesLength pre + p.len := by simp
      have hlen := h.len_pos p (by simp [hp])
      obtain ⟨hfirst, hrest⟩ := hgood
      rw [← hsum] at hrest
      cases fuel with
      | zero =>
          have := h.end_le hp
          omega
      | succ fuel =>
          cases hm : p.mapped with
          | false =>
              rw [hm, if_neg Bool.false_ne_true] at hfirst
              exact absurd hfirst.1 Bool.false_ne_true
          | true =>
              obtain ⟨map', hmap', hcopy, hturn⟩ := h.extract_extent hp hm hst hmap
              rw [hm, if_pos rfl] at hfirst
              have hlt := hfirst.2.lt
              rw [← h.layout_filled] at hlt
              obtain ⟨b, out₁, hc⟩ := hcopy.succeeds hlt (decide (0 < outfd)) bufferSize out happ
              have hstore := hcopy.sound _ _ _ _ _ happ hc
              rw [if_pos hfirst.1] at hstore
              rw [hturn, ← hsum, hc]
              exact ih hpre (Or.inr rfl) hmap' (hstore ▸ happ.store _ _) hrest (by omega)

end Loops

/-! ## The whole copy -/

/-- A writer has returned 0 and left a file of `i_size` bytes, each of them the byte that
`erofs_pread` returns at its offset. -/
def Extracts (env : DataEnv) (vi : DataInode)
    (result : Option (Except DataErr Unit × OutFile)) : Prop :=
  ∃ out, result = some (.ok (), out) ∧ out.bytes.length = vi.iSize ∧
    ∀ k < vi.iSize, ∃ b, out.bytes[k]? = some b ∧
      erofsPreadData env vi 1 k = some (.ok [b])

section Whole

variable {env : DataEnv} {vi filled : DataInode} {pieces : List Piece} {data : List UInt8}
  {w : Writer} {result : Option (Except DataErr Unit × OutFile)}

/-- A writer whose runs these are makes a whole copy of the file if and only if it makes one of
every piece. -/
theorem TiledBy.extracts_iff (h : TiledBy env vi filled pieces data)
    (hrun : ∀ out, result = some (.ok (), out) →
      CopyRun w vi.datalayout.compressed data 0 pieces .empty out)
    (hends : Copied w vi.datalayout.compressed 0 pieces → ∃ out, result = some (.ok (), out)) :
    Extracts env vi result ↔ Copied w vi.datalayout.compressed 0 pieces := by
  constructor
  · rintro ⟨out, hres, hlen, -⟩
    by_contra hnot
    have := (hrun out hres).length_lt OutFile.appending_empty rfl h.len_pos hnot
    rw [h.sum] at this
    omega
  · intro hgood
    obtain ⟨out, hres⟩ := hends hgood
    obtain ⟨hcopy, hpos, hlen⟩ := (hrun out hres).whole OutFile.appending_empty rfl h.len_pos
      hgood h.hole (OutFile.copies_empty data) (fun _ => rfl)
    rw [h.sum, Nat.zero_add] at hpos hlen
    refine ⟨out, hres, hlen, ?_⟩
    intro k hk
    have hbyte := hcopy k (by omega)
    refine ⟨fileByte data k, ?_, h.pread k hk⟩
    rw [← hbyte, fileByte, List.getElem?_eq_getElem (by omega), Option.getD_some]

theorem TiledBy.fsck_extracts_iff (h : TiledBy env vi filled pieces data) {outfd : ℤ}
    (hfd : 0 ≤ outfd) (errno : ℕ) :
    Extracts env vi (fsckVerifyInodeData env vi true outfd errno) ↔
      Copied ⟨true, true⟩ vi.datalayout.compressed 0 pieces := by
  apply h.extracts_iff
  · intro out hres
    exact @TiledBy.fsck_run env vi filled vi pieces [] pieces data outfd errno vi.iSize 0 {} .empty
      out h rfl (Or.inl rfl) (Or.inl (Nat.zero_le _)) hfd OutFile.appending_empty hres
  · intro hgood
    exact @TiledBy.fsck_ends env vi filled vi pieces [] pieces data outfd errno vi.iSize 0 {}
      .empty h rfl (Or.inl rfl) (Or.inl (Nat.zero_le _)) hfd OutFile.appending_empty rfl hgood
      (by simp)

theorem TiledBy.extract_extracts_iff (h : TiledBy env vi filled pieces data) (outfd : ℤ) :
    Extracts env vi (extractVerifyInodeData env vi true outfd) ↔
      Copied ⟨decide (0 < outfd), false⟩ vi.datalayout.compressed 0 pieces := by
  apply h.extracts_iff
  · intro out hres
    exact @TiledBy.extract_run env vi filled vi pieces [] pieces data outfd vi.iSize 0 {} .empty
      out h rfl (Or.inl rfl) (Or.inl (Nat.zero_le _)) OutFile.appending_empty hres
  · intro hgood
    exact @TiledBy.extract_ends env vi filled vi pieces [] pieces data outfd vi.iSize 0 {}
      .empty h rfl (Or.inl rfl) (Or.inl (Nat.zero_le _)) OutFile.appending_empty hgood (by simp)

end Whole

end ErofsUtils
