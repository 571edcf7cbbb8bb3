import ErofsUtils.Dirents
import ErofsUtils.SuperLayout

/-!
# Writing directories

`erofs_prepare_dir_file` computes the size of a directory before `erofs_write_dir_file` packs its
dentries into blocks. `fill_dirblock` lays out a block: the dirents from its start on, their names
behind them, and zeroes up to its end.
-/

namespace ErofsUtils
open ByteMemory CString

/-- `struct erofs_dentry` with its nid. `erofs_d_alloc` cuts a name to `EROFS_NAME_LEN - 1`
bytes. -/
structure DirDentry where
  nid : ℕ
  type : ℕ
  name : FileName
  name_ne : name ≠ []
  name_lt : name.length < erofsNameLen
  zero_notMem : 0 ∉ name

namespace DirDentry

variable (d : DirDentry)

/-- `strlen(d->name) + sizeof(struct erofs_dirent)`. -/
def len : ℕ := d.name.length + 12

def dirent (q : ℕ) : List UInt8 := leBytes 8 d.nid ++ leBytes 2 q ++ [UInt8.ofNat d.type, 0]

end DirDentry

def namesLen (ds : List DirDentry) : ℕ := (ds.map fun d => d.name.length).sum

def dirUsed (ds : List DirDentry) : ℕ := (ds.map DirDentry.len).sum

/-- The size that `erofs_prepare_dir_file` adds up. -/
def dirFileSize (bsz : ℕ) : List DirDentry → ℕ → ℕ
  | [], dSize => dSize
  | d :: ds, dSize =>
    let dSize := if bsz < dSize % bsz + d.len then u32 (roundUp dSize bsz) else dSize
    dirFileSize bsz ds (u32 (dSize + d.len))

def fillDirblockLoop : List DirDentry → ℕ → ℕ → Mem → Mem × ℕ
  | [], _, q, buf => (buf, q)
  | d :: ds, p, q, buf =>
    fillDirblockLoop ds (p + 12) (q + d.name.length) (store (store buf p (d.dirent q)) q d.name)

/-- `fill_dirblock` of the `size` bytes at `buf`. -/
def fillDirblock (buf : Mem) (size q : ℕ) (ds : List DirDentry) : List UInt8 :=
  let filled := fillDirblockLoop ds 0 q buf
  slice (store filled.1 filled.2 (List.replicate (size - filled.2) 0)) 0 size

/-- The loop of `erofs_write_dir_file`: the dentries of the blocks that it writes on its way, and
those that are left with the bytes they use. -/
def writeDirFileLoop (bsz : ℕ) :
    List DirDentry → List DirDentry → ℕ → List (List DirDentry) × List DirDentry × ℕ
  | [], head, used => ([], head, used)
  | d :: ds, head, used =>
    if bsz < used + d.len then
      let (written, rest) := writeDirFileLoop bsz ds [d] d.len
      (head :: written, rest)
    else writeDirFileLoop bsz ds (head ++ [d]) (used + d.len)

/-- What `erofs_write_dir_file` makes of a directory: the blocks it writes and `idata`. -/
structure DirFile where
  blocks : List (List UInt8)
  idata : List UInt8

/-- `erofs_write_dir_file`; `buf` is what its buffers hold at first. -/
def erofsWriteDirFile (buf : Mem) (bsz : ℕ) (ds : List DirDentry) : DirFile :=
  let (written, head, used) := writeDirFileLoop bsz ds [] 0
  let block size ds := fillDirblock buf size (12 * ds.length) ds
  if used = bsz then ⟨(written ++ [head]).map (block bsz), []⟩
  else ⟨written.map (block bsz), if used ≠ 0 then block used head else []⟩

/-- The offset of the name of the dentry at index `i` of a block. -/
def nameoffOf (ds : List DirDentry) (i : ℕ) : ℕ := 12 * ds.length + namesLen (ds.take i)

/-- A memory holds a block of `size` bytes with the given dentries. -/
structure DirBlockHeld (mem : Mem) (size : ℕ) (ds : List DirDentry) : Prop where
  dirent : ∀ i d, ds[i]? = some d → Holds mem (12 * i) (d.dirent (nameoffOf ds i))
  name : ∀ i d, ds[i]? = some d → Holds mem (nameoffOf ds i) d.name
  padding : ∀ k, nameoffOf ds ds.length ≤ k → k < size → mem k = 0

section Block

@[simp] theorem length_dirent (d : DirDentry) (q : ℕ) : (d.dirent q).length = 12 := by
  simp [DirDentry.dirent]

@[simp] theorem namesLen_nil : namesLen [] = 0 := rfl

@[simp] theorem namesLen_cons (d : DirDentry) (ds : List DirDentry) :
    namesLen (d :: ds) = d.name.length + namesLen ds := rfl

theorem dirUsed_eq (ds : List DirDentry) : dirUsed ds = namesLen ds + 12 * ds.length := by
  induction ds with
  | nil => rfl
  | cons d ds ih =>
      change d.len + dirUsed ds = _
      rw [ih, DirDentry.len, namesLen_cons, List.length_cons]
      omega

/-- The loop writes the dirents from `p` and the names from `q` on, and nothing else. -/
theorem fillDirblockLoop_frame (ds : List DirDentry) {p q : ℕ} (buf : Mem)
    (hpq : p + 12 * ds.length ≤ q) {k : ℕ} (hk : k < p ∨ p + 12 * ds.length ≤ k ∧ k < q) :
    (fillDirblockLoop ds p q buf).1 k = buf k := by
  induction ds generalizing p q buf with
  | nil => rfl
  | cons d ds ih =>
      rw [List.length_cons] at hpq hk
      rw [fillDirblockLoop, ih _ (by omega) (by omega), store_of_lt _ (by omega)]
      cases hk with
      | inl hk => exact store_of_lt _ hk
      | inr hk => exact store_of_ge _ (by rw [length_dirent]; omega)

theorem fillDirblockLoop_end (ds : List DirDentry) (p q : ℕ) (buf : Mem) :
    (fillDirblockLoop ds p q buf).2 = q + namesLen ds := by
  induction ds generalizing p q buf with
  | nil => rfl
  | cons d ds ih => rw [fillDirblockLoop, ih, namesLen_cons, Nat.add_assoc]

theorem fillDirblockLoop_held (ds : List DirDentry) {p q : ℕ} (buf : Mem)
    (hpq : p + 12 * ds.length ≤ q) {i : ℕ} {d : DirDentry} (hi : ds[i]? = some d) :
    Holds (fillDirblockLoop ds p q buf).1 (p + 12 * i) (d.dirent (q + namesLen (ds.take i))) ∧
      Holds (fillDirblockLoop ds p q buf).1 (q + namesLen (ds.take i)) d.name := by
  induction ds generalizing p q buf i with
  | nil => simp at hi
  | cons e ds ih =>
      rw [List.length_cons] at hpq
      rw [fillDirblockLoop]
      cases i with
      | zero =>
          have he : e = d := by simpa using hi
          subst he
          rw [List.take_zero, namesLen_nil, Nat.mul_zero, Nat.add_zero, Nat.add_zero]
          constructor
          · apply holds_congr _ (holds_store buf p (e.dirent q))
            intro k h1 h2
            rw [length_dirent] at h2
            rw [fillDirblockLoop_frame ds _ (by omega) (by omega), store_of_lt _ (by omega)]
          · apply holds_congr _ (holds_store (store buf p (e.dirent q)) q e.name)
            intro k h1 h2
            exact fillDirblockLoop_frame ds _ (by omega) (by omega)
      | succ i =>
          have h := ih (p := p + 12) (q := q + e.name.length)
            (store (store buf p (e.dirent q)) q e.name) (by omega) (by simpa using hi)
          rw [List.take_succ_cons, namesLen_cons, ← Nat.add_assoc, Nat.mul_succ,
            Nat.add_comm (12 * i), ← Nat.add_assoc]
          exact h

theorem namesLen_take_le {ds : List DirDentry} {i : ℕ} {d : DirDentry} (hi : ds[i]? = some d) :
    i < ds.length ∧ namesLen (ds.take i) + d.name.length ≤ namesLen ds := by
  obtain ⟨hlt, hd⟩ := List.getElem?_eq_some_iff.mp hi
  refine ⟨hlt, ?_⟩
  have htake : ds.take (i + 1) = ds.take i ++ [d] := by
    rw [List.take_succ_eq_append_getElem hlt, hd]
  have hsum : namesLen ds = namesLen (ds.take (i + 1)) + namesLen (ds.drop (i + 1)) := by
    unfold namesLen
    rw [← List.sum_append, ← List.map_append, List.take_append_drop]
  rw [hsum, htake]
  unfold namesLen
  rw [List.map_append, List.sum_append, List.map_singleton, List.sum_singleton]
  exact Nat.le_add_right _ _

theorem fillDirblock_held {mem buf : Mem} {size : ℕ} {ds : List DirDentry}
    (hfit : dirUsed ds ≤ size)
    (h : Holds mem 0 (fillDirblock buf size (12 * ds.length) ds)) :
    DirBlockHeld mem size ds := by
  have hend := fillDirblockLoop_end ds 0 (12 * ds.length) buf
  have hused := dirUsed_eq ds
  have hmem : ∀ k < size, mem k = store (fillDirblockLoop ds 0 (12 * ds.length) buf).1
      (12 * ds.length + namesLen ds)
      (List.replicate (size - (12 * ds.length + namesLen ds)) 0) k := by
    intro k hk
    have hb := h k (store (fillDirblockLoop ds 0 (12 * ds.length) buf).1
      (fillDirblockLoop ds 0 (12 * ds.length) buf).2 _ (0 + k)) (getElem?_slice_of_lt _ _ _ hk)
    rwa [hend, Nat.zero_add] at hb
  constructor
  · intro i d hi
    obtain ⟨hlt, hn⟩ := namesLen_take_le hi
    have hd := (fillDirblockLoop_held ds (p := 0) (q := 12 * ds.length) buf (by omega) hi).1
    rw [Nat.zero_add] at hd
    apply holds_congr _ hd
    intro k h1 h2
    rw [length_dirent] at h2
    have hk : k < 12 * ds.length + namesLen ds := by omega
    rw [hmem k (by omega), store_of_lt _ hk]
  · intro i d hi
    obtain ⟨hlt, hn⟩ := namesLen_take_le hi
    have hd := (fillDirblockLoop_held ds (p := 0) (q := 12 * ds.length) buf (by omega) hi).2
    apply holds_congr _ hd
    intro k h1 h2
    have hk : k < 12 * ds.length + namesLen ds := by omega
    rw [hmem k (by omega), store_of_lt _ hk]
  · intro k h1 h2
    rw [nameoffOf, List.take_length] at h1
    have hz := holds_store (fillDirblockLoop ds 0 (12 * ds.length) buf).1
      (12 * ds.length + namesLen ds) (List.replicate (size - (12 * ds.length + namesLen ds)) 0)
      (k - (12 * ds.length + namesLen ds)) 0 (List.getElem?_replicate_of_lt (by omega))
    rw [Nat.add_sub_cancel' h1] at hz
    rw [hmem k h2, hz]

end Block

section Held

variable {mem : Mem} {size : ℕ} {ds : List DirDentry} {i : ℕ} {d : DirDentry}

/-- A name is counted up to the NUL behind it or the end of the block. -/
theorem strnlen_of_holds {pos n : ℕ} {bs : List UInt8} (h : Holds mem pos bs) (h0 : 0 ∉ bs)
    (hn : bs.length ≤ n) (hend : bs.length < n → mem (pos + bs.length) = 0) :
    strnlen mem pos n = bs.length := by
  induction bs generalizing pos n with
  | nil =>
      cases n with
      | zero => rfl
      | succ n =>
          have h0 : mem pos = 0 := hend (Nat.succ_pos n)
          rw [strnlen, if_pos h0, List.length_nil]
  | cons b bs ih =>
      obtain ⟨hb, hs⟩ := holds_cons.mp h
      rw [List.mem_cons, not_or] at h0
      rw [List.length_cons] at hn hend ⊢
      cases n with
      | zero => omega
      | succ n =>
          rw [strnlen, hb, if_neg (Ne.symm h0.1), ih hs h0.2 (by omega)]
          intro hlt
          rw [Nat.add_assoc, Nat.add_comm 1]
          exact hend (by omega)

theorem nameoffOf_add_le (hi : ds[i]? = some d) :
    nameoffOf ds i + d.name.length ≤ dirUsed ds := by
  have hn := (namesLen_take_le hi).2
  rw [dirUsed_eq, nameoffOf]
  omega

theorem nameoffOf_succ (hi : ds[i]? = some d) :
    nameoffOf ds (i + 1) = nameoffOf ds i + d.name.length := by
  obtain ⟨hlt, hd⟩ := List.getElem?_eq_some_iff.mp hi
  unfold nameoffOf namesLen
  rw [List.take_succ_eq_append_getElem hlt, hd, List.map_append, List.sum_append,
    List.map_singleton, List.sum_singleton, Nat.add_assoc]

theorem DirDentry.length_name_pos (d : DirDentry) : 0 < d.name.length :=
  List.length_pos_iff.mpr d.name_ne

variable (h : DirBlockHeld mem size ds) (hfit : dirUsed ds ≤ size) (hsize : size ≤ 2 ^ 16)

include h

theorem DirBlockHeld.fields (hi : ds[i]? = some d) :
    Holds mem (12 * i) (leBytes 8 d.nid) ∧ Holds mem (12 * i + 8) (leBytes 2 (nameoffOf ds i)) ∧
      mem (12 * i + 10) = UInt8.ofNat d.type := by
  obtain ⟨h12, h3⟩ := holds_append.mp (h.dirent i d hi)
  obtain ⟨h1, h2⟩ := holds_append.mp h12
  rw [length_leBytes] at h2
  rw [List.length_append, length_leBytes, length_leBytes] at h3
  exact ⟨h1, h2, (holds_cons.mp h3).1⟩

theorem DirBlockHeld.nid (hi : ds[i]? = some d) : Dirent.nid mem i = d.nid % 2 ^ 64 := by
  rw [Dirent.nid, leNat_of_holds (h.fields hi).1]
  norm_num

theorem DirBlockHeld.fileType (hi : ds[i]? = some d) : Dirent.fileType mem i = d.type % 256 := by
  rw [Dirent.fileType, (h.fields hi).2.2, UInt8.toNat_ofNat']

include hfit hsize

theorem DirBlockHeld.nameoff (hi : ds[i]? = some d) :
    Dirent.nameoff mem i = nameoffOf ds i := by
  have hle := nameoffOf_add_le hi
  have hpos := d.length_name_pos
  exact leNat_of_holds_of_lt (h.fields hi).2.1 (by omega)

theorem DirBlockHeld.strnlen_last (hi : ds[i]? = some d) (hlast : ds.length = i + 1) :
    strnlen mem (nameoffOf ds i) (subU32 size (nameoffOf ds i)) = d.name.length := by
  have hle := nameoffOf_add_le hi
  have hsub : subU32 size (nameoffOf ds i) = size - nameoffOf ds i := by
    unfold subU32
    omega
  rw [hsub]
  apply strnlen_of_holds (h.name i d hi) d.zero_notMem (by omega)
  intro hlt
  apply h.padding _ _ (by omega)
  rw [hlast, nameoffOf_succ hi]

/-- The length of a name is found from the next offset, or from what follows the last name. -/
theorem DirBlockHeld.namelen (hi : ds[i]? = some d) :
    Dirent.namelen mem (12 * ds.length) size i = d.name.length := by
  have hle := nameoffOf_add_le hi
  have hoff := h.nameoff hfit hsize hi
  have hlen := d.name_lt
  unfold erofsNameLen at hlen
  unfold Dirent.namelen
  by_cases hlast : ds.length ≤ i + 1
  · have hil : ds.length = i + 1 := by have := (namesLen_take_le hi).1; omega
    rw [if_pos (by simp [Dirent.isLast]; omega), hoff, h.strnlen_last hfit hsize hi hil]
    omega
  · have hnext : i + 1 < ds.length := by omega
    have hi' : ds[i + 1]? = some ds[i + 1] := List.getElem?_eq_getElem hnext
    have hle' := nameoffOf_add_le hi'
    have hsucc := nameoffOf_succ hi
    rw [if_neg (by simp [Dirent.isLast]; omega), hoff, h.nameoff hfit hsize hi']
    unfold subU32
    omega

theorem DirBlockHeld.dname (hi : ds[i]? = some d) :
    Dirent.dname mem (12 * ds.length) size i = d.name := by
  rw [Dirent.dname, h.namelen hfit hsize hi, h.nameoff hfit hsize hi]
  exact slice_of_holds (h.name i d hi) rfl

end Held

section Packing

variable {bsz : ℕ}

/-- The blocks that `erofs_write_dir_file` packs the dentries into. -/
def dirBlocks (bsz : ℕ) (ds : List DirDentry) : List (List DirDentry) :=
  let packed := writeDirFileLoop bsz ds [] 0
  packed.1 ++ if packed.2.1 = [] then [] else [packed.2.1]

/-- The bytes that `erofs_write_dir_file` lays out. -/
def dirBytes (bsz : ℕ) (ds : List DirDentry) : ℕ :=
  let packed := writeDirFileLoop bsz ds [] 0
  packed.1.length * bsz + packed.2.2

theorem dirUsed_snoc (head : List DirDentry) (d : DirDentry) :
    dirUsed (head ++ [d]) = dirUsed head + d.len := by
  unfold dirUsed
  rw [List.map_append, List.sum_append, List.map_singleton, List.sum_singleton]

structure PackedBlocks (bsz : ℕ) (head ds : List DirDentry)
    (r : List (List DirDentry) × List DirDentry × ℕ) : Prop where
  flatten : r.1.flatten ++ r.2.1 = head ++ ds
  used : r.2.2 = dirUsed r.2.1
  fits : ∀ b ∈ r.2.1 :: r.1, dirUsed b ≤ bsz
  nonempty : ∀ b ∈ r.1, b ≠ []
  rest : head ++ ds ≠ [] → r.2.1 ≠ []

theorem writeDirFileLoop_packed (ds head : List DirDentry) (hlen : ∀ d ∈ ds, d.len ≤ bsz)
    (hhead : dirUsed head ≤ bsz) :
    PackedBlocks bsz head ds (writeDirFileLoop bsz ds head (dirUsed head)) := by
  induction ds generalizing head with
  | nil =>
      rw [writeDirFileLoop]
      constructor
      · simp
      · rfl
      · simpa using hhead
      · simp
      · simp
  | cons d ds ih =>
      have hd := hlen d List.mem_cons_self
      have hds : ∀ e ∈ ds, e.len ≤ bsz := fun e he => hlen e (List.mem_cons_of_mem d he)
      rw [writeDirFileLoop]
      by_cases hover : bsz < dirUsed head + d.len
      · rw [if_pos hover]
        have hone : dirUsed [d] = d.len := by simp [dirUsed]
        have hp := ih [d] hds (by rw [hone]; exact hd)
        rw [hone] at hp
        constructor
        · have hf := hp.flatten
          simp only [List.flatten_cons, List.append_assoc] at hf ⊢
          rw [hf, List.singleton_append]
        · exact hp.used
        · intro b hb
          rw [List.mem_cons, List.mem_cons] at hb
          rcases hb with hb | hb | hb
          · exact hp.fits b (List.mem_cons.mpr (Or.inl hb))
          · exact hb ▸ hhead
          · exact hp.fits b (List.mem_cons.mpr (Or.inr hb))
        · intro b hb
          cases List.mem_cons.mp hb with
          | inl hb =>
              intro hnil
              rw [← hb, hnil] at hover
              simp [dirUsed] at hover
              omega
          | inr hb => exact hp.nonempty b hb
        · intro _
          exact hp.rest (by simp)
      · rw [if_neg hover, ← dirUsed_snoc]
        have hp := ih (head ++ [d]) hds (by rw [dirUsed_snoc]; omega)
        constructor
        · rw [hp.flatten, List.append_assoc, List.singleton_append]
        · exact hp.used
        · exact hp.fits
        · exact hp.nonempty
        · intro _
          exact hp.rest (by simp)

theorem used_le_writeDirFileLoop (ds head : List DirDentry) {used : ℕ} (hused : used ≤ bsz)
    (hlen : ∀ d ∈ ds, d.len ≤ bsz) :
    used ≤ (writeDirFileLoop bsz ds head used).1.length * bsz +
      (writeDirFileLoop bsz ds head used).2.2 := by
  induction ds generalizing head used with
  | nil => simp [writeDirFileLoop]
  | cons d ds ih =>
      have hds : ∀ e ∈ ds, e.len ≤ bsz := fun e he => hlen e (List.mem_cons_of_mem d he)
      rw [writeDirFileLoop]
      by_cases hover : bsz < used + d.len
      · rw [if_pos hover]
        change used ≤ ((writeDirFileLoop bsz ds [d] d.len).1.length + 1) * bsz + _
        rw [Nat.succ_mul]
        omega
      · rw [if_neg hover]
        have hle := ih (head ++ [d]) (Nat.le_of_not_lt hover) hds
        omega

/-- The step of the size: it goes on to the next block where the loop that writes does. -/
theorem dirFileSize_step {n used len : ℕ} (hpos : 0 < len) (hlen : len ≤ bsz)
    (hused : used ≤ bsz) (hn : bsz < used + len → (n + 1) * bsz < 2 ^ 32) :
    (if bsz < (n * bsz + used) % bsz + len then u32 (roundUp (n * bsz + used) bsz)
      else n * bsz + used) = if bsz < used + len then (n + 1) * bsz else n * bsz + used := by
  cases Nat.lt_or_eq_of_le hused with
  | inl hlt =>
      rw [Nat.mul_add_mod_self_right, Nat.mod_eq_of_lt hlt]
      by_cases hover : bsz < used + len
      · rw [if_pos hover, if_pos hover]
        have hdiv : (n * bsz + used + (bsz - 1)) / bsz = n + 1 := by
          have hsplit : n * bsz + used + (bsz - 1) = (used - 1) + (n + 1) * bsz := by
            rw [Nat.succ_mul]
            omega
          rw [hsplit, Nat.add_mul_div_right _ _ (by omega), Nat.div_eq_of_lt (by omega)]
          omega
        rw [roundUp, hdiv, u32_of_lt (hn hover)]
      · rw [if_neg hover, if_neg hover]
  | inr heq =>
      rw [heq, ← Nat.succ_mul, Nat.mul_mod_left, if_neg (by omega), if_pos (by omega)]

/-- The size computed beforehand is that of what is laid out, unless it exceeds an
`unsigned int`. -/
theorem dirFileSize_eq (ds head : List DirDentry) (n : ℕ) {used : ℕ} (hused : used ≤ bsz)
    (hlen : ∀ d ∈ ds, d.len ≤ bsz)
    (hfit : (n + (writeDirFileLoop bsz ds head used).1.length) * bsz +
      (writeDirFileLoop bsz ds head used).2.2 < 2 ^ 32) :
    dirFileSize bsz ds (n * bsz + used) =
      (n + (writeDirFileLoop bsz ds head used).1.length) * bsz +
        (writeDirFileLoop bsz ds head used).2.2 := by
  induction ds generalizing head n used with
  | nil => rw [dirFileSize, writeDirFileLoop, List.length_nil, Nat.add_zero]
  | cons d ds ih =>
      have hd := hlen d List.mem_cons_self
      have hds : ∀ e ∈ ds, e.len ≤ bsz := fun e he => hlen e (List.mem_cons_of_mem d he)
      have hpos : 0 < d.len := by rw [DirDentry.len]; omega
      rw [dirFileSize]
      rw [writeDirFileLoop] at hfit ⊢
      by_cases hover : bsz < used + d.len
      · rw [if_pos hover] at hfit ⊢
        change (n + ((writeDirFileLoop bsz ds [d] d.len).1.length + 1)) * bsz +
          (writeDirFileLoop bsz ds [d] d.len).2.2 < 2 ^ 32 at hfit
        change _ = (n + ((writeDirFileLoop bsz ds [d] d.len).1.length + 1)) * bsz +
          (writeDirFileLoop bsz ds [d] d.len).2.2
        rw [Nat.add_comm _ 1, ← Nat.add_assoc] at hfit ⊢
        have hle := used_le_writeDirFileLoop ds [d] hd hds
        rw [Nat.add_mul (n + 1)] at hfit
        rw [dirFileSize_step hpos hd hused (fun _ => by omega), if_pos hover,
          u32_of_lt (by omega)]
        apply ih [d] (n + 1) hd hds
        rw [Nat.add_mul (n + 1)]
        exact hfit
      · rw [if_neg hover] at hfit ⊢
        have hle := used_le_writeDirFileLoop ds (head ++ [d]) (Nat.le_of_not_lt hover) hds
        have hfit' := hfit
        rw [Nat.add_mul n] at hfit'
        rw [dirFileSize_step hpos hd hused (fun h => absurd h hover), if_neg hover,
          u32_of_lt (by omega), Nat.add_assoc]
        exact ih (head ++ [d]) n (Nat.le_of_not_lt hover) hds hfit

theorem dirBlocks_packed {ds : List DirDentry} (hlen : ∀ d ∈ ds, d.len ≤ bsz) :
    ∃ written head, writeDirFileLoop bsz ds [] 0 = (written, head, dirUsed head) ∧
      PackedBlocks bsz [] ds (written, head, dirUsed head) ∧ (ds ≠ [] → head ≠ []) := by
  have hp := writeDirFileLoop_packed ds [] hlen (Nat.zero_le bsz)
  change PackedBlocks bsz [] ds (writeDirFileLoop bsz ds [] 0) at hp
  have hused := hp.used
  generalize writeDirFileLoop bsz ds [] 0 = r at hp hused
  obtain ⟨written, head, used⟩ := r
  change used = dirUsed head at hused
  subst hused
  exact ⟨written, head, rfl, hp, hp.rest⟩

theorem flatten_dirBlocks {ds : List DirDentry} (hlen : ∀ d ∈ ds, d.len ≤ bsz) :
    (dirBlocks bsz ds).flatten = ds := by
  obtain ⟨written, head, hloop, hp, -⟩ := dirBlocks_packed hlen
  have hf := hp.flatten
  unfold dirBlocks
  rw [hloop]
  change written.flatten ++ head = ds at hf
  by_cases hnil : head = []
  · simpa [hnil] using hf
  · simpa [hnil] using hf

structure BlockWritten (heap : Mem) (bsz j : ℕ) (dentries ds : List DirDentry) (size : ℕ) :
    Prop where
  size_eq : size = min bsz (dirBytes bsz dentries - j * bsz)
  used_le : dirUsed ds ≤ size
  ne : ds ≠ []
  full : j < dirBytes bsz dentries / bsz →
    (erofsWriteDirFile heap bsz dentries).blocks[j]? =
      some (fillDirblock heap size (12 * ds.length) ds)
  tail : ¬ j < dirBytes bsz dentries / bsz → j = dirBytes bsz dentries / bsz ∧
    (erofsWriteDirFile heap bsz dentries).idata = fillDirblock heap size (12 * ds.length) ds

theorem blockWritten (heap : Mem) {dentries ds : List DirDentry} {j : ℕ} (hbsz : 0 < bsz)
    (hlen : ∀ d ∈ dentries, d.len ≤ bsz) (hj : (dirBlocks bsz dentries)[j]? = some ds) :
    ∃ size, BlockWritten heap bsz j dentries ds size := by
  obtain ⟨written, head, hloop, hp, -⟩ := dirBlocks_packed hlen
  have hbytes : dirBytes bsz dentries = written.length * bsz + dirUsed head := by
    unfold dirBytes
    rw [hloop]
  have hle : dirUsed head ≤ bsz := hp.fits head List.mem_cons_self
  unfold dirBlocks at hj
  rw [hloop] at hj
  by_cases hlt : j < written.length
  · rw [List.getElem?_append_left hlt] at hj
    have hmem : ds ∈ written := List.mem_of_getElem? hj
    have hmul : (j + 1) * bsz ≤ written.length * bsz := Nat.mul_le_mul_right bsz hlt
    have hdiv : j < dirBytes bsz dentries / bsz := by
      rw [Nat.lt_iff_add_one_le, Nat.le_div_iff_mul_le hbsz]
      omega
    rw [Nat.succ_mul] at hmul
    refine ⟨bsz, by omega, hp.fits ds (List.mem_cons_of_mem head hmem), hp.nonempty ds hmem,
      fun _ => ?_, fun h => absurd hdiv h⟩
    unfold erofsWriteDirFile
    rw [hloop]
    by_cases hfull : dirUsed head = bsz
    · simp only [hfull, if_true]
      rw [List.getElem?_map, List.getElem?_append_left hlt, hj, Option.map_some]
    · simp only [hfull, if_false]
      rw [List.getElem?_map, hj, Option.map_some]
  · rw [List.getElem?_append_right (Nat.le_of_not_lt hlt)] at hj
    have hne : head ≠ [] := by
      intro hnil
      simp [hnil] at hj
    simp only [hne, if_false] at hj
    obtain ⟨hlast, rfl⟩ := List.getElem?_eq_some_iff.mp hj
    rw [List.length_singleton] at hlast
    have hjw : j = written.length := by omega
    subst hjw
    simp only [Nat.sub_self, List.getElem_cons_zero]
    have hpos : 0 < dirUsed head := by
      rw [dirUsed_eq]
      have := List.length_pos_iff.mpr hne
      omega
    refine ⟨dirUsed head, by omega, le_refl _, hne, fun hdiv => ?_, fun hdiv => ?_⟩
    · have hfull : dirUsed head = bsz := by
        rw [Nat.lt_iff_add_one_le, Nat.le_div_iff_mul_le hbsz, Nat.succ_mul] at hdiv
        omega
      unfold erofsWriteDirFile
      rw [hloop]
      simp only [hfull, if_true]
      rw [List.getElem?_map, List.getElem?_append_right (le_refl _), Nat.sub_self]
      rfl
    · have hpart : dirUsed head < bsz := by
        rw [Nat.lt_iff_add_one_le, Nat.le_div_iff_mul_le hbsz, Nat.succ_mul] at hdiv
        omega
      constructor
      · rw [hbytes, Nat.add_comm, Nat.add_mul_div_right _ _ hbsz, Nat.div_eq_of_lt hpart,
          Nat.zero_add]
      · unfold erofsWriteDirFile
        rw [hloop]
        simp only [hpart.ne, if_false, hpos.ne', ne_eq, not_false_eq_true, if_true]

theorem exists_dirBlock {dentries : List DirDentry} {j : ℕ} (hlen : ∀ d ∈ dentries, d.len ≤ bsz)
    (hj : j * bsz < dirBytes bsz dentries) : ∃ ds, (dirBlocks bsz dentries)[j]? = some ds := by
  obtain ⟨written, head, hloop, hp, -⟩ := dirBlocks_packed hlen
  have hle : dirUsed head ≤ bsz := hp.fits head List.mem_cons_self
  unfold dirBytes at hj
  unfold dirBlocks
  rw [hloop] at hj ⊢
  apply Option.isSome_iff_exists.mp
  rw [isSome_getElem?]
  by_cases hnil : head = []
  · simp only [hnil, if_true, List.append_nil]
    have h0 : dirUsed head = 0 := by rw [hnil]; rfl
    rw [h0, Nat.add_zero] at hj
    exact Nat.lt_of_mul_lt_mul_right hj
  · simp only [hnil, if_false, List.length_append, List.length_singleton]
    have hlt : j * bsz < (written.length + 1) * bsz := by
      change j * bsz < written.length * bsz + dirUsed head at hj
      rw [Nat.succ_mul]
      omega
    exact Nat.lt_of_mul_lt_mul_right hlt

end Packing

end ErofsUtils
