import ErofsUtils.XattrRead
import Mathlib.Data.Nat.ModEq

/-!
# What a walk over xattr entries sees

The iterator of `xattr_foreach` stands at a position of the device, as block numbers of 32 bits
address it. The rules below say what a call of it does at a record from what the callbacks do with
the record as a whole: either a read fails, or the callbacks end with what they promise and the
iterator stands behind the record.
-/

namespace ErofsUtils
open ByteMemory CString

def XattrDev.Fails (dev : XattrDev) : Prop := ∃ pos len err, dev.readErr pos len = some err

/-- A value as promised, or an I/O error of the device. -/
def XattrDev.Reads {α : Type*} (dev : XattrDev) (r : Except ℤ α) (p : α → Prop) : Prop :=
  match r with
  | .error err => err = eIo ∧ dev.Fails
  | .ok a => p a

/-- The device as block numbers of 32 bits address it. -/
def XattrDev.blockMem (dev : XattrDev) (sb : XattrSb) : Mem := fun p =>
  dev.mem (p % (2 ^ 32 * sb.blksiz))

structure XattrRecord where
  nameIndex : ℕ
  name : List UInt8
  value : List UInt8
  deriving DecidableEq, Repr

namespace XattrRecord

def entry (r : XattrRecord) : XattrEntry where
  eNameLen := r.name.length
  eNameIndex := r.nameIndex
  eValueSize := r.value.length

def size (r : XattrRecord) : ℕ := r.entry.size

def read (mem : Mem) (pos : ℕ) : XattrRecord :=
  let e := XattrEntry.decode mem pos
  { nameIndex := e.eNameIndex
    name := slice mem (pos + 4) e.eNameLen
    value := slice mem (pos + 4 + e.eNameLen) e.eValueSize }

@[simp] theorem entry_read (mem : Mem) (pos : ℕ) :
    (read mem pos).entry = XattrEntry.decode mem pos := by
  simp [read, entry]

theorem size_pos (r : XattrRecord) : 0 < r.size := r.entry.size_pos

theorem size_mod (r : XattrRecord) : r.size % 4 = 0 := Nat.mul_mod_left _ 4

end XattrRecord

structure XattrIter.At (dev : XattrDev) (sb : XattrSb) (it : XattrIter) (pos : ℕ) : Prop where
  page : ∀ i < sb.blksiz, it.kaddr i = dev.mem (it.blkaddr * sb.blksiz + i)
  blkaddr_lt : it.blkaddr < 2 ^ 32
  pos_eq : it.blkaddr * sb.blksiz + it.ofs ≡ pos [MOD 2 ^ 32 * sb.blksiz]

section Iterator

variable {dev : XattrDev} {sb : XattrSb} {it : XattrIter} {pos : ℕ}

theorem XattrDev.Reads.imp {α : Type*} {r : Except ℤ α} {p q : α → Prop} (h : dev.Reads r p)
    (hpq : ∀ a, p a → q a) : dev.Reads r q := by
  cases r with
  | error err => exact h
  | ok a => exact hpq a h

theorem blksiz_spec (sb : XattrSb) : sb.blksiz % 512 = 0 ∧ 512 ≤ sb.blksiz ∧ sb.blksiz ≤ 65536 := by
  have hsplit : sb.blksiz = 2 ^ (sb.blkszbits - 9) * 512 := by
    rw [XattrSb.blksiz, show (512 : ℕ) = 2 ^ 9 by rfl, ← pow_add,
      Nat.sub_add_cancel sb.blkszbits_ge]
  have hlow : 2 ^ 9 ≤ sb.blksiz := Nat.pow_le_pow_right (by decide) sb.blkszbits_ge
  have hhigh : sb.blksiz ≤ 2 ^ 16 := Nat.pow_le_pow_right (by decide) sb.blkszbits_le
  omega

theorem blksiz_pos (sb : XattrSb) : 0 < sb.blksiz := by
  have h := (blksiz_spec sb).2.1
  omega

/-- The positions that blocks of 32 bits reach repeat within 64 bits. -/
theorem blocks_dvd (sb : XattrSb) : 2 ^ 32 * sb.blksiz ∣ 2 ^ 64 := by
  rw [XattrSb.blksiz, ← pow_add]
  apply Nat.pow_dvd_pow
  have h := sb.blkszbits_le
  omega

theorem four_dvd_blksiz (sb : XattrSb) : 4 ∣ sb.blksiz := by
  have h := (blksiz_spec sb).1
  omega

theorem xattrIterRead_spec {blkaddr ofs : ℕ} (h : blkaddr < 2 ^ 32)
    (hpos : blkaddr * sb.blksiz + ofs ≡ pos [MOD 2 ^ 32 * sb.blksiz]) :
    dev.Reads (xattrIterRead dev sb blkaddr ofs) fun it => it.At dev sb pos ∧ it.ofs = ofs := by
  have h64 : u64 (blkaddr * sb.blksiz) = blkaddr * sb.blksiz := by
    have hle := (blksiz_spec sb).2.2
    have hmul : blkaddr * sb.blksiz ≤ 2 ^ 32 * 65536 := Nat.mul_le_mul h.le hle
    exact u64_of_lt (by omega)
  unfold xattrIterRead XattrDev.erofsDevRead
  rw [h64]
  cases herr : dev.readErr (blkaddr * sb.blksiz) sb.blksiz with
  | none => exact ⟨⟨fun i _ => rfl, h, hpos⟩, rfl⟩
  | some err => exact ⟨rfl, _, _, _, herr⟩

/-- A block number that is cut to 32 bits is that of the same position. -/
theorem u32_block_modEq (sb : XattrSb) (n : ℕ) :
    u32 n * sb.blksiz ≡ n * sb.blksiz [MOD 2 ^ 32 * sb.blksiz] :=
  (Nat.mod_modEq n (2 ^ 32)).mul_right' sb.blksiz

theorem xattrIterAt_spec (dev : XattrDev) (sb : XattrSb) (pos : ℕ) :
    dev.Reads (xattrIterAt dev sb pos) fun it => it.At dev sb pos ∧ it.ofs < sb.blksiz := by
  have hwrap : u32 (u64 pos / sb.blksiz) * sb.blksiz + u64 pos % sb.blksiz ≡ pos
      [MOD 2 ^ 32 * sb.blksiz] :=
    calc u32 (u64 pos / sb.blksiz) * sb.blksiz + u64 pos % sb.blksiz
        ≡ u64 pos / sb.blksiz * sb.blksiz + u64 pos % sb.blksiz [MOD 2 ^ 32 * sb.blksiz] :=
          (u32_block_modEq sb _).add_right _
      _ = u64 pos := by rw [Nat.mul_comm, Nat.div_add_mod]
      _ ≡ pos [MOD 2 ^ 32 * sb.blksiz] := (Nat.mod_modEq pos (2 ^ 64)).of_dvd (blocks_dvd sb)
  refine (xattrIterRead_spec (u32_lt _) hwrap).imp ?_
  rintro it ⟨hat, hofs⟩
  exact ⟨hat, hofs ▸ Nat.mod_lt _ (blksiz_pos sb)⟩

namespace XattrIter.At

theorem add (hat : it.At dev sb pos) (n : ℕ) :
    At dev sb { it with ofs := it.ofs + n } (pos + n) where
  page := hat.page
  blkaddr_lt := hat.blkaddr_lt
  pos_eq := by
    rw [← Nat.add_assoc]
    exact hat.pos_eq.add_right n

/-- The block of the iterator holds what the device has at the position. -/
theorem kaddr_eq (hat : it.At dev sb pos) {k : ℕ} (hk : it.ofs + k < sb.blksiz) :
    it.kaddr (it.ofs + k) = dev.blockMem sb (pos + k) := by
  have hlt : it.blkaddr * sb.blksiz + (it.ofs + k) < 2 ^ 32 * sb.blksiz := by
    have hmul : (it.blkaddr + 1) * sb.blksiz ≤ 2 ^ 32 * sb.blksiz :=
      Nat.mul_le_mul_right _ hat.blkaddr_lt
    rw [Nat.add_mul, Nat.one_mul] at hmul
    omega
  have hmod : it.blkaddr * sb.blksiz + (it.ofs + k) ≡ pos + k [MOD 2 ^ 32 * sb.blksiz] := by
    rw [← Nat.add_assoc]
    exact hat.pos_eq.add_right k
  rw [hat.page _ hk, XattrDev.blockMem, ← Eq.trans rfl hmod, Nat.mod_eq_of_lt hlt]

theorem slice_eq (hat : it.At dev sb pos) {n : ℕ} (hn : it.ofs + n ≤ sb.blksiz) :
    slice it.kaddr it.ofs n = slice (dev.blockMem sb) pos n :=
  slice_congr fun k hk => hat.kaddr_eq (by omega)

theorem leNat_eq (hat : it.At dev sb pos) {k w : ℕ} (hn : it.ofs + k + w ≤ sb.blksiz) :
    leNat it.kaddr (it.ofs + k) w = leNat (dev.blockMem sb) (pos + k) w := by
  apply leNat_congr
  intro j hj
  rw [Nat.add_assoc, Nat.add_assoc]
  exact hat.kaddr_eq (by omega)

theorem decode_eq (hat : it.At dev sb pos) (hn : it.ofs + 4 ≤ sb.blksiz) :
    XattrEntry.decode it.kaddr it.ofs = XattrEntry.decode (dev.blockMem sb) pos := by
  have h0 := hat.leNat_eq (k := 0) (w := 1) (by omega)
  rw [Nat.add_zero, Nat.add_zero] at h0
  rw [XattrEntry.decode, XattrEntry.decode, h0, hat.leNat_eq (k := 1) (by omega),
    hat.leNat_eq (k := 2) (by omega)]

theorem ofs_mod (hat : it.At dev sb pos) : it.ofs % 4 = pos % 4 := by
  have h4 := hat.pos_eq.of_dvd ((four_dvd_blksiz sb).mul_left (2 ^ 32))
  have hblk : it.blkaddr * sb.blksiz % 4 = 0 :=
    Nat.mod_eq_zero_of_dvd ((four_dvd_blksiz sb).mul_left _)
  unfold Nat.ModEq at h4
  omega

theorem align {n : ℕ} (hat : it.At dev sb (pos + n)) (h4 : pos % 4 = 0) :
    At dev sb { it with ofs := roundUp it.ofs 4 } (pos + roundUp n 4) := by
  have hmod := hat.ofs_mod
  have hpad : roundUp n 4 = n + (roundUp it.ofs 4 - it.ofs) ∧ it.ofs ≤ roundUp it.ofs 4 := by
    unfold roundUp
    omega
  have hadd := hat.add (roundUp it.ofs 4 - it.ofs)
  rw [Nat.add_sub_cancel' hpad.2, Nat.add_assoc, ← hpad.1] at hadd
  exact hadd

end XattrIter.At

theorem xattrIterFixup_spec (hat : it.At dev sb pos) :
    dev.Reads (xattrIterFixup dev sb it) fun it' =>
      it'.At dev sb pos ∧ it'.ofs = it.ofs % sb.blksiz := by
  unfold xattrIterFixup
  split
  · next hlt => exact ⟨hat, (Nat.mod_eq_of_lt hlt).symm⟩
  · refine xattrIterRead_spec (u32_lt _) ?_
    have hsum : (it.blkaddr + it.ofs / sb.blksiz) * sb.blksiz + it.ofs % sb.blksiz =
        it.blkaddr * sb.blksiz + it.ofs := by
      rw [Nat.add_mul, Nat.add_assoc, Nat.mul_comm (it.ofs / sb.blksiz), Nat.div_add_mod]
    exact ((u32_block_modEq sb _).add_right _).trans (hsum ▸ hat.pos_eq)

theorem xattrIterStep_spec (hat : it.At dev sb pos) (hofs : it.ofs ≤ sb.blksiz) :
    dev.Reads (xattrIterStep dev sb it) fun it' => it'.At dev sb pos ∧ it'.ofs < sb.blksiz := by
  unfold xattrIterStep
  split
  · next hlt => exact ⟨hat, hlt⟩
  · next hge =>
      have hend : it.ofs % sb.blksiz = 0 := by
        rw [le_antisymm hofs (Nat.not_lt.mp hge), Nat.mod_self]
      have hfix := xattrIterFixup_spec hat
      cases hr : xattrIterFixup dev sb it with
      | error err =>
          rw [hr] at hfix
          exact hfix
      | ok it' =>
          rw [hr] at hfix
          obtain ⟨hat', hofs'⟩ := hfix
          rw [hend] at hofs'
          have hsame : { it' with ofs := 0 } = it' := by rw [← hofs']
          dsimp only
          rw [hsame]
          exact ⟨hat', hofs' ▸ blksiz_pos sb⟩

end Iterator

section Rules

variable {dev : XattrDev} {sb : XattrSb} {it : XattrIter} {pos : ℕ}
variable {σ : Type*} {op : XattrIterHandlers σ} {st : σ} {I : ℕ → σ → Prop} {Q : ℤ → σ → Prop}

/-- How a part of `xattr_foreach` ends: a read fails, or it goes on with `p` or stops with the
code and the state of a callback, at the end of the record. -/
def XattrDev.Ends (dev : XattrDev) (sb : XattrSb) (r : ℤ × XattrIter × σ) (fin : ℕ)
    (p : XattrIter → σ → Prop) (q : ℤ → σ → Prop) : Prop :=
  (r.1 = eIo ∧ dev.Fails) ∨ (r.1 = 0 ∧ p r.2.1 r.2.2) ∨
    (r.1 ≠ 0 ∧ q r.1 r.2.2 ∧ r.2.1.At dev sb fin)

theorem xattrForeachName_rule {nameLen valueSz fuel processed : ℕ}
    (hop : ∀ p len st, I p st → p + len ≤ nameLen →
      let r := op.name p (slice (dev.blockMem sb) (pos + p) len) st
      if r.1 = 0 then I (p + len) r.2 else Q r.1 r.2)
    (hle : processed ≤ nameLen) (hfuel : nameLen ≤ processed + fuel)
    (hat : it.At dev sb (pos + processed)) (hofs : it.ofs ≤ sb.blksiz) (hI : I processed st) :
    dev.Ends sb (xattrForeachName dev sb op nameLen valueSz fuel processed it st)
      (pos + (nameLen + valueSz))
      (fun it st => I nameLen st ∧ it.At dev sb (pos + nameLen) ∧ it.ofs ≤ sb.blksiz) Q := by
  induction fuel generalizing processed it st with
  | zero =>
      have hend : processed = nameLen := by omega
      subst hend
      exact Or.inr (Or.inl ⟨rfl, hI, hat, hofs⟩)
  | succ fuel ih =>
      rw [xattrForeachName]
      split
      · next hge =>
          have hend : processed = nameLen := le_antisymm hle hge
          subst hend
          exact Or.inr (Or.inl ⟨rfl, hI, hat, hofs⟩)
      next hmore =>
      have hstep := xattrIterStep_spec hat hofs
      cases hr : xattrIterStep dev sb it with
      | error err =>
          rw [hr] at hstep
          exact Or.inl hstep
      | ok it' =>
          rw [hr] at hstep
          obtain ⟨hat', hlt⟩ := hstep
          dsimp only
          generalize hlen : min (sb.blksiz - it'.ofs) (nameLen - processed) = len
          have hcall := hop processed len st hI (by omega)
          rw [← hat'.slice_eq (by omega)] at hcall
          generalize op.name processed (slice it'.kaddr it'.ofs len) st = n at hcall ⊢
          by_cases herr : n.1 = 0
          · rw [if_pos herr] at hcall
            rw [if_neg (not_not.mpr herr)]
            apply ih (by omega) (by omega)
            · rw [← Nat.add_assoc]
              exact hat'.add len
            · dsimp only
              omega
            · exact hcall
          · rw [if_neg herr] at hcall
            rw [if_pos herr]
            refine Or.inr (Or.inr ⟨herr, hcall, ?_⟩)
            have hadd := hat'.add (nameLen - processed + valueSz)
            rwa [Nat.add_assoc pos, ← Nat.add_assoc processed, Nat.add_sub_cancel' hle] at hadd

theorem xattrForeachValue_rule {valueSz fuel processed : ℕ}
    (hop : ∀ p len st, I p st → p + len ≤ valueSz →
      I (p + len) (op.value p (slice (dev.blockMem sb) (pos + p) len) st))
    (hle : processed ≤ valueSz) (hfuel : valueSz ≤ processed + fuel)
    (hat : it.At dev sb (pos + processed)) (hofs : it.ofs ≤ sb.blksiz) (hI : I processed st) :
    dev.Ends sb (xattrForeachValue dev sb op valueSz fuel processed it st) (pos + valueSz)
      (fun it st => I valueSz st ∧ it.At dev sb (pos + valueSz)) Q := by
  induction fuel generalizing processed it st with
  | zero =>
      have hend : processed = valueSz := by omega
      subst hend
      exact Or.inr (Or.inl ⟨rfl, hI, hat⟩)
  | succ fuel ih =>
      rw [xattrForeachValue]
      split
      · next hge =>
          have hend : processed = valueSz := le_antisymm hle hge
          subst hend
          exact Or.inr (Or.inl ⟨rfl, hI, hat⟩)
      next hmore =>
      have hstep := xattrIterStep_spec hat hofs
      cases hr : xattrIterStep dev sb it with
      | error err =>
          rw [hr] at hstep
          exact Or.inl hstep
      | ok it' =>
          rw [hr] at hstep
          obtain ⟨hat', hlt⟩ := hstep
          dsimp only
          generalize hlen : min (sb.blksiz - it'.ofs) (valueSz - processed) = len
          have hcall := hop processed len st hI (by omega)
          rw [← hat'.slice_eq (by omega)] at hcall
          apply ih (by omega) (by omega)
          · rw [← Nat.add_assoc]
            exact hat'.add len
          · dsimp only
            omega
          · exact hcall

/-- What the callbacks do with a whole record: `q` holds of the code they end with, 0 if none
of them stops, and of what they have made. -/
def XattrIterHandlers.Handles (op : XattrIterHandlers σ) (r : XattrRecord) (st : σ)
    (q : ℤ → σ → Prop) : Prop :=
  let e := op.entry r.entry st
  (e.1 ≠ 0 → q e.1 e.2) ∧
    (e.1 = 0 → ∃ I : ℕ → σ → Prop, I 0 e.2 ∧
      (∀ p len st, I p st → p + len ≤ r.name.length →
        let n := op.name p ((r.name.drop p).take len) st
        if n.1 = 0 then I (p + len) n.2 else q n.1 n.2) ∧
      ∀ st, I r.name.length st →
        let a := op.allocBuffer r.value.length st
        (a.1 ≠ 0 → q a.1 a.2) ∧
          (a.1 = 0 → ∃ J : ℕ → σ → Prop, J 0 a.2 ∧
            (∀ p len st, J p st → p + len ≤ r.value.length →
              J (p + len) (op.value p ((r.value.drop p).take len) st)) ∧
            ∀ st, J r.value.length st → q 0 st))

theorem take_drop_slice {mem : Mem} {p n k len : ℕ} (h : k + len ≤ n) :
    ((slice mem p n).drop k).take len = slice mem (p + k) len := by
  rw [drop_slice, take_slice _ (by omega)]

theorem xattrForeachEntry_rule {q : ℤ → σ → Prop}
    (hat : it.At dev sb (pos + 4)) (hofs : it.ofs ≤ sb.blksiz)
    (hop : op.Handles (XattrRecord.read (dev.blockMem sb) pos) st q) :
    let r := XattrRecord.read (dev.blockMem sb) pos
    dev.Ends sb (xattrForeachEntry dev sb op r.entry it st)
      (pos + (4 + r.name.length + r.value.length))
      (fun it st => q 0 st ∧ it.At dev sb (pos + (4 + r.name.length + r.value.length))) q := by
  intro r
  have hnameLen : r.entry.eNameLen = r.name.length := rfl
  have hvalueSz : r.entry.eValueSize = r.value.length := rfl
  have hname : r.name = slice (dev.blockMem sb) (pos + 4) r.name.length := by
    simp [r, XattrRecord.read]
  have hvalue : r.value = slice (dev.blockMem sb) (pos + 4 + r.name.length) r.value.length := by
    simp [r, XattrRecord.read]
  have hsum : pos + 4 + (r.name.length + r.value.length) =
      pos + (4 + r.name.length + r.value.length) := by omega
  obtain ⟨hstop, hgo⟩ := hop
  unfold xattrForeachEntry
  rw [hnameLen, hvalueSz]
  generalize op.entry r.entry st = e at hstop hgo ⊢
  by_cases herr : e.1 = 0
  swap
  · rw [if_pos herr]
    exact Or.inr (Or.inr ⟨herr, hstop herr, hsum ▸ hat.add _⟩)
  rw [if_neg (not_not.mpr herr)]
  obtain ⟨I, hI, hcalls, halloc⟩ := hgo herr
  -- the name, from the pieces that the blocks cut it into
  have hloop := @xattrForeachName_rule _ _ _ _ _ _ _ I q r.name.length r.value.length r.name.length _
    (fun p len st hp hle => by
      have hcall := hcalls p len st hp hle
      rw [hname, take_drop_slice hle] at hcall
      exact hcall)
    (Nat.zero_le _) (by omega) hat hofs hI
  generalize xattrForeachName dev sb op r.name.length r.value.length r.name.length 0 it e.2 = n
    at hloop ⊢
  rcases hloop with ⟨hio, hfails⟩ | ⟨hzero, hIend, hnat, hnofs⟩ | ⟨hne, hq, hnat⟩
  · rw [if_pos (by rw [hio]; decide)]
    exact Or.inl ⟨hio, hfails⟩
  · rw [if_neg (not_not.mpr hzero)]
    obtain ⟨hastop, hago⟩ := halloc n.2.2 hIend
    generalize op.allocBuffer r.value.length n.2.2 = a at hastop hago ⊢
    by_cases haerr : a.1 = 0
    · rw [if_neg (not_not.mpr haerr)]
      obtain ⟨J, hJ, hvcalls, hend⟩ := hago haerr
      have hvloop := @xattrForeachValue_rule _ _ _ (pos + 4 + r.name.length) _ _ _ J q r.value.length
        r.value.length _
        (fun p len st hp hle => by
          have hcall := hvcalls p len st hp hle
          rw [hvalue, take_drop_slice hle] at hcall
          exact hcall)
        (Nat.zero_le _) (by omega) hnat hnofs hJ
      rw [Nat.add_assoc (pos + 4), hsum] at hvloop
      rcases hvloop with h | ⟨h0, hJend, hvat⟩ | h
      · exact Or.inl h
      · exact Or.inr (Or.inl ⟨h0, hend _ hJend, hvat⟩)
      · exact Or.inr (Or.inr h)
    · rw [if_pos haerr]
      refine Or.inr (Or.inr ⟨haerr, hastop haerr, ?_⟩)
      have hadd := hnat.add r.value.length
      rwa [Nat.add_assoc (pos + 4), hsum] at hadd
  · rw [if_pos hne]
    exact Or.inr (Or.inr ⟨hne, hq, hsum ▸ hnat⟩)

/-- What `xattr_foreach` returns for the code of its callbacks. -/
def foreachRet (err : ℤ) : ℤ := if err < 0 then err else 0

/-- How a call of `xattr_foreach` at a record ends: a read fails, the record is longer than the
limit, or the callbacks are done with it and the iterator stands behind it. -/
def XattrDev.Walked (dev : XattrDev) (sb : XattrSb) (tlimit : Option ℕ) (pos size : ℕ)
    (q : ℤ → σ → Prop) (r : ℤ × XattrIter × σ × Option ℕ) : Prop :=
  (r.1 = eIo ∧ dev.Fails) ∨
    (r.1 = eFsCorrupted ∧ ∃ limit, tlimit = some limit ∧ limit < size) ∨
    ((∃ err, r.1 = foreachRet err ∧ q err r.2.2.1) ∧ r.2.1.At dev sb (pos + size) ∧
      (∀ limit, tlimit = some limit → size ≤ limit) ∧ r.2.2.2 = tlimit.map (· - size))

theorem xattrForeach_rule {q : ℤ → σ → Prop} {tlimit : Option ℕ} (hat : it.At dev sb pos)
    (h4 : pos % 4 = 0) (hop : op.Handles (XattrRecord.read (dev.blockMem sb) pos) st q) :
    dev.Walked sb tlimit pos (XattrRecord.read (dev.blockMem sb) pos).size q
      (xattrForeach dev sb op it st tlimit) := by
  have hfix := xattrIterFixup_spec hat
  unfold xattrForeach
  cases hr : xattrIterFixup dev sb it with
  | error err =>
      rw [hr] at hfix
      exact Or.inl hfix
  | ok it' =>
      rw [hr] at hfix
      obtain ⟨hat', hofs⟩ := hfix
      have hmod := hat'.ofs_mod
      have hblk := blksiz_spec sb
      have hlt : it'.ofs < sb.blksiz := hofs ▸ Nat.mod_lt _ (blksiz_pos sb)
      have hroom : it'.ofs + 4 ≤ sb.blksiz := by omega
      have hdec : XattrEntry.decode it'.kaddr it'.ofs =
          (XattrRecord.read (dev.blockMem sb) pos).entry := by
        rw [hat'.decode_eq hroom, XattrRecord.entry_read]
      dsimp only
      rw [hdec]
      split
      · next hshort =>
          refine Or.inr (Or.inl ⟨rfl, ?_⟩)
          cases tlimit with
          | none => simp at hshort
          | some limit => exact ⟨limit, rfl, of_decide_eq_true hshort⟩
      · next hfits =>
          have hentry := xattrForeachEntry_rule
            (hat'.add 4) hroom hop
          dsimp only at hentry
          generalize xattrForeachEntry dev sb op _ { it' with ofs := it'.ofs + 4 } st = r
            at hentry ⊢
          have hlimit : ∀ limit, tlimit = some limit →
              (XattrRecord.read (dev.blockMem sb) pos).size ≤ limit := by
            rintro limit rfl
            exact Nat.not_lt.mp fun h => hfits (decide_eq_true h)
          rcases hentry with ⟨hio, hfails⟩ | ⟨h0, hq, hoat⟩ | ⟨hne, hq, hoat⟩
          · refine Or.inl ⟨?_, hfails⟩
            dsimp only
            rw [hio]
            rfl
          · exact Or.inr (Or.inr ⟨⟨0, by rw [h0]; rfl, hq⟩, hoat.align h4, hlimit, rfl⟩)
          · exact Or.inr (Or.inr ⟨⟨r.1, rfl, hq⟩, hoat.align h4, hlimit, rfl⟩)

end Rules

/-- Whole entries from a position on that take so many bytes. -/
inductive XattrEntries (mem : Mem) : ℕ → ℕ → List XattrRecord → Prop
  | nil (pos : ℕ) : XattrEntries mem pos 0 []
  | cons {pos len : ℕ} {rs : List XattrRecord}
      (rest : XattrEntries mem (pos + (XattrRecord.read mem pos).size) len rs) :
      XattrEntries mem pos ((XattrRecord.read mem pos).size + len) (XattrRecord.read mem pos :: rs)

theorem XattrEntries.nil_iff {mem : Mem} {pos len : ℕ} {rs : List XattrRecord}
    (h : XattrEntries mem pos len rs) : rs = [] ↔ len = 0 := by
  cases h with
  | nil => exact iff_of_true rfl rfl
  | cons rest =>
      have hpos := (XattrRecord.read mem pos).size_pos
      exact iff_of_false (List.cons_ne_nil _ _) (by omega)

def XattrSb.sharedPos (sb : XattrSb) (id : ℕ) : ℕ := sb.xattrBlkaddr * sb.blksiz + id * 4

def XattrDev.sharedRecord (dev : XattrDev) (sb : XattrSb) (id : ℕ) : XattrRecord :=
  XattrRecord.read (dev.blockMem sb) (sb.sharedPos id)

section Loops

variable {dev : XattrDev} {sb : XattrSb} {it : XattrIter} {pos : ℕ}
variable {σ : Type*} {op : XattrIterHandlers σ} {st : σ} {next : ℤ}
variable {K : List XattrRecord → σ → Prop} {R : ℤ → σ → Prop}

/-- What the callbacks keep from one record to the next while they return `next`, and what they
end with. -/
def XattrIterHandlers.Keeps (op : XattrIterHandlers σ) (next : ℤ)
    (K : List XattrRecord → σ → Prop) (R : ℤ → σ → Prop) : Prop :=
  ∀ r rs st, K (r :: rs) st → op.Handles r st fun err st' =>
    if foreachRet err = next then K rs st' else R (foreachRet err) st'

/-- How a loop over records ends: a read fails, all records are handled, or a callback ends it. -/
def XattrDev.Done (dev : XattrDev) (next : ℤ) (K : List XattrRecord → σ → Prop)
    (R : ℤ → σ → Prop) (r : ℤ × σ) : Prop :=
  (r.1 = eIo ∧ dev.Fails) ∨ (r.1 = next ∧ K [] r.2) ∨ (r.1 ≠ next ∧ R r.1 r.2)

theorem xattrInlineLoop_rule {fuel remaining : ℕ} {ret : ℤ} {rs : List XattrRecord}
    (hkeep : op.Keeps next K R) (hrs : XattrEntries (dev.blockMem sb) pos remaining rs)
    (hat : it.At dev sb pos) (h4 : pos % 4 = 0) (hfuel : remaining ≤ fuel) (hK : K rs st)
    (hret : rs = [] → ret = next) (hne : next ≠ eIo) :
    dev.Done next K R (xattrInlineLoop dev sb op next fuel ret it st remaining) := by
  induction fuel generalizing pos remaining ret rs it st with
  | zero =>
      cases hrs with
      | nil => exact Or.inr (Or.inl ⟨hret rfl, hK⟩)
      | cons rest =>
          have hpos := (XattrRecord.read (dev.blockMem sb) pos).size_pos
          omega
  | succ fuel ih =>
      rw [xattrInlineLoop]
      cases hrs with
      | nil =>
          rw [if_pos rfl]
          exact Or.inr (Or.inl ⟨hret rfl, hK⟩)
      | @cons _ len rs rest =>
          have hpos := (XattrRecord.read (dev.blockMem sb) pos).size_pos
          have hmod := (XattrRecord.read (dev.blockMem sb) pos).size_mod
          rw [if_neg (by omega)]
          have hwalk := @xattrForeach_rule _ _ _ _ _ _ _ _
            (some ((XattrRecord.read (dev.blockMem sb) pos).size + len)) hat h4
            (hkeep _ _ _ hK)
          dsimp only
          generalize xattrForeach dev sb op it st _ = r at hwalk ⊢
          rcases hwalk with ⟨hio, hfails⟩ | ⟨-, limit, hlimit, hlt⟩ |
            ⟨⟨err, herr, hq⟩, hat', -, htl⟩
          · rw [if_pos (hio ▸ hne.symm)]
            exact Or.inl ⟨hio, hfails⟩
          · cases hlimit
            omega
          · by_cases hnext : r.1 = next
            · rw [← herr, if_pos hnext] at hq
              rw [if_neg (not_not.mpr hnext), htl, Option.map_some, Option.getD_some,
                Nat.add_sub_cancel_left]
              exact ih rest hat' (by omega) (by omega) hq (fun _ => hnext)
            · rw [← herr, if_neg hnext] at hq
              rw [if_pos hnext]
              exact Or.inr (Or.inr ⟨hnext, hq⟩)

theorem xattrSharedAt_spec {last : Option XattrIter} (id : ℕ)
    (hlast : ∀ it, last = some it → ∃ pos, it.At dev sb pos) :
    dev.Reads (xattrSharedAt dev sb last id) fun it => it.At dev sb (sb.sharedPos id) := by
  have hblk : xattrblockAddr sb id * sb.blksiz + xattrblockOffset sb id ≡ sb.sharedPos id
      [MOD 2 ^ 32 * sb.blksiz] := by
    have hsum : (sb.xattrBlkaddr + id * 4 / sb.blksiz) * sb.blksiz + xattrblockOffset sb id =
        sb.sharedPos id := by
      rw [XattrSb.sharedPos, xattrblockOffset, Nat.add_mul, Nat.add_assoc,
        Nat.mul_comm (id * 4 / sb.blksiz), Nat.div_add_mod]
    exact hsum ▸ (u32_block_modEq sb _).add_right _
  have hfresh : dev.Reads (xattrIterRead dev sb (xattrblockAddr sb id) (xattrblockOffset sb id))
      fun it => it.At dev sb (sb.sharedPos id) :=
    (xattrIterRead_spec (u32_lt _) hblk).imp fun it h => h.1
  unfold xattrSharedAt
  cases last with
  | none => exact hfresh
  | some it =>
      dsimp only
      split
      · exact hfresh
      · next hsame =>
          obtain ⟨pos, hat⟩ := hlast it rfl
          refine ⟨hat.page, hat.blkaddr_lt, ?_⟩
          rw [← not_not.mp hsame]
          exact hblk

theorem sharedPos_mod (sb : XattrSb) (id : ℕ) : sb.sharedPos id % 4 = 0 := by
  have h := Nat.mod_eq_zero_of_dvd ((four_dvd_blksiz sb).mul_left sb.xattrBlkaddr)
  rw [XattrSb.sharedPos]
  omega

theorem xattrSharedLoop_rule {ids : List ℕ} {ret : ℤ} {last : Option XattrIter}
    (hkeep : op.Keeps next K R) (hlast : ∀ it, last = some it → ∃ pos, it.At dev sb pos)
    (hK : K (ids.map (dev.sharedRecord sb)) st) (hret : ids = [] → ret = next)
    (hne : next ≠ eIo) :
    dev.Done next K R (xattrSharedLoop dev sb op next ids ret last st) := by
  induction ids generalizing ret last st with
  | nil => exact Or.inr (Or.inl ⟨hret rfl, hK⟩)
  | cons id ids ih =>
      have hshared := xattrSharedAt_spec id hlast
      rw [xattrSharedLoop]
      cases hr : xattrSharedAt dev sb last id with
      | error err =>
          rw [hr] at hshared
          exact Or.inl hshared
      | ok it =>
          rw [hr] at hshared
          have hwalk := @xattrForeach_rule _ _ _ _ _ _ _ _ none hshared (sharedPos_mod sb id)
            (hkeep _ _ _ hK)
          dsimp only
          generalize xattrForeach dev sb op it st none = r at hwalk ⊢
          rcases hwalk with ⟨hio, hfails⟩ | ⟨-, limit, hlimit, -⟩ | ⟨⟨err, herr, hq⟩, hat', -, -⟩
          · rw [if_pos (hio ▸ hne.symm)]
            exact Or.inl ⟨hio, hfails⟩
          · cases hlimit
          · by_cases hnext : r.1 = next
            · rw [← herr, if_pos hnext] at hq
              rw [if_neg (not_not.mpr hnext)]
              refine ih ?_ hq (fun _ => hnext)
              rintro it' ⟨⟩
              exact ⟨_, hat'⟩
            · rw [← herr, if_neg hnext] at hq
              rw [if_pos hnext]
              exact Or.inr (Or.inr ⟨hnext, hq⟩)

end Loops

end ErofsUtils
