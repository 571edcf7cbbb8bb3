import ErofsUtils.CompactWriter

/-!
# What the converted packs hold

Every pack the converter writes shows the type and the offset of each of its entries, and a
block address that depends on the entries in front of it only through the running address
and the pending head. The statements are about any sequence `cvAt` of entries; the legacy
indexes of a file are one.
-/

namespace ErofsUtils
open ByteMemory BitPacking

/-- The two pack shapes: bytes for each slot, slots, bits for each slot, offset bits. -/
inductive PackShape (lclusterbits : ℕ) : ℕ → ℕ → ℕ → Prop
  | four : lclusterbits ≤ 14 → PackShape lclusterbits 4 2 16
  | two : lclusterbits ≤ 12 → PackShape lclusterbits 2 16 14

/-- A pack at `base` shows `field i` in slot `i`, and the block address `addr`. -/
structure PackHolds (mem : Mem) (lobits destsize vcnt encodebits base : ℕ)
    (field : ℕ → ℕ × LclusterType) (addr : ℕ) : Prop where
  fields : ∀ i < vcnt, decodeCompactedbits mem lobits base (encodebits * i) = field i
  addr_eq : leNat mem (base + destsize * vcnt - 4) 4 = addr

/-- An entry whose offset fits the offset bits of a pack. -/
structure CompressindexVec.Fits (cv : CompressindexVec) (lclusterbits : ℕ) : Prop where
  delta0_lt : cv.clustertype = .nonhead → cv.delta0 < 2 ^ 12
  clusterofs_lt : cv.clustertype ≠ .nonhead → cv.clusterofs < 2 ^ lclusterbits

/-- What a reader finds in slot `i` for an entry. -/
def CompressindexVec.field (cv : CompressindexVec) (lobits vcnt i : ℕ) : ℕ × LclusterType :=
  (cv.offset lobits vcnt i, cv.clustertype)

section Field

variable {lclusterbits destsize vcnt encodebits : ℕ} {cv : CompressindexVec}

theorem CompressindexVec.Fits.offset_lt (hf : cv.Fits lclusterbits) (vcnt i : ℕ) :
    cv.offset (compactedLobits lclusterbits) vcnt i < 2 ^ compactedLobits lclusterbits := by
  have h12 : 2 ^ 12 ≤ 2 ^ compactedLobits lclusterbits :=
    Nat.pow_le_pow_right (by decide) (Nat.le_max_right _ _)
  have hl : 2 ^ lclusterbits ≤ 2 ^ compactedLobits lclusterbits :=
    Nat.pow_le_pow_right (by decide) (Nat.le_max_left _ _)
  unfold offset
  split_ifs with ht
  · have := hf.delta0_lt ht
    omega
  · omega
  · have := hf.delta0_lt ht
    omega
  · have := hf.clusterofs_lt ht
    omega

theorem CompressindexVec.Fits.bits_eq (hf : cv.Fits lclusterbits) (vcnt i : ℕ) :
    cv.bits (compactedLobits lclusterbits) vcnt i =
      2 ^ compactedLobits lclusterbits * cv.clustertype.toNat +
        cv.offset (compactedLobits lclusterbits) vcnt i := by
  rw [Nat.two_pow_add_eq_or_of_lt (hf.offset_lt vcnt i), bits, Nat.mul_comm]

theorem PackShape.lobits_le (hs : PackShape lclusterbits destsize vcnt encodebits) :
    compactedLobits lclusterbits + 2 ≤ encodebits := by
  unfold compactedLobits
  cases hs <;> omega

theorem PackShape.bits_le (hs : PackShape lclusterbits destsize vcnt encodebits) (i : ℕ) :
    encodebits * i % 8 + encodebits ≤ 24 := by
  cases hs <;> omega

theorem PackShape.byte_le (hs : PackShape lclusterbits destsize vcnt encodebits) {i : ℕ}
    (hi : i < vcnt) : encodebits * i / 8 + 4 ≤ destsize * vcnt := by
  cases hs <;> omega

theorem PackShape.encodebits_mul (hs : PackShape lclusterbits destsize vcnt encodebits) :
    encodebits * vcnt = 8 * (destsize * vcnt - 4) := by
  cases hs <;> rfl

theorem PackShape.encodebits_eq (hs : PackShape lclusterbits destsize vcnt encodebits) :
    (vcnt * destsize * 8 - 32) / vcnt = encodebits := by
  cases hs <;> rfl

theorem PackShape.packVcnt_eq (hs : PackShape lclusterbits destsize vcnt encodebits) :
    packVcnt destsize lclusterbits = some vcnt := by
  cases hs with
  | four h => rfl
  | two h => simp [packVcnt, h]

theorem PackShape.four_le (hs : PackShape lclusterbits destsize vcnt encodebits) :
    4 ≤ destsize * vcnt ∧ destsize * vcnt ≤ 8 * vcnt := by
  cases hs <;> decide

theorem decodeCompactedbits_of_bits (hs : PackShape lclusterbits destsize vcnt encodebits)
    (hf : cv.Fits lclusterbits) {mem : Mem} {base i : ℕ}
    (hbits : ∀ t < encodebits, memBit mem base (encodebits * i + t) =
      (cv.bits (compactedLobits lclusterbits) vcnt i).testBit t) :
    decodeCompactedbits mem (compactedLobits lclusterbits) base (encodebits * i) =
      cv.field (compactedLobits lclusterbits) vcnt i := by
  have hlob := hs.lobits_le
  have hle := hs.bits_le i
  have hoff := hf.offset_lt vcnt i
  have hfield := bitField_eq (w := compactedLobits lclusterbits + 2) (by omega)
    (fun j hj => hbits j (by omega))
  have htype : cv.clustertype.toNat < 4 := LclusterType.toNat_lt _
  rw [hf.bits_eq, pow_add, Nat.mod_eq_of_lt (by
    have : 2 ^ compactedLobits lclusterbits * (cv.clustertype.toNat + 1) ≤
        2 ^ compactedLobits lclusterbits * 4 := Nat.mul_le_mul_left _ (by omega)
    rw [Nat.mul_succ] at this
    omega)] at hfield
  have hlo : leNat mem (base + encodebits * i / 8) 4 / 2 ^ (encodebits * i % 8) %
      2 ^ compactedLobits lclusterbits =
        cv.offset (compactedLobits lclusterbits) vcnt i := by
    rw [bitField, pow_add] at hfield
    rw [← Nat.mod_mul_right_mod _ _ (2 ^ 2), hfield, Nat.mul_add_mod, Nat.mod_eq_of_lt hoff]
  have hhi : leNat mem (base + encodebits * i / 8) 4 / 2 ^ (encodebits * i % 8) /
      2 ^ compactedLobits lclusterbits % 4 = cv.clustertype.toNat := by
    rw [bitField, pow_add] at hfield
    have hmod := Nat.mod_mul_right_div_self
      (leNat mem (base + encodebits * i / 8) 4 / 2 ^ (encodebits * i % 8))
      (2 ^ compactedLobits lclusterbits) (2 ^ 2)
    rw [hfield, Nat.mul_add_div (Nat.two_pow_pos _), Nat.div_eq_of_lt hoff] at hmod
    exact hmod.symm
  unfold decodeCompactedbits CompressindexVec.field
  simp only [hlo, Prod.mk.injEq, true_and]
  rw [← LclusterType.ofBits_toNat cv.clustertype, ← hhi]
  simp [LclusterType.ofBits]

end Field

section Pack

variable {lclusterbits destsize vcnt encodebits : ℕ}

/-- The loop of one pack: the address state is folded over the entries, each entry is in
its slot, and no byte outside the pack changes. -/
theorem writeCompactedLoop_spec (hs : PackShape lclusterbits destsize vcnt encodebits)
    (lobits out : ℕ) (cvs : List CompressindexVec) {i : ℕ} (hi : i + cvs.length ≤ vcnt)
    (mem : Mem) (s : AddrState) :
    (writeCompactedLoop lobits vcnt encodebits out i cvs mem s).2 =
        cvs.foldl AddrState.step s ∧
    (∀ k < encodebits * i,
      memBit (writeCompactedLoop lobits vcnt encodebits out i cvs mem s).1 out k =
        memBit mem out k) ∧
    (∀ j cv, cvs[j]? = some cv → ∀ t < encodebits,
      memBit (writeCompactedLoop lobits vcnt encodebits out i cvs mem s).1 out
        (encodebits * (i + j) + t) = (cv.bits lobits vcnt (i + j)).testBit t) ∧
    ∀ k, k < out ∨ out + destsize * vcnt ≤ k →
      (writeCompactedLoop lobits vcnt encodebits out i cvs mem s).1 k = mem k := by
  induction cvs generalizing i mem s with
  | nil => exact ⟨rfl, fun _ _ => rfl, by simp, fun _ _ => rfl⟩
  | cons cv cvs ih =>
      rw [List.length_cons] at hi
      obtain ⟨hstate, hbelow, hfields, hframe⟩ := ih (i := i + 1) (by omega)
        (putBits mem out (encodebits * i) (cv.bits lobits vcnt i)) (s.step cv)
      have hbits := hs.bits_le i
      have hbyte := hs.byte_le (i := i) (by omega)
      simp only [writeCompactedLoop]
      refine ⟨hstate, ?_, ?_, ?_⟩
      · intro k hk
        have hk' : k < encodebits * (i + 1) := by
          rw [Nat.mul_succ]
          omega
        rw [hbelow k hk', memBit_putBits_of_lt _ _ _ _ hk]
      · intro j cv' hj t ht
        cases j with
        | zero =>
            obtain rfl : cv = cv' := by simpa using hj
            have hk' : encodebits * i + t < encodebits * (i + 1) := by
              rw [Nat.mul_succ]
              omega
            rw [Nat.add_zero i, hbelow _ hk', memBit_putBits _ _ _ _ (by omega)]
        | succ j =>
            have := hfields j cv' (by simpa using hj) t ht
            rwa [Nat.add_right_comm, Nat.add_assoc i] at this
      · intro k hk
        rw [hframe k hk]
        rcases hk with hk | hk
        · exact putBits_of_lt _ _ _ _ (by omega)
        · exact putBits_of_ge _ _ _ _ (by omega)

/-- The block address of a pack whose entries are `cvs`, behind the state `c`. -/
def packAddr (big : Bool) (c : ℕ × Bool) (cvs : List CompressindexVec) : ℕ :=
  (cvs.foldl AddrState.step ⟨c.1, c.1, c.2, big⟩).blkaddrRet

/-- The running address and the pending head, which is all a pack hands on to the next. -/
def carryStep (c : ℕ × Bool) (cv : CompressindexVec) : ℕ × Bool :=
  (((⟨c.1, c.1, c.2, false⟩ : AddrState).step cv).blkaddr,
    ((⟨c.1, c.1, c.2, false⟩ : AddrState).step cv).dummyHead)

theorem AddrState.step_carry (s : AddrState) (cv : CompressindexVec) :
    ((s.step cv).blkaddr, (s.step cv).dummyHead) = carryStep (s.blkaddr, s.dummyHead) cv := by
  unfold carryStep AddrState.step
  cases hd : s.dummyHead <;> simp only <;> split_ifs <;> simp_all

theorem AddrState.foldl_carry (cvs : List CompressindexVec) (s : AddrState) :
    ((cvs.foldl AddrState.step s).blkaddr, (cvs.foldl AddrState.step s).dummyHead) =
      cvs.foldl carryStep (s.blkaddr, s.dummyHead) := by
  induction cvs generalizing s with
  | nil => rfl
  | cons cv cvs ih => rw [List.foldl_cons, List.foldl_cons, ih, s.step_carry]

theorem AddrState.step_blkaddrRet_lt {s : AddrState} (h : s.blkaddrRet < 2 ^ 32)
    (cv : CompressindexVec) : (s.step cv).blkaddrRet < 2 ^ 32 := by
  unfold AddrState.step
  simp only
  split_ifs <;> first | exact u32_lt _ | exact h

theorem packAddr_lt {big : Bool} {c : ℕ × Bool} (h : c.1 < 2 ^ 32)
    (cvs : List CompressindexVec) : packAddr big c cvs < 2 ^ 32 := by
  unfold packAddr
  have hs : (⟨c.1, c.1, c.2, big⟩ : AddrState).blkaddrRet < 2 ^ 32 := h
  generalize (⟨c.1, c.1, c.2, big⟩ : AddrState) = s at hs
  induction cvs generalizing s with
  | nil => exact hs
  | cons cv cvs ih => exact ih _ (AddrState.step_blkaddrRet_lt hs cv)

theorem PackHolds.congr (hs : PackShape lclusterbits destsize vcnt encodebits)
    {mem mem' : Mem} {lobits base base' addr : ℕ} {field : ℕ → ℕ × LclusterType}
    (h : ∀ k < destsize * vcnt, mem' (base' + k) = mem (base + k))
    (hp : PackHolds mem lobits destsize vcnt encodebits base field addr) :
    PackHolds mem' lobits destsize vcnt encodebits base' field addr := by
  have h4 := hs.four_le.1
  refine ⟨?_, ?_⟩
  · intro i hi
    have hbyte := hs.byte_le hi
    rw [← hp.fields i hi]
    unfold decodeCompactedbits
    have hread : leNat mem' (base' + encodebits * i / 8) 4 =
        leNat mem (base + encodebits * i / 8) 4 := by
      apply leNat_congr
      intro k hk
      rw [Nat.add_assoc, Nat.add_assoc]
      exact h _ (by omega)
    rw [hread]
  · rw [← hp.addr_eq]
    apply leNat_congr
    intro k hk
    have hb (n : ℕ) : n + destsize * vcnt - 4 + k = n + (destsize * vcnt - 4 + k) := by omega
    rw [hb, hb]
    exact h _ (by omega)

/-- The entries `cvAt k`, .., `cvAt (k + n - 1)`. -/
def cvSlice (cvAt : ℕ → CompressindexVec) (k n : ℕ) : List CompressindexVec :=
  (List.range n).map fun i => cvAt (k + i)

def carryAt (cvAt : ℕ → CompressindexVec) (c : ℕ × Bool) : ℕ → ℕ × Bool
  | 0 => c
  | k + 1 => carryStep (carryAt cvAt c k) (cvAt k)

theorem foldl_cvSlice (cvAt : ℕ → CompressindexVec) (c : ℕ × Bool) (k n : ℕ) :
    (cvSlice cvAt k n).foldl carryStep (carryAt cvAt c k) = carryAt cvAt c (k + n) := by
  induction n with
  | zero => rfl
  | succ n ih =>
      rw [cvSlice, List.range_succ, List.map_append, List.foldl_append]
      change List.foldl carryStep (List.foldl carryStep _ (cvSlice cvAt k n)) _ = _
      rw [ih]
      rfl

theorem carryStep_lt {c : ℕ × Bool} (h : c.1 < 2 ^ 32) (cv : CompressindexVec) :
    (carryStep c cv).1 < 2 ^ 32 := by
  unfold carryStep AddrState.step
  simp only
  split_ifs <;> first | exact u32_lt _ | exact h

theorem carryAt_lt (cvAt : ℕ → CompressindexVec) {c : ℕ × Bool} (h : c.1 < 2 ^ 32) (k : ℕ) :
    (carryAt cvAt c k).1 < 2 ^ 32 := by
  induction k with
  | zero => exact h
  | succ k ih => exact carryStep_lt ih _

/-- The pack with the entries from `k` on, at `base`. -/
def PackAt (cvAt : ℕ → CompressindexVec) (c : ℕ × Bool) (big : Bool)
    (lclusterbits destsize vcnt encodebits : ℕ) (mem : Mem) (k base : ℕ) : Prop :=
  PackHolds mem (compactedLobits lclusterbits) destsize vcnt encodebits base
    (fun i => (cvAt (k + i)).field (compactedLobits lclusterbits) vcnt i)
    (packAddr big (carryAt cvAt c k) (cvSlice cvAt k vcnt))

variable {cvAt : ℕ → CompressindexVec} {c : ℕ × Bool} {big : Bool}

theorem writeCompactedIndexes_spec (big : Bool)
    (hs : PackShape lclusterbits destsize vcnt encodebits)
    (hf : ∀ j, (cvAt j).Fits lclusterbits) (hc : c.1 < 2 ^ 32) {s : ConvertState} {k : ℕ}
    (hk : (s.blkaddr, s.dummyHead) = carryAt cvAt c k) :
    ∃ s', writeCompactedIndexes s (cvSlice cvAt k vcnt) destsize lclusterbits big = .ok s' ∧
      s'.inp = s.inp ∧ s'.out = s.out + destsize * vcnt ∧
      (s'.blkaddr, s'.dummyHead) = carryAt cvAt c (k + vcnt) ∧
      (∀ a, a < s.out ∨ s'.out ≤ a → s'.mem a = s.mem a) ∧
      PackAt cvAt c big lclusterbits destsize vcnt encodebits s'.mem k s.out := by
  have h4 := hs.four_le.1
  have hmul := hs.encodebits_mul
  obtain ⟨hstate, -, hfields, hframe⟩ := writeCompactedLoop_spec hs
    (compactedLobits lclusterbits) s.out (cvSlice cvAt k vcnt) (i := 0) (by simp [cvSlice])
    s.mem ⟨s.blkaddr, s.blkaddr, s.dummyHead, big⟩
  unfold writeCompactedIndexes
  rw [hs.packVcnt_eq]
  simp only [hs.encodebits_eq]
  generalize writeCompactedLoop (compactedLobits lclusterbits) vcnt encodebits s.out 0
    (cvSlice cvAt k vcnt) s.mem ⟨s.blkaddr, s.blkaddr, s.dummyHead, big⟩ = r
    at hstate hfields hframe ⊢
  have haddr : r.2.blkaddrRet = packAddr big (carryAt cvAt c k) (cvSlice cvAt k vcnt) := by
    rw [hstate, packAddr, ← hk]
  refine ⟨_, rfl, rfl, rfl, ?_, ?_, ?_, ?_⟩
  · have hfold := AddrState.foldl_carry (cvSlice cvAt k vcnt)
      ⟨s.blkaddr, s.blkaddr, s.dummyHead, big⟩
    rw [hk, foldl_cvSlice] at hfold
    simp only [hstate, hfold]
  · intro a ha
    have ha' : a < s.out ∨ s.out + destsize * vcnt ≤ a := ha
    rw [← hframe a ha']
    rcases ha' with ha' | ha'
    · exact store_of_lt _ (by omega)
    · exact store_of_ge _ (by
        rw [length_leBytes]
        omega)
  · intro i hi
    apply decodeCompactedbits_of_bits hs (hf _)
    intro t ht
    have hget : (cvSlice cvAt k vcnt)[i]? = some (cvAt (k + i)) := by
      rw [cvSlice, List.getElem?_map, List.getElem?_range hi]
      rfl
    have hbit := hfields i _ hget t ht
    rw [Nat.zero_add] at hbit
    rw [← hbit]
    apply memBit_congr
    -- the fields end where the block address starts
    apply store_of_lt
    have hlt : encodebits * i + encodebits ≤ encodebits * vcnt := by
      rw [← Nat.mul_succ]
      exact Nat.mul_le_mul_left _ hi
    omega
  · rw [← haddr]
    apply leNat_of_holds_of_lt (holds_store _ _ _)
    rw [haddr]
    exact packAddr_lt (carryAt_lt cvAt hc k) _

theorem parseLegacyIndexes_eq {mem : Mem} {inp nr k : ℕ}
    (h : ∀ j < nr, .ofIndex (LclusterIndex.decode mem (inp + 8 * j)) = cvAt (k + j)) :
    parseLegacyIndexes mem inp nr = cvSlice cvAt k nr := by
  unfold parseLegacyIndexes cvSlice
  apply List.map_congr_left
  intro j hj
  exact h j (List.mem_range.mp hj)

theorem LclusterIndex.decode_congr {mem mem' : Mem} {pos : ℕ}
    (h : ∀ a, pos ≤ a → mem' a = mem a) :
    LclusterIndex.decode mem' pos = LclusterIndex.decode mem pos := by
  have hle (p w : ℕ) (hp : pos ≤ p) : leNat mem' p w = leNat mem p w :=
    leNat_congr fun k _ => h _ (by omega)
  unfold LclusterIndex.decode
  rw [hle _ _ le_rfl, hle _ _ (by omega), hle _ _ (by omega)]

theorem convertPacks_spec (hs : PackShape lclusterbits destsize vcnt encodebits)
    (hf : ∀ j, (cvAt j).Fits lclusterbits) (hc : c.1 < 2 ^ 32) (n : ℕ) {s : ConvertState}
    {k : ℕ} (hk : (s.blkaddr, s.dummyHead) = carryAt cvAt c k) (hle : s.out ≤ s.inp)
    (hin : ∀ j < vcnt * n,
      .ofIndex (LclusterIndex.decode s.mem (s.inp + 8 * j)) = cvAt (k + j)) :
    ∃ s', convertPacks destsize vcnt lclusterbits big n s = .ok s' ∧
      s'.inp = s.inp + 8 * (vcnt * n) ∧ s'.out = s.out + destsize * vcnt * n ∧
      (s'.blkaddr, s'.dummyHead) = carryAt cvAt c (k + vcnt * n) ∧
      (∀ a, a < s.out ∨ s'.out ≤ a → s'.mem a = s.mem a) ∧
      ∀ p < n, PackAt cvAt c big lclusterbits destsize vcnt encodebits s'.mem (k + vcnt * p)
        (s.out + destsize * vcnt * p) := by
  induction n generalizing s k with
  | zero => exact ⟨s, rfl, rfl, rfl, hk, fun _ _ => rfl, fun p hp => absurd hp (by omega)⟩
  | succ n ih =>
      rw [Nat.mul_succ] at hin
      obtain ⟨s₁, hw, hinp, hout, hcarry, hframe, hpack⟩ := writeCompactedIndexes_spec
        big hs hf hc (s := { s with inp := s.inp + 8 * vcnt }) hk
      have hparse : parseLegacyIndexes s.mem s.inp vcnt = cvSlice cvAt k vcnt :=
        parseLegacyIndexes_eq (fun j hj => hin j (by omega))
      have h8 := hs.four_le.2
      have hinp' : s₁.inp = s.inp + 8 * vcnt := hinp
      have hout' : s₁.out = s.out + destsize * vcnt := hout
      obtain ⟨s', hconv, hinp₂, hout₂, hcarry₂, hframe₂, hpacks⟩ := ih hcarry (by omega) (by
        intro j hj
        have hdec : LclusterIndex.decode s₁.mem (s₁.inp + 8 * j) =
            LclusterIndex.decode s.mem (s.inp + 8 * (vcnt + j)) := by
          rw [hinp', Nat.mul_add, ← Nat.add_assoc]
          exact LclusterIndex.decode_congr fun a ha => hframe a (Or.inr (by omega))
        rw [hdec, hin (vcnt + j) (by omega), Nat.add_assoc])
      refine ⟨s', ?_, ?_, ?_, ?_, ?_, ?_⟩
      · simp only [convertPacks, hparse, hw, hconv]
      · rw [hinp₂, hinp', Nat.mul_succ]
        omega
      · rw [hout₂, hout', Nat.mul_succ]
        omega
      · rw [hcarry₂, Nat.mul_succ, Nat.add_assoc, Nat.add_comm vcnt]
      · intro a ha
        have ha₂ : a < s₁.out ∨ s'.out ≤ a := by omega
        have ha₁ : a < s.out ∨ s₁.out ≤ a := by omega
        rw [hframe₂ a ha₂]
        exact hframe a ha₁
      · intro p hp
        cases p with
        | zero =>
            rw [Nat.mul_zero, Nat.mul_zero, Nat.add_zero, Nat.add_zero]
            exact hpack.congr hs fun i hi => hframe₂ _ (Or.inl (by omega))
        | succ p =>
            have := hpacks p (by omega)
            rw [hout'] at this
            rwa [Nat.mul_succ, Nat.mul_succ, Nat.add_comm (vcnt * p),
              Nat.add_comm (destsize * vcnt * p), ← Nat.add_assoc, ← Nat.add_assoc]

end Pack

end ErofsUtils
