import ErofsUtils.KiteSound

/-!
# The first byte of a stream

The header of the first block sets one of the first four bits: the type of a block with codes, or
the extra bit of a stored block at the start of the stream. Later bits are only or-ed in.
-/

namespace ErofsUtils

open KiteMatchfinder

/-- The first byte is written, or pending in `inflightbits`, and it is not zero. -/
def KiteSink.Started (s : KiteSink) : Prop :=
  (s.out = [] ∧ 0 < s.bitpos ∧ s.inflightbits % 256 ≠ 0) ∨ ∃ b rest, s.out = b :: rest ∧ b ≠ 0

section Sink

variable {s : KiteSink}

theorem wordBytes_head (n : ℕ) {word : ℕ} (hn : 0 < n) (h : word % 256 ≠ 0) :
    ∃ b rest, wordBytes n word = b :: rest ∧ b ≠ 0 := by
  obtain ⟨n, rfl⟩ := Nat.exists_eq_succ_of_ne_zero (Nat.ne_of_gt hn)
  refine ⟨UInt8.ofNat word, (List.range n).map fun i => UInt8.ofNat (word / 2 ^ (8 * (i + 1))), ?_,
    ?_⟩
  · unfold wordBytes
    rw [List.range_succ_eq_map, List.map_cons, List.map_map, Nat.mul_zero, pow_zero, Nat.div_one]
    rfl
  · intro hz
    apply h
    have := congrArg UInt8.toNat hz
    rwa [UInt8.toNat_ofNat'] at this

/-- Bits that are or-ed in leave the low byte nonzero. -/
theorem or_mod_256_ne_zero {a : ℕ} (b : ℕ) (h : a % 256 ≠ 0) : (a ||| b) % 256 ≠ 0 := by
  have hor : (a ||| b) % 2 ^ 8 = a % 2 ^ 8 ||| b % 2 ^ 8 := Nat.or_mod_two_pow
  intro hz
  exact h (Nat.or_eq_zero_iff.mp (hor.symm.trans hz)).1

theorem writebits_started (h : s.Started) (v bits : ℕ) : (writebits s v bits).Started := by
  obtain ⟨out, w, p⟩ := s
  unfold writebits
  simp only
  generalize (if 32 - p = 0 then 0 else u32 (v <<< p)) = x
  rcases h with ⟨hnil, hpos, hw⟩ | ⟨b, rest, heq, hb⟩
  · change out = [] at hnil
    change 0 < p at hpos
    subst hnil
    have hor := or_mod_256_ne_zero x hw
    split_ifs
    · obtain ⟨b, rest, hbytes, hb⟩ := wordBytes_head 4 (by decide) hor
      exact Or.inr ⟨b, rest, hbytes, hb⟩
    · exact Or.inl ⟨rfl, Nat.add_pos_left hpos bits, hor⟩
  · change out = b :: rest at heq
    subst heq
    split_ifs
    · exact Or.inr ⟨b, _, rfl, hb⟩
    · exact Or.inr ⟨b, rest, rfl, hb⟩

theorem flushbits_head (h : s.Started) : ∃ b rest, (flushbits s).out = b :: rest ∧ b ≠ 0 := by
  obtain ⟨out, w, p⟩ := s
  unfold flushbits
  simp only
  rcases h with ⟨hnil, hpos, hw⟩ | ⟨b, rest, heq, hb⟩
  · change out = [] at hnil
    change 0 < p at hpos
    subst hnil
    rw [if_neg (Nat.ne_of_gt hpos)]
    apply wordBytes_head _ _ hw
    have hle := @le_roundUp p 8 (by decide)
    have hdvd : 8 ∣ roundUp p 8 := ⟨_, Nat.mul_comm _ _⟩
    omega
  · change out = b :: rest at heq
    subst heq
    split_ifs
    · exact ⟨b, rest, rfl, hb⟩
    · exact ⟨b, rest ++ _, rfl, hb⟩

theorem flushbits_started (h : s.Started) : (flushbits s).Started := Or.inr (flushbits_head h)

theorem writebits_first {v bits : ℕ} (hv : v % 256 ≠ 0) (hsmall : v < 2 ^ 32) (hpos : 0 < bits)
    (hbits : bits ≤ 32) : (writebits ⟨[], 0, 0⟩ v bits).Started := by
  have hmask : u32 (v <<< 0) = v := u32_of_lt hsmall
  unfold writebits
  simp only [Nat.sub_zero]
  rw [if_neg (Nat.not_lt.mpr hbits), if_neg (by decide), hmask, Nat.zero_or, Nat.zero_add]
  exact Or.inl ⟨rfl, hpos, hv⟩

theorem foldl_started {α : Type} (l : List α) {f : KiteSink → α → KiteSink}
    (hf : ∀ s a, s.Started → (f s a).Started) (h : s.Started) : (l.foldl f s).Started := by
  induction l generalizing s with
  | nil => exact h
  | cons a l ih => exact ih (hf s a h)

theorem writebitsRepeat_started (v bits n : ℕ) (h : s.Started) :
    (writebitsRepeat v bits n s).Started := by
  induction n generalizing s with
  | zero => exact h
  | succ n ih => exact ih (writebits_started h v bits)

theorem sendtreeLoop_started (blCodes blLens : CArray) (lens : List ℕ) (r : LenRun)
    (h : s.Started) : (sendtreeLoop blCodes blLens lens r s).Started := by
  induction lens generalizing r s with
  | nil => exact h
  | cons curlen rest ih =>
      rw [sendtreeLoop]
      simp only
      split_ifs
      · exact ih _ h
      · exact ih _ (writebitsRepeat_started _ _ _ h)
      all_goals
        apply ih
        repeat apply writebits_started
        exact h

theorem writeSymbol_started (mainCodes litLenLevels distCodes distLevels : CArray)
    (sym : KiteSymbol) (h : s.Started) :
    (writeSymbol mainCodes litLenLevels distCodes distLevels s sym).Started := by
  unfold writeSymbol
  simp only
  split_ifs
  · exact writebits_started h _ _
  · repeat apply writebits_started
    exact h

theorem kiteDeflateWriteblock_started (symbols : List KiteSymbol) (tab : Option KiteDeflateTable)
    (h : s.Started) : (kiteDeflateWriteblock s symbols tab).Started := by
  unfold kiteDeflateWriteblock
  cases tab with
  | none =>
      apply writebits_started
      exact foldl_started _ (fun s sym hs => writeSymbol_started _ _ _ _ sym hs) h
  | some t =>
      apply writebits_started
      exact foldl_started _ (fun s sym hs => writeSymbol_started _ _ _ _ sym hs) h

theorem kiteDeflateSendtrees_started {lastblock : Bool} (t : KiteDeflateTable)
    (h : (writebits s (2 * 2 + lastblock.toNat) 3).Started) :
    (kiteDeflateSendtrees s lastblock t).Started := by
  unfold kiteDeflateSendtrees
  simp only
  apply sendtreeLoop_started
  apply sendtreeLoop_started
  apply foldl_started _ (fun s i hs => writebits_started hs _ _)
  apply writebits_started
  apply writebits_started
  apply writebits_started
  exact h

end Sink

section Store

variable {inp : ℕ → UInt8} {s : KiteSink}

/-- The bytes of a stored block go behind what is written. -/
theorem KiteSink.Started.copy (h : ∃ b rest, s.out = b :: rest ∧ b ≠ 0) (bytes : List UInt8) :
    ({ s with out := s.out ++ bytes } : KiteSink).Started := by
  obtain ⟨b, rest, heq, hb⟩ := h
  exact Or.inr ⟨b, rest ++ bytes, (by simp only [heq]; rfl), hb⟩

theorem storeBytes_started (h : s.Started) (len : ℕ) (bytes : List UInt8) :
    ({ flushbits (writebits (writebits (flushbits s) len 16) (len ^^^ 0xffff) 16) with
      out := (flushbits (writebits (writebits (flushbits s) len 16) (len ^^^ 0xffff) 16)).out ++
        bytes } : KiteSink).Started := by
  apply KiteSink.Started.copy
  apply flushbits_head
  apply writebits_started
  apply writebits_started
  exact flushbits_started h

/-- A stored block whose header starts the stream, or that is behind the start. -/
theorem writestoreLoop_started (fb lastblock : Bool) (fuel startpos totalsiz : ℕ)
    (h : ∀ last : Bool, (writebits s (fb.toNat * 8 + last.toNat) (3 + fb.toNat)).Started) :
    (writestoreLoop inp fb lastblock (fuel + 1) startpos totalsiz s).Started := by
  induction fuel generalizing startpos totalsiz s with
  | zero =>
      unfold writestoreLoop
      simp only
      split_ifs
      · exact storeBytes_started (h _) _ _
      · exact storeBytes_started (h _) _ _
  | succ fuel ih =>
      unfold writestoreLoop
      simp only
      split_ifs
      · exact storeBytes_started (h _) _ _
      · apply ih
        intro last
        exact writebits_started (storeBytes_started (h _) _ _) _ _

end Store

section Block

variable {inp : ℕ → UInt8} {s s' block : KiteDeflate} {mf mf' : KiteMatchfinder}

/-- Nothing is written yet, or the first byte is not zero. -/
def StreamStart (s : KiteDeflate) : Prop :=
  (s.sink = ⟨[], 0, 0⟩ ∧ s.startpos = 0) ∨ s.sink.Started

theorem header_started (h : StreamStart s) {v : ℕ} (hv : v % 256 ≠ 0) (hsmall : v < 2 ^ 32) :
    (writebits s.sink v 3).Started := by
  rcases h with ⟨hsink, -⟩ | h
  · rw [hsink]
    exact writebits_first hv hsmall (by decide) (by decide)
  · exact writebits_started h v 3

theorem kiteDeflateCommitblock_started (h : StreamStart s) :
    (kiteDeflateCommitblock inp s).1.sink.Started := by
  unfold kiteDeflateCommitblock
  simp only
  cases s.encodeMode with
  | fixedHuffman =>
      apply kiteDeflateWriteblock_started
      unfold kiteDeflateSetfixedtrees
      cases s.lastblock with
      | true => exact header_started h (by decide) (by decide)
      | false => exact header_started h (by decide) (by decide)
  | dynamicHuffman =>
      apply kiteDeflateWriteblock_started
      apply kiteDeflateSendtrees_started
      cases s.lastblock with
      | true => exact header_started h (by decide) (by decide)
      | false => exact header_started h (by decide) (by decide)
  | stored =>
      apply writestoreLoop_started
      intro last
      rcases h with ⟨hsink, hstart⟩ | h
      · rw [hsink, hstart]
        cases last with
        | true => exact writebits_first (by decide) (by decide) (by decide) (by decide)
        | false => exact writebits_first (by decide) (by decide) (by decide) (by decide)
      · exact writebits_started h _ _

variable {lazySearch : Bool} {turns : ℕ} {P Start : KiteDeflate → KiteMatchfinder → Prop}

/-- The blocks of a run write a stream that starts with a byte other than zero. -/
theorem kiteDeflateBlocks_started
    (hblock : ∀ s mf, Start s mf → ∃ block mf' lost,
      kiteDeflateBlock inp lazySearch turns (s, mf) = some (block, mf') ∧
      BlockDone inp P lost s block mf')
    (hnext : ∀ s mf block mf' lost, Start s mf → BlockDone inp P lost s block mf' →
      block.lastblock = false → Start (kiteDeflateCommitblock inp block).1 mf')
    {fuel : ℕ} {blocks : List KiteDeflate} (hstart : Start s mf) (h : StreamStart s)
    (hrun : kiteDeflateBlocks inp lazySearch turns fuel (s, mf) = some (blocks, s', mf')) :
    s'.sink.Started := by
  induction fuel generalizing s mf blocks with
  | zero => cases hrun
  | succ fuel ih =>
      obtain ⟨block, mf₁, lost, heq, hd⟩ := hblock s mf hstart
      have hcommit : (kiteDeflateCommitblock inp block).1.sink.Started := by
        apply kiteDeflateCommitblock_started
        unfold StreamStart
        rw [hd.sink, hd.startpos]
        exact h
      unfold kiteDeflateBlock at heq
      rw [kiteDeflateBlocks] at hrun
      simp only [heq] at hrun
      cases hlast : block.lastblock with
      | true =>
          rw [if_pos (show (kiteDeflateCommitblock inp block).2 = true from hlast)] at hrun
          obtain ⟨-, hrest⟩ := Prod.mk.inj (Option.some.inj hrun)
          obtain ⟨rfl, -⟩ := Prod.mk.inj hrest
          exact hcommit
      | false =>
          rw [if_neg (by rw [show (kiteDeflateCommitblock inp block).2 = false from hlast]; decide)]
            at hrun
          cases hmore : kiteDeflateBlocks inp lazySearch turns fuel
              ((kiteDeflateCommitblock inp block).1, mf₁) with
          | none =>
              rw [hmore] at hrun
              cases hrun
          | some r =>
              obtain ⟨rest, s₁, mf₂⟩ := r
              rw [hmore] at hrun
              obtain ⟨-, hrest⟩ := Prod.mk.inj (Option.some.inj hrun)
              obtain ⟨rfl, rfl⟩ := Prod.mk.inj hrest
              exact ih (hnext s mf block mf₁ lost hstart hd hlast) (Or.inr hcommit) hmore

end Block

/-- A call of `kite_deflate_destsize` returns a stream whose first byte is not zero. -/
theorem kiteDeflateDestsize_firstByte {level : ℕ} {lazySearch : Bool} {s : KiteDeflate}
    {mf : KiteMatchfinder} (hreach : KiteReach level lazySearch s mf) (inp : ℕ → UInt8)
    {srcsize : ℕ} (hsrc : srcsize ≤ maxInput) (targetDstsize : ℕ) :
    ∃ r, kiteDeflateDestsize inp lazySearch s mf srcsize targetDstsize = some r ∧
      ∃ b rest, r.out = b :: rest ∧ b ≠ 0 := by
  have hready := hreach.ready
  have hzero : StreamStart (s.reset srcsize targetDstsize) := Or.inl ⟨rfl, rfl⟩
  obtain ⟨r, hr⟩ : ∃ r, kiteDeflateDestsize inp lazySearch s mf srcsize targetDstsize = some r := by
    cases lazySearch with
    | false =>
        obtain ⟨r, -, heq, -⟩ := @kiteDeflateDestsize_fast inp mf hready s srcsize hsrc targetDstsize
        exact ⟨r, heq⟩
    | true =>
        obtain ⟨r, -, -, heq, -⟩ :=
          @kiteDeflateDestsize_slow inp mf hready s srcsize hsrc targetDstsize
        exact ⟨r, heq⟩
  refine ⟨r, hr, ?_⟩
  unfold kiteDeflateDestsize at hr
  cases hblocks : kiteDeflateBlocks inp lazySearch (srcsize + 1) (srcsize + 1)
      (s.reset srcsize targetDstsize, kiteMfReset mf) with
  | none =>
      rw [hblocks] at hr
      cases hr
  | some x =>
      obtain ⟨blocks, s', mf'⟩ := x
      rw [hblocks] at hr
      obtain rfl := Option.some.inj hr
      apply flushbits_head
      cases lazySearch with
      | false =>
          exact kiteDeflateBlocks_started
            (fun s mf h => by
              obtain ⟨block, mf', heq, hd⟩ := FastStart.block h
              exact ⟨block, mf', 0, heq, hd⟩)
            (fun _ _ _ _ _ h hd hlast => FastStart.next h hd hlast)
            (fastStart_reset hready hsrc) hzero hblocks
      | true =>
          exact kiteDeflateBlocks_started
            (fun s mf h => by
              obtain ⟨block, mf', lost, heq, hd, -⟩ := SlowStart.block h
              exact ⟨block, mf', lost, heq, hd⟩)
            (fun _ _ _ _ _ h hd hlast => SlowStart.next h hd hlast)
            (slowStart_reset hready hsrc) hzero hblocks

end ErofsUtils
