import ErofsUtils.KiteTally

/-!
# What the first symbol of a stream costs

A block of one literal takes 18 or 19 bits with the fixed codes and more than 16 bits with codes of
its own, so that it fits exactly if the output has at least three bytes.
-/

namespace ErofsUtils

def totalFreqs (freqs : ℕ → ℕ) (num : ℕ) : ℕ := ((List.range num).map freqs).sum

theorem totalFreqs_succ (freqs : ℕ → ℕ) (num : ℕ) :
    totalFreqs freqs (num + 1) = totalFreqs freqs num + freqs num := by
  unfold totalFreqs
  rw [List.range_succ, List.map_append, List.sum_append]
  simp

theorem totalFreqs_setAt_le (freqs : CArray) (i k num : ℕ) :
    totalFreqs (setAt freqs i (freqs i + k)) num ≤ totalFreqs freqs num + k ∧
      (num ≤ i → totalFreqs (setAt freqs i (freqs i + k)) num = totalFreqs freqs num) := by
  induction num with
  | zero => exact ⟨Nat.zero_le _, fun _ => rfl⟩
  | succ num ih =>
      obtain ⟨hle, heq⟩ := ih
      rw [totalFreqs_succ, totalFreqs_succ]
      rcases Nat.lt_trichotomy num i with hlt | rfl | hgt
      · rw [setAt_of_ne freqs _ (by omega), heq (by omega)]
        exact ⟨by omega, fun _ => rfl⟩
      · rw [setAt_self, heq le_rfl]
        exact ⟨by omega, by omega⟩
      · rw [setAt_of_ne freqs _ (by omega)]
        exact ⟨by omega, by omega⟩

theorem totalFreqs_shift_le (freqs : ℕ → ℕ) (base num : ℕ) :
    totalFreqs (fun i => freqs (base + i)) num ≤ totalFreqs freqs (base + num) := by
  induction num with
  | zero => exact Nat.zero_le _
  | succ num ih =>
      rw [totalFreqs_succ, ← Nat.add_assoc, totalFreqs_succ]
      omega

section Price

variable {freqs lens extraBits : ℕ → ℕ}

theorem huffmanGetPrice_le (hlens : ∀ i, lens i ≤ 255) (num : ℕ) :
    huffmanGetPrice freqs lens num ≤ 255 * totalFreqs freqs num := by
  refine (Nat.mod_le _ _).trans ?_
  induction num with
  | zero => exact Nat.zero_le _
  | succ num ih =>
      have := Nat.mul_le_mul_right (freqs num) (hlens num)
      rw [List.range_succ, List.map_append, List.sum_append, totalFreqs_succ, Nat.mul_add]
      simp only [List.map_cons, List.map_nil, List.sum_cons, List.sum_nil]
      omega

theorem huffmanGetPriceEx_le (hlens : ∀ i, lens i ≤ 255) (hextra : ∀ i, extraBits i ≤ 255)
    {num extraBase : ℕ} (hbase : extraBase ≤ num) :
    huffmanGetPriceEx freqs lens num extraBits extraBase ≤ 510 * totalFreqs freqs num := by
  have hmain := @huffmanGetPrice_le freqs lens hlens num
  have hext := @huffmanGetPrice_le (fun i => freqs (extraBase + i)) extraBits hextra
    (num - extraBase)
  have hshift := totalFreqs_shift_le freqs extraBase (num - extraBase)
  rw [Nat.add_sub_cancel' hbase] at hshift
  refine (Nat.mod_le _ _).trans ?_
  omega

end Price

section Lens

theorem huffmanAssignRun_lens_le (p : CArray) (len : ℕ) {lens : CArray} (h : ∀ i, lens i ≤ 255)
    (k i j : ℕ) : (huffmanAssignRun p len k i lens).2 j ≤ 255 := by
  induction k generalizing i lens with
  | zero => exact h j
  | succ k ih =>
      refine ih ?_ (i + 1)
      intro x
      rw [setAt_apply]
      split_ifs
      · omega
      · exact h x

theorem huffmanAssign_lens_le (p lenCounters : CArray) {lens : CArray} (h : ∀ i, lens i ≤ 255)
    (len i j : ℕ) : huffmanAssign p lenCounters len i lens j ≤ 255 := by
  induction len generalizing i lens with
  | zero => exact h j
  | succ len ih => exact ih (huffmanAssignRun_lens_le p (len + 1) h _ i) _

/-- The lengths stay values of type `u8`. -/
theorem huffmanGenerate_lens_le (freqs p : CArray) {lens : CArray} (h : ∀ i, lens i ≤ 255)
    (numSymbols maxLen j : ℕ) : (huffmanGenerate freqs p lens numSymbols maxLen).2 j ≤ 255 := by
  have hclear : ∀ i, (if i < numSymbols ∧ freqs i = 0 then 0 else lens i) ≤ 255 := by
    intro i
    split_ifs
    · omega
    · exact h i
  unfold huffmanGenerate
  simp only
  split_ifs
  all_goals first
    | exact huffmanAssign_lens_le _ _ hclear _ _ _
    | (simp only [setAt_apply]
       have := hclear j
       split_ifs at this ⊢ <;> omega)

end Lens

theorem LenRun.next_count (curlen : ℕ) (nextlen : Option ℕ) :
    (LenRun.next curlen nextlen).count = 0 := by
  unfold LenRun.next
  split_ifs <;> rfl

/-- A tree of `n` lengths takes at most `2 n` symbols. -/
theorem totalFreqs_scanlensLoop_le (lens : List ℕ) (r : LenRun) (freqs : CArray) (num : ℕ) :
    totalFreqs (scanlensLoop lens r freqs) num ≤
      totalFreqs freqs num + r.count + 2 * lens.length := by
  induction lens generalizing r freqs with
  | nil =>
      rw [scanlensLoop]
      omega
  | cons curlen rest ih =>
      rw [scanlensLoop]
      simp only [List.length_cons]
      split_ifs
      · refine (ih _ _).trans ?_
        simp only
        omega
      · refine (ih _ _).trans ?_
        have := (totalFreqs_setAt_le freqs curlen (r.count + 1) num).1
        rw [LenRun.next_count]
        omega
      · refine (ih _ _).trans ?_
        have h₁ := (totalFreqs_setAt_le freqs curlen 1 num).1
        have h₂ := (totalFreqs_setAt_le (setAt freqs curlen (freqs curlen + 1))
          kBitLensRepNumber_3_6 1 num).1
        rw [LenRun.next_count]
        omega
      all_goals
        refine (ih _ _).trans ?_
        have h₁ := (totalFreqs_setAt_le freqs kBitLensRepNumber_3_6 1 num).1
        have h₂ := (totalFreqs_setAt_le freqs kBitLens0Number_3_10 1 num).1
        have h₃ := (totalFreqs_setAt_le freqs kBitLens0Number_11_138 1 num).1
        rw [LenRun.next_count]
        omega

theorem totalFreqs_kiteDeflateScanlens_le (lens : List ℕ) (freqs : CArray) (num : ℕ) :
    totalFreqs (kiteDeflateScanlens lens freqs) num ≤ totalFreqs freqs num + 2 * lens.length := by
  refine (totalFreqs_scanlensLoop_le lens _ freqs num).trans ?_
  have : (LenRun.start (lens.headD 0)).count = 0 := by
    unfold LenRun.start
    split_ifs <;> rfl
  omega

theorem trimLens_le (min : ℕ) (lens : ℕ → ℕ) (n : ℕ) : trimLens min lens n ≤ n := by
  induction n with
  | zero => exact le_rfl
  | succ n ih =>
      rw [trimLens]
      split_ifs
      · exact ih.trans (Nat.le_succ n)
      · exact le_rfl

/-- The arrays of lengths of a table hold values of type `u8`. -/
structure KiteDeflateTable.Bytes (t : KiteDeflateTable) : Prop where
  litLen : ∀ i, t.litLenLevels i ≤ 255
  dist : ∀ i, t.distLevels i ≤ 255
  level : ∀ i, t.levelLens i ≤ 255

theorem dynTable_bytes (mainFreqs distFreqs : CArray) {t : KiteDeflateTable} (h : t.Bytes) :
    (dynTable mainFreqs distFreqs t).1.Bytes := by
  have hmain := huffmanGenerate_lens_le mainFreqs t.mainCodes h.litLen kMainTableSize kMaxLen
  have hdist := huffmanGenerate_lens_le distFreqs t.distCodes h.dist kDistTableSize32 kMaxLen
  unfold dynTable
  generalize huffmanGenerate mainFreqs t.mainCodes t.litLenLevels kMainTableSize kMaxLen = a
    at hmain
  generalize huffmanGenerate distFreqs t.distCodes t.distLevels kDistTableSize32 kMaxLen = b
    at hdist
  obtain ⟨mainCodes, litLenLevels⟩ := a
  obtain ⟨distCodes, distLevels⟩ := b
  simp only
  exact ⟨hmain, hdist, huffmanGenerate_lens_le _ _ h.level _ _⟩

theorem getD_le_of_forall_mem {l : List ℕ} {b : ℕ} (h : ∀ x ∈ l, x ≤ b) (i : ℕ) :
    l.getD i 0 ≤ b := by
  rw [List.getD_eq_getElem?_getD]
  cases hi : l[i]? with
  | none => exact Nat.zero_le b
  | some x => exact h x (List.mem_of_getElem? hi)

theorem kLenExtraBits32_le (i : ℕ) : kLenExtraBits32 i ≤ 255 :=
  getD_le_of_forall_mem (by decide) i

theorem kDistExtraBits_le (i : ℕ) : kDistExtraBits i ≤ 255 := getD_le_of_forall_mem (by decide) i

theorem kLevelExtraBits_le (i : ℕ) : kLevelExtraBits i ≤ 255 := getD_le_of_forall_mem (by decide) i

/-- The header of a block with codes of its own takes 17 bits, and nothing wraps as long as few
symbols were counted. -/
theorem le_dynCost {mainFreqs distFreqs levelFreqs : CArray} {t : KiteDeflateTable} (ht : t.Bytes)
    (hmain : totalFreqs mainFreqs kMainTableSize ≤ 2 ^ 16)
    (hdist : totalFreqs distFreqs kDistTableSize32 ≤ 2 ^ 16)
    (hlevel : totalFreqs levelFreqs kLensTableSize ≤ 2 ^ 16) (hbl : t.numblcodes ≤ kLensTableSize) :
    17 ≤ dynCost mainFreqs distFreqs levelFreqs t := by
  have h₁ := @huffmanGetPriceEx_le mainFreqs t.litLenLevels kLenExtraBits32 ht.litLen
    kLenExtraBits32_le kMainTableSize kSymbolMatch (by decide)
  have h₂ := @huffmanGetPriceEx_le distFreqs t.distLevels kDistExtraBits ht.dist
    kDistExtraBits_le kDistTableSize32 0 (by decide)
  have h₃ := @huffmanGetPriceEx_le levelFreqs t.levelLens kLevelExtraBits ht.level
    kLevelExtraBits_le kLensTableSize kTableDirectLevels (by decide)
  have hbl' : t.numblcodes ≤ 19 := hbl
  unfold dynCost u32
  simp only
  rw [Nat.mod_eq_of_lt (show huffmanGetPriceEx mainFreqs t.litLenLevels kMainTableSize
    kLenExtraBits32 kSymbolMatch + huffmanGetPriceEx distFreqs t.distLevels kDistTableSize32
    kDistExtraBits 0 < 2 ^ 32 by omega), Nat.mod_eq_of_lt (by omega)]
  omega

theorem length_firstLens (lens : CArray) (n : ℕ) : (firstLens lens n).length = n := by
  unfold firstLens
  rw [List.length_map, List.length_range]

/-- The counts of the code-length symbols of a new table. -/
theorem dynTable_level (mainFreqs distFreqs : CArray) (t : KiteDeflateTable) :
    totalFreqs (dynTable mainFreqs distFreqs t).2 kLensTableSize ≤ 2 ^ 16 ∧
      (dynTable mainFreqs distFreqs t).1.numblcodes ≤ kLensTableSize := by
  unfold dynTable
  generalize huffmanGenerate mainFreqs t.mainCodes t.litLenLevels kMainTableSize kMaxLen = a
  generalize huffmanGenerate distFreqs t.distCodes t.distLevels kDistTableSize32 kMaxLen = b
  obtain ⟨mainCodes, litLenLevels⟩ := a
  obtain ⟨distCodes, distLevels⟩ := b
  simp only
  refine ⟨?_, trimLens_le _ _ _⟩
  have h₁ := totalFreqs_kiteDeflateScanlens_le (firstLens litLenLevels
    (trimLens kNumLitLenCodesMin litLenLevels kMainTableSize)) .zero kLensTableSize
  have h₂ := totalFreqs_kiteDeflateScanlens_le (firstLens distLevels
    (trimLens kNumDistCodesMin distLevels kDistTableSize32))
    (kiteDeflateScanlens (firstLens litLenLevels
      (trimLens kNumLitLenCodesMin litLenLevels kMainTableSize)) .zero) kLensTableSize
  have h₃ : totalFreqs CArray.zero kLensTableSize = 0 := by decide
  have h₄ : trimLens kNumLitLenCodesMin litLenLevels kMainTableSize ≤ 286 := trimLens_le _ _ _
  have h₅ : trimLens kNumDistCodesMin distLevels kDistTableSize32 ≤ 30 := trimLens_le _ _ _
  rw [length_firstLens] at h₁ h₂
  omega

section FirstLiteral

variable {s : KiteDeflate} {sym : KiteSymbol}

structure FirstSymbol (s : KiteDeflate) : Prop where
  mode : s.encodeMode = .fixedHuffman
  cost : s.costbits = 10
  sink : s.sink = ⟨[], 0, 0⟩
  tab1 : s.tab1 = false
  table0 : s.table0 = .zero
  table1 : s.table1.Bytes
  main : totalFreqs s.mainFreqs kMainTableSize ≤ 1
  dist : totalFreqs s.distFreqs kDistTableSize32 ≤ 0

theorem FirstSymbol.rem (h : FirstSymbol s) (hout : s.outlen < 2 ^ 32) : s.rem = 8 * s.outlen := by
  unfold KiteDeflate.rem
  rw [h.sink]
  simp only [List.length_nil]
  rw [sub32_of_le (Nat.zero_le _) hout, sub64_of_le (Nat.zero_le _) (by omega)]
  omega

theorem kstaticHuffLitLenLevels_literal {i : ℕ} (h : i < 256) :
    8 ≤ kstaticHuffLitLenLevels i ∧ kstaticHuffLitLenLevels i ≤ 9 := by
  unfold kstaticHuffLitLenLevels
  simp only
  split_ifs <;> omega

theorem FirstSymbol.fits (h : FirstSymbol s) (hlen : sym.len < kMatchMinLen)
    (hdist : sym.dist < 256) (hout : s.outlen < 2 ^ 32) (h3 : 3 ≤ s.outlen) :
    (kiteDeflateTally s sym).2 = false := by
  have hbits := kstaticHuffLitLenLevels_literal hdist
  have hone : (countSymbol s sym).2 = true := by
    unfold countSymbol
    rw [if_pos hlen, deflateCountCode_fixed h.mode, h.rem hout, h.cost, if_neg]
    unfold fixedBits u32
    rw [if_pos rfl]
    omega
  rcases kiteDeflateTally_cases s sym with ⟨-, heq⟩ | ⟨hno, -⟩ | ⟨hno, -⟩ | ⟨hno, -⟩
  · rw [heq]
  all_goals
    rw [hone] at hno
    exact absurd hno (by decide)

theorem recalculated_costbits (s : KiteDeflate) (literal : Bool) (lenSlot distSlot : ℕ) :
    ∃ t levelFreqs, dynTable (countFreqs s literal lenSlot distSlot).mainFreqs
        (countFreqs s literal lenSlot distSlot).distFreqs s.switchTab.tab = (t, levelFreqs) ∧
      (recalculated s literal lenSlot distSlot).costbits =
        dynCost (countFreqs s literal lenSlot distSlot).mainFreqs
          (countFreqs s literal lenSlot distSlot).distFreqs levelFreqs t := by
  have hchanged : (countFreqs s literal lenSlot distSlot).switchTab.freqChanged = true := rfl
  obtain ⟨t, levelFreqs, ht, heq⟩ := kiteDeflateFixdynblock_changed hchanged
  refine ⟨t, levelFreqs, ht, ?_⟩
  unfold recalculated
  rw [heq]
  rfl

/-- Codes of its own do not make the first literal fit into two bytes. -/
theorem FirstSymbol.le_recalculated (h : FirstSymbol s) {s' : KiteDeflate} (hmain : s'.mainFreqs =
    s.mainFreqs) (hdist : s'.distFreqs = s.distFreqs) (htab : s'.switchTab.tab = s.table1)
    (lenSlot : ℕ) : 17 ≤ u32 (recalculated s' true lenSlot 0).costbits := by
  obtain ⟨t, levelFreqs, ht, hcost⟩ := recalculated_costbits s' true lenSlot 0
  have hbytes := dynTable_bytes (countFreqs s' true lenSlot 0).mainFreqs
    (countFreqs s' true lenSlot 0).distFreqs (htab ▸ h.table1)
  have hlevel := dynTable_level (countFreqs s' true lenSlot 0).mainFreqs
    (countFreqs s' true lenSlot 0).distFreqs s'.switchTab.tab
  rw [ht] at hbytes hlevel
  have hfreqs := (totalFreqs_setAt_le s.mainFreqs (0 + lenSlot) 1 kMainTableSize).1
  have h₁ := h.main
  have h₂ := h.dist
  have hlt : dynCost (countFreqs s' true lenSlot 0).mainFreqs
      (countFreqs s' true lenSlot 0).distFreqs levelFreqs t < 2 ^ 32 := Nat.mod_lt _ (by decide)
  rw [hcost, u32, Nat.mod_eq_of_lt hlt]
  refine le_dynCost hbytes ?_ ?_ hlevel.1 hlevel.2
  · unfold countFreqs
    simp only [hmain, if_true]
    omega
  · unfold countFreqs
    simp only [hdist, if_true]
    omega

theorem FirstSymbol.full (h : FirstSymbol s) (hlen : sym.len < kMatchMinLen)
    (hdist : sym.dist < 256) (h2 : s.outlen ≤ 2) : (kiteDeflateTally s sym).2 = true := by
  have hbits := kstaticHuffLitLenLevels_literal hdist
  have hrem := h.rem (show s.outlen < 2 ^ 32 by omega)
  have hone : countSymbol s sym =
      (uncountFreqs (countFreqs s true sym.dist 0) true sym.dist 0, false) := by
    unfold countSymbol
    rw [if_pos hlen, deflateCountCode_fixed h.mode, hrem, h.cost, if_pos]
    unfold fixedBits u32
    rw [if_pos rfl]
    omega
  have hmode : (countSymbol s sym).1.encodeMode = .fixedHuffman := by
    rw [hone]
    exact h.mode
  have htwo : (tallyRetry s sym).2 = false := by
    unfold tallyRetry
    rw [hone]
    generalize hs' : ({ uncountFreqs (countFreqs s true sym.dist 0) true sym.dist 0 with
      encodeMode := .dynamicHuffman } : KiteDeflate) = s'
    obtain ⟨hmode', hrem', htab1, htable0, htable1, hmain', hdist'⟩ :
        s'.encodeMode = .dynamicHuffman ∧ s'.rem = s.rem ∧ s'.tab1 = s.tab1 ∧
        s'.table0 = s.table0 ∧ s'.table1 = s.table1 ∧ s'.mainFreqs = s.mainFreqs ∧
        s'.distFreqs = s.distFreqs := by
      rw [← hs']
      exact ⟨rfl, rfl, rfl, rfl, rfl, @mainFreqs_uncountFreqs s true sym.dist 0,
        @distFreqs_uncountFreqs s true sym.dist 0⟩
    have htab : s'.tab = .zero := by
      unfold KiteDeflate.tab
      rw [htab1, h.tab1, htable0, h.table0]
      rfl
    have hswitch : s'.switchTab.tab = s.table1 := by
      unfold KiteDeflate.tab KiteDeflate.switchTab
      simp only [htab1, h.tab1, htable1, Bool.not_false, if_true]
    have hcost := h.le_recalculated hmain' hdist' hswitch sym.dist
    unfold countSymbol
    rw [if_pos hlen, deflateCountCode_recalc, hrem', hrem, if_pos (by omega)]
    · rw [hmode']
      decide
    · rw [htab]
      exact Or.inr rfl
  rcases kiteDeflateTally_cases s sym with ⟨hyes, -⟩ | ⟨-, -, hyes, -⟩ | ⟨-, -, -, heq⟩ | ⟨-, hno, -⟩
  · rw [hone] at hyes
    simp only [Bool.false_eq_true] at hyes
  · rw [htwo] at hyes
    exact absurd hyes (by decide)
  · rw [heq]
  · exact absurd hmode hno

end FirstLiteral

end ErofsUtils
