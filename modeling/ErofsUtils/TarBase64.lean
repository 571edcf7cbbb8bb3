import ErofsUtils.Base64
import ErofsUtils.CString

/-!
# Base64 values of extended attributes

`base64_decode` of `tar.c`, which decodes the value of a `LIBARCHIVE.xattr` record over itself.
Its alphabet ends with a comma and its first symbol has the low bits of the first byte. The main
theorem says for which texts the result is still that of the encoding.
-/

namespace ErofsUtils
open ByteMemory CString Base64

def lookupTable : List UInt8 :=
  "ABCDEFGHIJKLMNOPQRSTUVWXYZabcdefghijklmnopqrstuvwxyz0123456789+,".toUTF8.data.toList

/-- The loop of `base64_decode` from the character at `p` on, with `n` characters left: the memory
and the result. A NUL, for which `strchr` would find the end of the table, is rejected too. -/
def base64Loop (dst : ℕ) : ℕ → ℕ → Mem → ℕ → ℕ → ℕ → Mem × ℤ
  | 0, _, mem, _, ac, cp => (mem, if ac ≠ 0 then -1 else (cp : ℤ) - dst)
  | n + 1, p, mem, bits, ac, cp =>
    if mem p ∈ lookupTable then
      let ac := ac + lookupTable.idxOf (mem p) * 2 ^ bits
      if 8 ≤ bits + 6 then
        base64Loop dst n (p + 1) (Function.update mem cp (UInt8.ofNat ac)) (bits + 6 - 8)
          (ac / 256) (cp + 1)
      else base64Loop dst n (p + 1) mem (bits + 6) ac cp
    else (mem, -2)

/-- `base64_decode`. With `len = 0` it looks at the two bytes in front of the text; whatever
`len` becomes, the loop is not entered then. -/
def base64Decode (mem : Mem) (src len dst : ℕ) : Mem × ℤ :=
  let len :=
    if len % 4 = 0 then
      if mem (src + len - 2) = pad ∧ mem (src + len - 1) = pad then len - 2
      else if mem (src + len - 1) = pad then len - 1
      else len
    else len
  base64Loop dst len src mem 0 0 dst

/-- What is to hold of a text: the encoding of a byte string, with or without padding, is decoded
to this string, and anything else is rejected. -/
def Base64Exact (mem : Mem) (src len dst : ℕ) : Prop :=
  (∀ padded v, slice mem src len = encode padded v →
    base64Decode mem src len dst = (store mem dst v, (v.length : ℤ))) ∧
  ((∀ padded v, slice mem src len ≠ encode padded v) → (base64Decode mem src len dst).2 < 0)

/-- A text with a character outside the table, or with bits left over in its last symbol. -/
def BadText (s : List UInt8) : Prop :=
  (∃ c ∈ unpad s, c ∉ lookupTable) ∨
    ∃ c ∈ (unpad s).getLast?, 2 ^ (6 - 6 * (unpad s).length % 8) ≤ lookupTable.idxOf c

/-- A text that means the same to both: the encoding of groups that are the same in both streams,
or one that is bad for both. -/
def Base64Agrees (s : List UInt8) : Prop :=
  (∀ padded v, s = encode padded v → SameGroups v) ∧
    ((∀ padded v, s ≠ encode padded v) → BadText s)

section Table

theorem mem_lookupTable_symbol {x : ℕ} (hx : x < 64) : symbol x ∈ lookupTable ↔ x ≠ 63 := by
  have h : ∀ y : Fin 64, symbol y.1 ∈ lookupTable ↔ y.1 ≠ 63 := by decide
  exact h ⟨x, hx⟩

theorem idxOf_symbol {x : ℕ} (hx : x < 63) : lookupTable.idxOf (symbol x) = x := by
  have h : ∀ y : Fin 63, lookupTable.idxOf (symbol y.1) = y.1 := by decide
  exact h ⟨x, hx⟩

theorem idxOf_lookupTable_lt {c : UInt8} (hc : c ∈ lookupTable) : lookupTable.idxOf c < 64 :=
  List.idxOf_lt_length_of_mem hc

end Table

section Loop

variable {mem : Mem} {dst bits ac : ℕ}

theorem store_cons (mem : Mem) (pos : ℕ) (b : UInt8) (bs : List UInt8) :
    store (Function.update mem pos b) (pos + 1) bs = store mem pos (b :: bs) := by
  funext k
  obtain hk | rfl | hk := Nat.lt_trichotomy k pos
  · rw [store_of_lt _ hk, store_of_lt _ (by omega), Function.update_of_ne (by omega)]
  · rw [store_of_lt _ (Nat.lt_succ_self k), Function.update_self]
    simp [store]
  · have he : k - pos = k - (pos + 1) + 1 := by omega
    rw [store, store, if_pos (by omega), if_pos (by omega), Function.update_of_ne (by omega), he,
      List.getElem?_cons_succ]

/-- The loop writes the bytes of its symbols. It never writes in front of what it has read: the
bytes go behind the text, or to a place up to the next character. -/
theorem base64Loop_eq (s : List UInt8) {p cp : ℕ} (hs : Holds mem p s)
    (hin : ∀ c ∈ s, c ∈ lookupTable) (hroom : cp ≤ p ∨ p + s.length ≤ cp) :
    base64Loop dst s.length p mem bits ac cp =
      (store mem cp (lowOctets bits ac (s.map lookupTable.idxOf)),
        if lowRest bits ac (s.map lookupTable.idxOf) ≠ 0 then -1
        else ((cp + (lowOctets bits ac (s.map lookupTable.idxOf)).length : ℕ) : ℤ) - dst) := by
  induction s generalizing p cp mem bits ac with
  | nil => simp [base64Loop, lowOctets, lowRest, store_nil]
  | cons c s ih =>
    obtain ⟨hc, hs⟩ := holds_cons.mp hs
    rw [List.forall_mem_cons] at hin
    rw [List.length_cons] at hroom
    rw [List.length_cons, base64Loop, hc, if_pos hin.1, List.map_cons, lowOctets, lowRest]
    by_cases h8 : 8 ≤ bits + 6
    · have hkeep : Holds (Function.update mem cp
          (UInt8.ofNat (ac + lookupTable.idxOf c * 2 ^ bits))) (p + 1) s := by
        apply holds_congr _ hs
        intro k hk hlt
        apply Function.update_of_ne
        omega
      rw [if_pos h8, if_pos h8, if_pos h8, ih hkeep hin.2 (by omega), store_cons,
        List.length_cons]
      congr 2
      push_cast
      ring
    · rw [if_neg h8, if_neg h8, if_neg h8, ih hs hin.2 (by omega)]

theorem base64Loop_bad (s : List UInt8) {p cp : ℕ} (hs : Holds mem p s)
    (hbad : ∃ c ∈ s, c ∉ lookupTable) (hroom : cp ≤ p ∨ p + s.length ≤ cp) :
    (base64Loop dst s.length p mem bits ac cp).2 = -2 := by
  induction s generalizing p cp mem bits ac with
  | nil => simp at hbad
  | cons c s ih =>
    obtain ⟨hc, hs⟩ := holds_cons.mp hs
    rw [List.length_cons] at hroom
    rw [List.length_cons, base64Loop, hc]
    by_cases hin : c ∈ lookupTable
    · have hrest : ∃ c ∈ s, c ∉ lookupTable := by
        obtain ⟨c', hc', hnot⟩ := hbad
        rcases List.mem_cons.mp hc' with rfl | hc'
        · exact absurd hin hnot
        · exact ⟨c', hc', hnot⟩
      rw [if_pos hin]
      by_cases h8 : 8 ≤ bits + 6
      · rw [if_pos h8]
        apply ih _ hrest (by omega)
        apply holds_congr _ hs
        intro k hk hlt
        apply Function.update_of_ne
        omega
      · rw [if_neg h8]
        exact ih hs hrest (by omega)
    · rw [if_neg hin]

end Loop

section Decode

variable {mem : Mem} {src len dst : ℕ}

/-- The text without its padding is a prefix of the text, which the loop of the decoder reads. -/
theorem base64Decode_eq (mem : Mem) (src len dst : ℕ) :
    ∃ n ≤ len, unpad (slice mem src len) = slice mem src n ∧
      base64Decode mem src len dst = base64Loop dst n src mem 0 0 dst := by
  obtain rfl | hpos := Nat.eq_zero_or_pos len
  · exact ⟨0, le_refl 0, by simp [slice, unpad], by simp [base64Decode]⟩
  by_cases h4 : len % 4 = 0
  · have hget : ∀ k, 0 < k → k ≤ len →
        ((slice mem src len)[len - k]? = some pad ↔ mem (src + len - k) = pad) := by
      intro k hk hle
      rw [getElem?_slice, if_pos (by omega), Option.some.injEq, Nat.add_sub_assoc hle]
    have htwo := hget 2 (by omega) (by omega)
    have hone := hget 1 (by omega) (by omega)
    simp only [unpad, base64Decode, length_slice, if_pos h4, htwo, hone]
    by_cases hpad2 : mem (src + len - 2) = pad ∧ mem (src + len - 1) = pad
    · rw [if_pos hpad2, if_pos hpad2]
      exact ⟨len - 2, Nat.sub_le _ _, take_slice _ (Nat.sub_le _ _), rfl⟩
    · rw [if_neg hpad2, if_neg hpad2]
      by_cases hpad1 : mem (src + len - 1) = pad
      · rw [if_pos hpad1, if_pos hpad1]
        exact ⟨len - 1, Nat.sub_le _ _, take_slice _ (Nat.sub_le _ _), rfl⟩
      · rw [if_neg hpad1, if_neg hpad1]
        exact ⟨len, le_refl len, rfl, rfl⟩
  · refine ⟨len, le_refl len, ?_, ?_⟩
    · rw [unpad, length_slice, if_neg h4]
    · simp only [base64Decode, if_neg h4]

variable (hdst : dst ≤ src ∨ src + len ≤ dst)
include hdst

theorem base64Decode_of_mem (hin : ∀ c ∈ unpad (slice mem src len), c ∈ lookupTable) :
    base64Decode mem src len dst =
      (store mem dst (lowOctets 0 0 ((unpad (slice mem src len)).map lookupTable.idxOf)),
        if lowRest 0 0 ((unpad (slice mem src len)).map lookupTable.idxOf) ≠ 0 then -1
        else ((lowOctets 0 0 ((unpad (slice mem src len)).map lookupTable.idxOf)).length : ℤ)) := by
  obtain ⟨n, hn, hunpad, hdec⟩ := base64Decode_eq mem src len dst
  have hloop := @base64Loop_eq mem dst 0 0 _ src dst (holds_slice src n)
  rw [length_slice] at hloop
  rw [hunpad] at hin ⊢
  rw [hdec, hloop hin (by omega)]
  congr 2
  push_cast
  ring

theorem base64Decode_of_notMem (hbad : ∃ c ∈ unpad (slice mem src len), c ∉ lookupTable) :
    (base64Decode mem src len dst).2 = -2 := by
  obtain ⟨n, hn, hunpad, hdec⟩ := base64Decode_eq mem src len dst
  have hloop := @base64Loop_bad mem dst 0 0 _ src dst (holds_slice src n)
  rw [length_slice] at hloop
  rw [hunpad] at hbad
  rw [hdec]
  exact hloop hbad (by omega)

theorem base64Decode_neg_iff :
    (base64Decode mem src len dst).2 < 0 ↔ BadText (slice mem src len) := by
  by_cases hin : ∀ c ∈ unpad (slice mem src len), c ∈ lookupTable
  · have hno : ¬ ∃ c ∈ unpad (slice mem src len), c ∉ lookupTable := by
      rintro ⟨c, hc, hnot⟩
      exact hnot (hin c hc)
    have hlt : ∀ x ∈ (unpad (slice mem src len)).map lookupTable.idxOf, x < 64 := by
      intro x hx
      obtain ⟨c, hc, rfl⟩ := List.mem_map.mp hx
      exact idxOf_lookupTable_lt (hin c hc)
    have hrest := lowRest_ne_zero hlt
    rw [List.length_map, List.getLast?_map] at hrest
    have hbad : BadText (slice mem src len) ↔
        lowRest 0 0 ((unpad (slice mem src len)).map lookupTable.idxOf) ≠ 0 := by
      rw [hrest, BadText, or_iff_right hno]
      simp
    rw [base64Decode_of_mem hdst hin, hbad]
    split <;> simp_all
  · have hbad : ∃ c ∈ unpad (slice mem src len), c ∉ lookupTable := by
      simpa using hin
    rw [base64Decode_of_notMem hdst hbad]
    exact iff_of_true (by decide) (Or.inl hbad)

end Decode

/-- Storing tells two byte strings of one length apart. -/
theorem store_inj {mem : Mem} {pos : ℕ} {xs ys : List UInt8} (hlen : xs.length = ys.length)
    (h : store mem pos xs = store mem pos ys) : xs = ys := by
  apply List.ext_getElem?
  intro i
  by_cases hi : i < xs.length
  · have hx := holds_store mem pos xs i _ (List.getElem?_eq_getElem hi)
    have hy := holds_store mem pos ys i _ (List.getElem?_eq_getElem (hlen ▸ hi))
    rw [h, hy] at hx
    rw [List.getElem?_eq_getElem hi, List.getElem?_eq_getElem (hlen ▸ hi), hx]
  · rw [List.getElem?_eq_none (by omega), List.getElem?_eq_none (by omega)]

/-- An encoding is decoded to the bytes it is the encoding of exactly if their groups are the same
in both streams. -/
theorem base64Decode_encode {mem : Mem} {src len dst : ℕ}
    (hdst : dst ≤ src ∨ src + len ≤ dst) {padded : Bool} {v : List UInt8}
    (hs : slice mem src len = encode padded v) :
    base64Decode mem src len dst = (store mem dst v, (v.length : ℤ)) ↔ SameGroups v := by
  have hunpad : unpad (slice mem src len) = (sextets v).map symbol := by
    rw [hs, unpad_encode]
  rw [sameGroups_iff]
  by_cases h63 : 63 ∈ sextets v
  · have hbad : ∃ c ∈ unpad (slice mem src len), c ∉ lookupTable := by
      refine ⟨symbol 63, ?_, by decide⟩
      rw [hunpad]
      exact List.mem_map_of_mem h63
    have hneg := base64Decode_of_notMem hdst hbad
    constructor
    · intro h
      rw [h] at hneg
      simp at hneg
    · rintro ⟨h, -⟩
      exact absurd h63 h
  · have hlt : ∀ x ∈ sextets v, x < 63 := by
      intro x hx
      have hx64 := sextets_lt v x hx
      have hne : x ≠ 63 := by
        rintro rfl
        exact h63 hx
      omega
    have hin : ∀ c ∈ unpad (slice mem src len), c ∈ lookupTable := by
      rw [hunpad]
      intro c hc
      obtain ⟨x, hx, rfl⟩ := List.mem_map.mp hc
      have hx63 := hlt x hx
      exact (mem_lookupTable_symbol (by omega)).mpr (by omega)
    have hidx : (unpad (slice mem src len)).map lookupTable.idxOf = sextets v := by
      rw [hunpad, List.map_map]
      conv_rhs => rw [← List.map_id (sextets v)]
      apply List.map_congr_left
      intro x hx
      exact idxOf_symbol (hlt x hx)
    rw [base64Decode_of_mem hdst hin, hidx, Prod.mk.injEq]
    constructor
    · rintro ⟨hmem, hval⟩
      split at hval
      · omega
      next hrest =>
        have hlen : (lowOctets 0 0 (sextets v)).length = v.length := by exact_mod_cast hval
        exact ⟨h63, store_inj hlen hmem, not_not.mp hrest⟩
    · rintro ⟨-, hv, hrest⟩
      rw [if_neg (not_not.mpr hrest), hv]
      exact ⟨rfl, rfl⟩

/-- Decoding meets the encoding at a text exactly if the text means the same to both. The bytes are
written in front of the text, over it, or behind it. -/
theorem base64Decode_exact {mem : Mem} {src len dst : ℕ} (hdst : dst ≤ src ∨ src + len ≤ dst) :
    Base64Exact mem src len dst ↔ Base64Agrees (slice mem src len) := by
  unfold Base64Exact Base64Agrees
  refine and_congr ?_ ?_
  · refine forall_congr' fun padded => forall_congr' fun v => ?_
    exact forall_congr' fun hs => base64Decode_encode hdst hs
  · rw [base64Decode_neg_iff hdst]

/-- A text behind the `=` of its record. -/
def valueMem (text : String) : Mem := store (fun _ => 0) 0 (pad :: text.toUTF8.data.toList)

/-- The bytes `0x55 0x14 0x55`, decoded over their encoding. -/
theorem base64Decode_exact_vrrv :
    slice (valueMem "VRRV") 1 4 = encode true [0x55, 0x14, 0x55] ∧
      (base64Decode (valueMem "VRRV") 1 4 1).2 = 3 ∧
      (Base64Exact (valueMem "VRRV") 1 4 1 ↔ Base64Agrees (slice (valueMem "VRRV") 1 4)) :=
  ⟨by decide, by decide, base64Decode_exact (Or.inl (le_refl 1))⟩

/-- The encoding of `abc` is decoded to other bytes. -/
theorem base64Decode_abc : ¬ ∀ (mem : Mem) (src len : ℕ), Base64Exact mem src len src := by
  intro h
  have habc := (h (valueMem "YWJj") 1 4).1 true [97, 98, 99] (by decide)
  have hfirst := congrFun (congrArg Prod.fst habc) 1
  exact absurd hfirst (by decide)

end ErofsUtils
