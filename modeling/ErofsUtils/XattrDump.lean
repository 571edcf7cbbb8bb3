import ErofsUtils.DirImage
import ErofsUtils.XattrLookup

/-!
# Xattrs on an extracted file

`erofsfsck_dump_xattrs` lists the names of an inode, asks for the size and then for the value of
each one, and sets it on the file. A size of 0 ends its loop like an error, and is returned.
-/

namespace ErofsUtils
open ByteMemory CString

def eInval : ℤ := -22
def ePerm : ℤ := -1

/-- `fsckcfg`, as far as xattrs go, and what `lsetxattr` returns for a name and a value. -/
structure XattrDumpCfg where
  extract : Bool
  superuser : Bool
  lsetxattr : List UInt8 → List UInt8 → ℤ

section Dump

variable (dev : XattrDev) (sb : XattrSb) (vi : XattrInode) (cfg : XattrDumpCfg)

/-- The loop of `erofsfsck_dump_xattrs` from a place in the list of names, with the xattrs that have
been set; what `malloc` returns holds zeroes. -/
def dumpXattrsLoop (keylst : Mem) (kllen : ℕ) :
    ℕ → ℕ → ℤ → List (List UInt8 × List UInt8) → ℤ × List (List UInt8 × List UInt8)
  | 0, _, ret, done => (ret, done)
  | fuel + 1, pos, ret, done =>
    if kllen ≤ pos then (ret, done)
    else
      let key := slice keylst pos (strnlen keylst pos (kllen - pos))
      let next := pos + (key.length + 1)
      let ret := (erofsGetxattr dev sb vi key none 0).1
      if ret ≤ 0 then (ret, done)
      else
        let size := ret.toNat
        let r := erofsGetxattr dev sb vi key (some fun _ => 0) size
        if r.1 < 0 then (r.1, done)
        else
          let value := slice (r.2.getD fun _ => 0) 0 size
          let ret := if cfg.extract then cfg.lsetxattr key value else 0
          let done := if cfg.extract ∧ ret = 0 then done ++ [(key, value)] else done
          if ret = ePerm ∧ cfg.superuser = false then
            match erofsXattrPrefixMatches key with
            | none => (eInval, done)
            | some (index, _) =>
              if index ≠ 1 then dumpXattrsLoop keylst kllen fuel next 0 done else (ret, done)
          else if ret ≠ 0 then (ret, done)
          else dumpXattrsLoop keylst kllen fuel next ret done

/-- `erofsfsck_dump_xattrs`: what it returns, and the xattrs that it has set. -/
def erofsfsckDumpXattrs : ℤ × List (List UInt8 × List UInt8) :=
  let kllen := (erofsListxattr dev sb vi none 0).1
  if kllen ≤ 0 then (kllen, [])
  else
    let r := erofsListxattr dev sb vi (some fun _ => 0) kllen.toNat
    if r.1 ≠ kllen then (eInval, [])
    else dumpXattrsLoop dev sb vi cfg (r.2.getD fun _ => 0) kllen.toNat kllen.toNat 0 0 []

end Dump

def namedXattrs (sb : XattrSb) (rs : List XattrRecord) : List (List UInt8 × XattrRecord) :=
  rs.filterMap fun r => (xattrKey sb r).map fun key => (key, r)

/-- The records of an inode: none without an area, else the inline and the shared ones. -/
def HoldsXattrs (dev : XattrDev) (sb : XattrSb) (vi : XattrInode) (rs : List XattrRecord) : Prop :=
  (vi.xattrIsize = 0 ∧ rs = []) ∨
    ∃ inline shared, StoresXattrs dev sb vi inline shared ∧ rs = inline ++ shared

structure NamesXattrs (sb : XattrSb) (rs : List XattrRecord) : Prop where
  nodup : (rs.filterMap (xattrKey sb)).Nodup
  noNul : ∀ key ∈ rs.filterMap (xattrKey sb), 0 ∉ key

/-- A name that the reader lists and refuses to look up: it has no predefined prefix, or is too
long behind it. -/
def XattrRecord.Unreadable (sb : XattrSb) (r : XattrRecord) : Prop :=
  ∃ baseIndex infixBytes, xattrBaseInfix sb r.nameIndex = some (baseIndex, infixBytes) ∧
    (xattrTypes baseIndex = none ∨ erofsNameLen < (infixBytes ++ r.name).length)

section Records

variable {dev : XattrDev} {sb : XattrSb} {vi : XattrInode} {inline shared rs : List XattrRecord}

theorem XattrRecord.read_bounds (mem : Mem) (pos : ℕ) :
    (XattrRecord.read mem pos).name.length < 256 ∧
      (XattrRecord.read mem pos).value.length < 65536 := by
  simp only [XattrRecord.read, length_slice]
  exact ⟨leNat_lt mem pos 1, leNat_lt mem (pos + 2) 2⟩

theorem XattrEntries.mem_read {mem : Mem} {pos len : ℕ} (h : XattrEntries mem pos len rs)
    {r : XattrRecord} (hr : r ∈ rs) : ∃ p, r = XattrRecord.read mem p := by
  induction h with
  | nil => cases hr
  | @cons pos len rs rest ih =>
      rcases List.mem_cons.mp hr with rfl | hr
      · exact ⟨pos, rfl⟩
      · exact ih hr

theorem XattrEntries.length_le {mem : Mem} {pos len : ℕ} (h : XattrEntries mem pos len rs) :
    rs.length ≤ len := by
  induction h with
  | nil => exact le_rfl
  | @cons pos len rs rest ih =>
      have hpos := (XattrRecord.read mem pos).size_pos
      rw [List.length_cons]
      omega

theorem StoresXattrs.mem_read (hs : StoresXattrs dev sb vi inline shared) {r : XattrRecord}
    (hr : r ∈ inline ++ shared) : ∃ p, r = XattrRecord.read (dev.blockMem sb) p := by
  rcases List.mem_append.mp hr with hr | hr
  · exact hs.entries.mem_read hr
  · rw [hs.shared_eq] at hr
    obtain ⟨id, -, rfl⟩ := List.mem_map.mp hr
    exact ⟨_, rfl⟩

theorem xattrKey_some {r : XattrRecord} {key : List UInt8} (h : xattrKey sb r = some key) :
    ∃ baseIndex infixBytes, xattrBaseInfix sb r.nameIndex = some (baseIndex, infixBytes) ∧
      key = (xattrTypes baseIndex).getD [] ++ infixBytes ++ r.name := by
  unfold xattrKey at h
  split at h
  · cases h
  · next b i hb =>
      split at h
      · cases h
      · exact ⟨b, i, hb, (Option.some.inj h).symm⟩

theorem xattrTypes_length_le {index : ℕ} : ((xattrTypes index).getD []).length ≤ 24 := by
  unfold xattrTypes
  split <;> decide

theorem xattrBaseInfix_length_le {index b : ℕ} {i : List UInt8}
    (h : xattrBaseInfix sb index = some (b, i)) : i.length ≤ 255 := by
  unfold xattrBaseInfix at h
  split at h
  · obtain ⟨pf, -, hpf⟩ := Option.map_eq_some_iff.mp h
    cases hpf
    exact pf.infixBytes_le
  · cases h
    exact Nat.zero_le _

theorem length_xattrListing_le (hr : ∀ r ∈ rs, r.name.length < 256) :
    (xattrListing sb rs).length ≤ 536 * rs.length := by
  induction rs with
  | nil => exact Nat.zero_le _
  | cons r rs ih =>
      have hrest := ih fun r' hr' => hr r' (List.mem_cons_of_mem _ hr')
      have hone : (xattrListing sb [r]).length ≤ 536 := by
        have hname := hr r List.mem_cons_self
        unfold xattrListing
        cases hk : xattrKey sb r with
        | none => simp [hk]
        | some key =>
            obtain ⟨b, i, hb, rfl⟩ := xattrKey_some hk
            have hi := xattrBaseInfix_length_le hb
            have hp := @xattrTypes_length_le b
            simp only [List.filterMap_cons, hk, List.filterMap_nil, List.flatMap_cons,
              List.flatMap_nil, List.append_nil, List.length_append, List.length_singleton]
            omega
      rw [xattrListing_cons, List.length_append, List.length_cons]
      omega

theorem StoresXattrs.listing_lt (hs : StoresXattrs dev sb vi inline shared) :
    (xattrListing sb (inline ++ shared)).length < 2 ^ 32 := by
  have hle := @length_xattrListing_le sb _ fun r hr => by
    obtain ⟨p, rfl⟩ := hs.mem_read hr
    exact (XattrRecord.read_bounds _ _).1
  have hinline := hs.entries.length_le
  have hshared : shared.length ≤ 255 := by
    rw [hs.shared_eq, List.length_map, XattrDev.sharedIds, List.length_map, List.length_range]
    exact Nat.le_of_lt_succ (UInt8.toNat_lt _)
  have hsize : vi.xattrIsize ≤ 262148 := by
    have hcount := vi.iXattrIcount.toNat_lt
    unfold XattrInode.xattrIsize erofsXattrIbodySize
    split
    · exact Nat.zero_le _
    · rw [xattrHeaderSize]
      omega
  rw [List.length_append] at hle
  omega

/-- The first record that answers to the name of one is that one. -/
theorem find_eq_of_nodup {α β : Type*} {f : α → Option β} {p : α → Bool} {l : List α} {a : α}
    {b : β} (hnodup : (l.filterMap f).Nodup) (ha : a ∈ l) (hf : f a = some b) (hp : p a = true)
    (hall : ∀ x ∈ l, p x = true → f x = some b) : l.find? p = some a := by
  induction l with
  | nil => cases ha
  | cons x l ih =>
      by_cases hx : p x = true
      · rw [List.find?_cons_of_pos hx]
        have hfx := hall x List.mem_cons_self hx
        rw [List.filterMap_cons_some hfx, List.nodup_cons] at hnodup
        rcases List.mem_cons.mp ha with rfl | ha
        · rfl
        · exact absurd (List.mem_filterMap.mpr ⟨a, ha, hf⟩) hnodup.1
      · rw [List.find?_cons_of_neg (by simpa using hx)]
        rcases List.mem_cons.mp ha with rfl | ha
        · exact absurd hp hx
        · apply ih _ ha fun y hy => hall y (List.mem_cons_of_mem _ hy)
          cases hfx : f x with
          | none => rwa [List.filterMap_cons_none hfx] at hnodup
          | some c =>
              rw [List.filterMap_cons_some hfx, List.nodup_cons] at hnodup
              exact hnodup.2

theorem eq_of_nodup {α β : Type*} [DecidableEq β] {f : α → Option β} {l : List α} {a a' : α}
    {b : β} (hnodup : (l.filterMap f).Nodup) (ha : a ∈ l) (ha' : a' ∈ l) (hf : f a = some b)
    (hf' : f a' = some b) : a = a' := by
  have h := find_eq_of_nodup (p := fun x => decide (f x = some b)) hnodup ha hf
    (decide_eq_true hf) fun x _ hx => of_decide_eq_true hx
  have h' := find_eq_of_nodup (p := fun x => decide (f x = some b)) hnodup ha' hf'
    (decide_eq_true hf') fun x _ hx => of_decide_eq_true hx
  exact Option.some.inj (h.symm.trans h')

/-- A record that answers to a request has the full name that was asked for. -/
theorem XattrMatches.key_eq {index : ℕ} {name p : List UInt8} {r : XattrRecord}
    (hp : xattrTypes index = some p) (h : XattrMatches sb index name r) :
    xattrKey sb r = some (p ++ name) := by
  obtain ⟨i, hi, rfl⟩ := h
  obtain ⟨hlt, h0⟩ := xattrTypes_lt hp
  unfold xattrKey
  rw [hi]
  dsimp only
  rw [if_neg (by omega), hp, Option.getD_some, List.append_assoc]

section Named

variable (hs : StoresXattrs dev sb vi inline shared) (hn : NamesXattrs sb (inline ++ shared))
variable {r : XattrRecord} {key : List UInt8} (hr : r ∈ inline ++ shared)
variable (hkey : xattrKey sb r = some key)

include hs hn hr hkey

theorem erofsGetxattr_readable (hread : ¬ r.Unreadable sb) (buffer : Option Mem) (size : ℕ) :
    let g := erofsGetxattr dev sb vi key buffer size
    (g.1 = eIo ∧ dev.Fails) ∨
      match buffer with
      | none => g.1 = r.value.length
      | some _ =>
        if u32 size < r.value.length then g.1 = eRange
        else g.1 = r.value.length ∧ ∃ b, g.2 = some b ∧ Holds b 0 r.value := by
  obtain ⟨b, i, hb, rfl⟩ := xattrKey_some hkey
  cases hp : xattrTypes b with
  | none => exact absurd ⟨b, i, hb, Or.inl hp⟩ hread
  | some p =>
      have hlen : (i ++ r.name).length ≤ erofsNameLen := by
        by_contra h
        exact hread ⟨b, i, hb, Or.inr (Nat.not_le.mp h)⟩
      rw [hp] at hkey
      rw [Option.getD_some, List.append_assoc] at hkey ⊢
      have hmatch := erofsXattrPrefixMatches_append hp (i ++ r.name)
      have hdrop : (p ++ (i ++ r.name)).drop p.length = i ++ r.name := List.drop_left' rfl
      have hspec := @erofsGetxattr_spec _ _ _ _ _ hs _ _ _ size buffer hmatch
        (by rwa [hdrop])
      have hfind : (inline ++ shared).find? (XattrMatches sb b (i ++ r.name) ·) = some r := by
        apply find_eq_of_nodup hn.nodup hr hkey
        · exact decide_eq_true ⟨i, hb, rfl⟩
        · intro x _ hx
          exact (of_decide_eq_true hx).key_eq hp
      rw [hdrop, hfind] at hspec
      exact hspec

theorem erofsGetxattr_unreadable (hunread : r.Unreadable sb) :
    (erofsGetxattr dev sb vi key none 0).1 < 0 := by
  obtain ⟨b, i, hb, hbad⟩ := hunread
  obtain ⟨b', i', hb', hk⟩ := xattrKey_some hkey
  rw [hb] at hb'
  cases hb'
  by_cases hlong : ∀ index len, erofsXattrPrefixMatches key = some (index, len) →
      erofsNameLen < (key.drop len).length
  · exact erofsGetxattr_refused hs hlong
  push Not at hlong
  obtain ⟨index, len, hm, hle⟩ := hlong
  obtain ⟨p, hp, ⟨rest, hrest⟩, rfl⟩ := erofsXattrPrefixMatches_some hm
  have hdrop : key.drop p.length = rest := by rw [← hrest, List.drop_left]
  have hnone : xattrTypes b = none := by
    cases hq : xattrTypes b with
    | none => rfl
    | some q =>
        rw [hq, Option.getD_some, List.append_assoc] at hk
        have hm' := erofsXattrPrefixMatches_append hq (i ++ r.name)
        rw [← hk, hm] at hm'
        obtain ⟨rfl, hlen⟩ := Prod.mk.inj (Option.some.inj hm')
        rcases hbad with hbad | hbad
        · rw [hq] at hbad
          cases hbad
        · rw [hlen, hk, List.drop_left] at hle
          omega
  have hspec := @erofsGetxattr_spec _ _ _ _ _ hs _ _ _ 0 none hm hle
  rw [hdrop] at hspec
  rcases hspec with ⟨hio, -⟩ | hspec
  · rw [hio]
    decide
  · cases hfind : (inline ++ shared).find? (XattrMatches sb index rest ·) with
    | none =>
        rw [hfind] at hspec
        rw [hspec]
        decide
    | some r' =>
        -- the record that is found would have the name of this one, and a prefix
        have hmem := List.mem_of_find?_eq_some hfind
        have hmatch : XattrMatches sb index rest r' := by
          simpa using List.find?_some hfind
        have hsame := eq_of_nodup hn.nodup hmem hr (hmatch.key_eq hp) (hrest ▸ hkey)
        obtain ⟨j, hj, -⟩ := hmatch
        rw [hsame, hb] at hj
        cases hj
        rw [hp] at hnone
        cases hnone

end Named

end Records

def valued (kr : List UInt8 × XattrRecord) : List UInt8 × List UInt8 := (kr.1, kr.2.value)

/-- How the loop of `erofsfsck_dump_xattrs` goes over the xattrs that are left. -/
inductive DumpEnds (dev : XattrDev) (sb : XattrSb) : List (List UInt8 × XattrRecord) →
    List (List UInt8 × List UInt8) → ℤ × List (List UInt8 × List UInt8) → Prop
  | done (set : List (List UInt8 × List UInt8)) : DumpEnds dev sb [] set (0, set)
  | error {kr : List UInt8 × XattrRecord} {ks : List (List UInt8 × XattrRecord)}
      {set : List (List UInt8 × List UInt8)} {out : ℤ × List (List UInt8 × List UInt8)}
      (neg : out.1 < 0) (cause : dev.Fails ∨ kr.2.Unreadable sb) : DumpEnds dev sb (kr :: ks) set out
  | empty {kr : List UInt8 × XattrRecord} {ks : List (List UInt8 × XattrRecord)}
      {set : List (List UInt8 × List UInt8)} (readable : ¬ kr.2.Unreadable sb)
      (value : kr.2.value = []) : DumpEnds dev sb (kr :: ks) set (0, set)
  | next {kr : List UInt8 × XattrRecord} {ks : List (List UInt8 × XattrRecord)}
      {set : List (List UInt8 × List UInt8)} {out : ℤ × List (List UInt8 × List UInt8)}
      (readable : ¬ kr.2.Unreadable sb) (value : kr.2.value ≠ [])
      (rest : DumpEnds dev sb ks (set ++ [valued kr]) out) : DumpEnds dev sb (kr :: ks) set out

def EmptyRefused (sb : XattrSb) (ks : List (List UInt8 × XattrRecord)) : Prop :=
  ∀ before kr after, ks = before ++ kr :: after → kr.2.value = [] →
    ∃ x ∈ before ++ [kr], x.2.Unreadable sb

section Runs

variable {dev : XattrDev} {sb : XattrSb} {vi : XattrInode} {cfg : XattrDumpCfg}
variable {inline shared : List XattrRecord} {kr : List UInt8 × XattrRecord}
variable {ks : List (List UInt8 × XattrRecord)} {set : List (List UInt8 × List UInt8)}
variable {out : ℤ × List (List UInt8 × List UInt8)}

theorem emptyRefused_cons : EmptyRefused sb (kr :: ks) ↔
    kr.2.Unreadable sb ∨ (kr.2.value ≠ [] ∧ EmptyRefused sb ks) := by
  constructor
  · intro h
    by_cases hread : kr.2.Unreadable sb
    · exact Or.inl hread
    refine Or.inr ⟨fun hvalue => ?_, ?_⟩
    · obtain ⟨x, hx, hbad⟩ := h [] kr ks rfl hvalue
      rw [List.nil_append, List.mem_singleton] at hx
      exact hread (hx ▸ hbad)
    · rintro before kr' after rfl hvalue
      obtain ⟨x, hx, hbad⟩ := h (kr :: before) kr' after rfl hvalue
      rw [List.cons_append, List.mem_cons] at hx
      rcases hx with rfl | hx
      · exact absurd hbad hread
      · exact ⟨x, hx, hbad⟩
  · rintro h before kr' after hsplit hvalue
    cases before with
    | nil =>
        rw [List.nil_append, List.cons.injEq] at hsplit
        obtain ⟨rfl, rfl⟩ := hsplit
        rcases h with h | h
        · exact ⟨kr, List.mem_singleton_self kr, h⟩
        · exact absurd hvalue h.1
    | cons b before =>
        rw [List.cons_append, List.cons.injEq] at hsplit
        obtain ⟨rfl, rfl⟩ := hsplit
        rcases h with h | h
        · exact ⟨kr, List.mem_cons_self, h⟩
        · obtain ⟨x, hx, hbad⟩ := h.2 before kr' after rfl hvalue
          exact ⟨x, List.mem_cons_of_mem _ hx, hbad⟩

theorem DumpEnds.complete (h : DumpEnds dev sb ks set out) (hempty : EmptyRefused sb ks) :
    out.1 < 0 ∨ out.2 = set ++ ks.map valued := by
  induction h with
  | done set => exact Or.inr (List.append_nil set).symm
  | error neg cause => exact Or.inl neg
  | empty readable value =>
      rcases emptyRefused_cons.mp hempty with h | h
      · exact absurd h readable
      · exact absurd value h.1
  | next readable value rest ih =>
      rcases emptyRefused_cons.mp hempty with h | h
      · exact absurd h readable
      · rcases ih h.2 with hneg | hall
        · exact Or.inl hneg
        · exact Or.inr (by rw [hall, List.map_cons, List.append_assoc, List.singleton_append])

theorem DumpEnds.emptyRefused (h : DumpEnds dev sb ks set out) (hdev : ¬ dev.Fails)
    (hall : out.1 < 0 ∨ out.2 = set ++ ks.map valued) : EmptyRefused sb ks := by
  induction h with
  | done set =>
      intro before kr after hsplit
      exact absurd hsplit.symm (by simp)
  | error neg cause => exact emptyRefused_cons.mpr (Or.inl (cause.resolve_left hdev))
  | @empty kr ks set readable value =>
      rcases hall with hneg | hall
      · exact absurd hneg (by decide : ¬ (0 : ℤ) < 0)
      · have hlen : set.length = _ := congrArg List.length hall
        rw [List.length_append, List.map_cons, List.length_cons] at hlen
        omega
  | next readable value rest ih =>
      rw [List.map_cons, ← List.singleton_append, ← List.append_assoc] at hall
      exact emptyRefused_cons.mpr (Or.inr ⟨value, ih hall⟩)

def namesOf (ks : List (List UInt8 × XattrRecord)) : List UInt8 := ks.flatMap fun kr => kr.1 ++ [0]

theorem dumpXattrsLoop_ends (hs : StoresXattrs dev sb vi inline shared)
    (hn : NamesXattrs sb (inline ++ shared)) (hextract : cfg.extract = true)
    (hset : ∀ key value, cfg.lsetxattr key value = 0) {keylst : Mem} {kllen fuel pos : ℕ}
    (hks : ∀ kr ∈ ks, kr.2 ∈ inline ++ shared ∧ xattrKey sb kr.2 = some kr.1)
    (hholds : Holds keylst pos (namesOf ks)) (hend : pos + (namesOf ks).length = kllen)
    (hfuel : (namesOf ks).length ≤ fuel) :
    DumpEnds dev sb ks set (dumpXattrsLoop dev sb vi cfg keylst kllen fuel pos 0 set) := by
  induction ks generalizing fuel pos set with
  | nil =>
      have hpos : kllen ≤ pos := by
        rw [← hend]
        exact le_rfl
      cases fuel with
      | zero => exact .done set
      | succ fuel =>
          rw [dumpXattrsLoop, if_pos hpos]
          exact .done set
  | cons kr ks ih =>
      obtain ⟨key, r⟩ := kr
      obtain ⟨hr, hkey⟩ := hks (key, r) List.mem_cons_self
      have hnul : 0 ∉ key := hn.noNul key (List.mem_filterMap.mpr ⟨r, hr, hkey⟩)
      have hnames : namesOf ((key, r) :: ks) = key ++ ([0] ++ namesOf ks) := by
        rw [namesOf, List.flatMap_cons, List.append_assoc, ← namesOf]
      rw [hnames] at hholds hend hfuel
      simp only [List.length_append, List.length_singleton] at hend hfuel
      obtain ⟨hheld, hrest⟩ := holds_append.mp hholds
      obtain ⟨hzero, hrest⟩ := holds_append.mp hrest
      have hlen : strnlen keylst pos (kllen - pos) = key.length :=
        strnlen_of_holds hheld hnul (by omega) fun _ => (holds_cons.mp hzero).1
      obtain ⟨value, hsize⟩ : ∃ n, n = r.value.length := ⟨_, rfl⟩
      cases fuel with
      | zero => omega
      | succ fuel =>
          rw [dumpXattrsLoop, if_neg (by omega), hlen, slice_of_holds hheld rfl]
          dsimp only
          by_cases hread : r.Unreadable sb
          · have hneg := erofsGetxattr_unreadable hs hn hr hkey hread
            rw [if_pos hneg.le]
            exact .error hneg (Or.inr hread)
          have hquery := erofsGetxattr_readable hs hn hr hkey hread none 0
          generalize erofsGetxattr dev sb vi key none 0 = g at hquery ⊢
          rcases hquery with ⟨hio, hfails⟩ | hquery
          · rw [hio, if_pos (by decide)]
            exact .error (by decide : eIo < 0) (Or.inl hfails)
          dsimp only at hquery
          rw [hquery]
          by_cases hempty : r.value = []
          · rw [hempty, if_pos (by decide)]
            exact .empty hread hempty
          have hpos : 0 < r.value.length := List.length_pos_iff.mpr hempty
          rw [if_neg (by omega), Int.toNat_natCast]
          have hget := erofsGetxattr_readable hs hn hr hkey hread (some fun _ => 0) r.value.length
          generalize erofsGetxattr dev sb vi key (some fun _ => 0) r.value.length = g' at hget ⊢
          rcases hget with ⟨hio, hfails⟩ | hget
          · rw [hio, if_pos (by decide)]
            exact .error (by decide : eIo < 0) (Or.inl hfails)
          have hu32 : u32 r.value.length = r.value.length := by
            obtain ⟨p, rfl⟩ := hs.mem_read hr
            have hlt := (XattrRecord.read_bounds (dev.blockMem sb) p).2
            exact u32_of_lt (by omega)
          dsimp only at hget
          rw [hu32, if_neg (lt_irrefl _)] at hget
          obtain ⟨hlen', b, hb, hholds'⟩ := hget
          have hperm : ¬ ((0 : ℤ) = ePerm ∧ cfg.superuser = false) :=
            fun h => absurd h.1 (by decide)
          rw [hlen', if_neg (by omega), hb, Option.getD_some, slice_of_holds hholds' rfl]
          simp only [hextract, hset, if_true, and_self, if_neg hperm, ne_eq, not_true_eq_false,
            if_false]
          refine .next hread hempty (ih (fun kr hkr => hks kr (List.mem_cons_of_mem _ hkr)) ?_ ?_ ?_)
          · rw [← Nat.add_assoc]
            exact hrest
          · omega
          · omega

theorem namesOf_namedXattrs (sb : XattrSb) (rs : List XattrRecord) :
    namesOf (namedXattrs sb rs) = xattrListing sb rs := by
  unfold namesOf namedXattrs xattrListing
  induction rs with
  | nil => rfl
  | cons r rs ih => cases h : xattrKey sb r <;> simp [h, ih]

theorem mem_namedXattrs {rs : List XattrRecord} :
    kr ∈ namedXattrs sb rs ↔ kr.2 ∈ rs ∧ xattrKey sb kr.2 = some kr.1 := by
  unfold namedXattrs
  rw [List.mem_filterMap]
  constructor
  · rintro ⟨r, hr, hkr⟩
    obtain ⟨key, hkey, rfl⟩ := Option.map_eq_some_iff.mp hkr
    exact ⟨hr, hkey⟩
  · rintro ⟨hr, hkey⟩
    exact ⟨kr.2, hr, by rw [hkey]; rfl⟩

theorem erofsfsckDumpXattrs_ends (hs : StoresXattrs dev sb vi inline shared)
    (hn : NamesXattrs sb (inline ++ shared)) (hextract : cfg.extract = true)
    (hset : ∀ key value, cfg.lsetxattr key value = 0) :
    DumpEnds dev sb (namedXattrs sb (inline ++ shared)) [] (erofsfsckDumpXattrs dev sb vi cfg) ∨
      ((erofsfsckDumpXattrs dev sb vi cfg).1 < 0 ∧ dev.Fails) := by
  have hnames := namesOf_namedXattrs sb (inline ++ shared)
  have hlt := hs.listing_lt
  have hcount := @erofsListxattr_spec _ _ _ _ _ hs none 0 nofun
  unfold erofsfsckDumpXattrs
  generalize erofsListxattr dev sb vi none 0 = c at hcount ⊢
  rcases hcount with ⟨hio, hfails⟩ | ⟨hlen, -⟩
  · rw [hio, if_pos (by decide)]
    exact Or.inr ⟨by decide, hfails⟩
  rw [← hnames] at hlt hlen
  rw [hlen]
  by_cases hnone : (namesOf (namedXattrs sb (inline ++ shared))).length = 0
  · rw [hnone, if_pos (by decide)]
    refine Or.inl ?_
    cases hks : namedXattrs sb (inline ++ shared) with
    | nil => exact .done []
    | cons kr ks =>
        rw [hks] at hnone
        simp [namesOf] at hnone
  rw [if_neg (by omega), Int.toNat_natCast]
  have hlist := @erofsListxattr_spec _ _ _ _ _ hs (some fun _ => 0) _
    (fun _ => by rw [u32_of_lt hlt, hnames])
  dsimp only
  generalize erofsListxattr dev sb vi (some fun _ => 0) _ = l at hlist ⊢
  rcases hlist with ⟨hio, hfails⟩ | ⟨hlen', hsome, hholds⟩
  · rw [hio, if_pos (by unfold eIo; omega)]
    exact Or.inr ⟨by decide, hfails⟩
  rw [hlen', ← hnames, if_neg (not_not.mpr rfl)]
  refine Or.inl (dumpXattrsLoop_ends hs hn hextract hset (fun kr hkr => mem_namedXattrs.mp hkr) ?_
    (Nat.zero_add _) le_rfl)
  obtain ⟨b, hb⟩ := Option.isSome_iff_exists.mp hsome
  rw [hb, Option.getD_some, hnames]
  exact hholds b hb

end Runs

def DumpsXattrs (dev : XattrDev) (sb : XattrSb) (vi : XattrInode) (cfg : XattrDumpCfg)
    (rs : List XattrRecord) : Prop :=
  (erofsfsckDumpXattrs dev sb vi cfg).1 < 0 ∨
    (erofsfsckDumpXattrs dev sb vi cfg).2 = (namedXattrs sb rs).map valued

theorem neg_of_noError (_ _ : ℕ) (err : ℤ) (h : (none : Option ℤ) = some err) : err < 0 := by
  cases h

/-- Whichever reads fail, a dump is complete or an error, exactly when the reader refuses each
xattr with an empty value or one that is listed before it. -/
theorem dumpXattrs_complete_iff {dev : XattrDev} {sb : XattrSb} {vi : XattrInode}
    {cfg : XattrDumpCfg} {rs : List XattrRecord} (hholds : HoldsXattrs dev sb vi rs)
    (hn : NamesXattrs sb rs) (hextract : cfg.extract = true)
    (hset : ∀ key value, cfg.lsetxattr key value = 0) :
    (∀ readErr h, DumpsXattrs (dev.withErrors readErr h) sb vi cfg rs) ↔
      EmptyRefused sb (namedXattrs sb rs) := by
  rcases hholds with ⟨hsize, rfl⟩ | ⟨inline, shared, hs, rfl⟩
  · refine iff_of_true (fun readErr h => Or.inr ?_) fun before kr after hsplit => ?_
    · have hnone : initInodeXattrs (dev.withErrors readErr h) sb vi = .error eNoAttr := by
        rw [initInodeXattrs, hsize]
        rfl
      unfold erofsfsckDumpXattrs erofsListxattr
      rw [hnone]
      rfl
    · exact absurd hsplit.symm (by simp [namedXattrs])
  have hstores (readErr : ℕ → ℕ → Option ℤ) (h) :
      StoresXattrs (dev.withErrors readErr h) sb vi inline shared :=
    ⟨hs.size, hs.fits, hs.entries, hs.shared_eq⟩
  constructor
  · intro hall
    have hclean : ¬ (dev.withErrors (fun _ _ => none) neg_of_noError).Fails := by
      rintro ⟨pos, len, err, herr⟩
      cases herr
    rcases erofsfsckDumpXattrs_ends (hstores (fun _ _ => none) neg_of_noError) hn hextract hset with
      hends | ⟨-, hfails⟩
    · exact hends.emptyRefused hclean (hall (fun _ _ => none) neg_of_noError)
    · exact absurd hfails hclean
  · intro hempty readErr h
    rcases erofsfsckDumpXattrs_ends (hstores readErr h) hn hextract hset with hends | ⟨hneg, -⟩
    · exact hends.complete hempty
    · exact Or.inl hneg

/-- An area with `user.a`, which is empty, and `user.b`. -/
def emptyValueDev : XattrDev :=
  XattrDev.readable fun p =>
    if p = 44 ∨ p = 45 ∨ p = 52 ∨ p = 53 ∨ p = 54 then 1
    else if p = 48 then 97 else if p = 56 then 98 else if p = 57 then 120 else 0

/-- Extraction by root, with an `lsetxattr` that always succeeds. -/
def extractingCfg : XattrDumpCfg where
  extract := true
  superuser := true
  lsetxattr := fun _ _ => 0

def emptyValueRecords : List XattrRecord :=
  [{ nameIndex := 1, name := [97], value := [] }, { nameIndex := 1, name := [98], value := [120] }]

theorem emptyValue_holds :
    HoldsXattrs emptyValueDev plainXattrSb twoEntryInode emptyValueRecords := by
  refine Or.inr ⟨emptyValueRecords, [], ⟨by decide, by decide, ?_, by decide⟩, rfl⟩
  exact .cons (.cons (.nil _))

theorem emptyValue_names : NamesXattrs plainXattrSb emptyValueRecords := by
  constructor <;> decide

theorem dumpXattrs_complete_iff_emptyValue :
    (∀ readErr h, DumpsXattrs (emptyValueDev.withErrors readErr h) plainXattrSb twoEntryInode
        extractingCfg emptyValueRecords) ↔
      EmptyRefused plainXattrSb (namedXattrs plainXattrSb emptyValueRecords) :=
  dumpXattrs_complete_iff emptyValue_holds emptyValue_names rfl fun _ _ => rfl

/-- The dump ends at the empty value without an error, and nothing is set. -/
theorem emptyValue_dump :
    HoldsXattrs emptyValueDev plainXattrSb twoEntryInode emptyValueRecords ∧
      erofsfsckDumpXattrs emptyValueDev plainXattrSb twoEntryInode extractingCfg = (0, []) ∧
      ¬ DumpsXattrs emptyValueDev plainXattrSb twoEntryInode extractingCfg
        emptyValueRecords := by
  have hdump : erofsfsckDumpXattrs emptyValueDev plainXattrSb twoEntryInode extractingCfg =
      (0, []) := by decide
  refine ⟨emptyValue_holds, hdump, ?_⟩
  unfold DumpsXattrs
  rw [hdump]
  decide

end ErofsUtils
