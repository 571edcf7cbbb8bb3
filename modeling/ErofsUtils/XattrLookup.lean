import ErofsUtils.XattrVerify

/-!
# What the reader returns

On an inode whose area is whole, `erofs_getxattr` returns the value of the first record, inline or
shared, that has the name asked for, and `erofs_listxattr` lists the names of all records that have
one, unless a read of the device fails.
-/

namespace ErofsUtils
open ByteMemory CString

/-- The full name of a record, where its index stands for a prefix. -/
def xattrKey (sb : XattrSb) (r : XattrRecord) : Option (List UInt8) :=
  match xattrBaseInfix sb r.nameIndex with
  | none => none
  | some (baseIndex, infixBytes) =>
    if baseIndex = 0 ∨ xattrTypesSize ≤ baseIndex then none
    else some ((xattrTypes baseIndex).getD [] ++ infixBytes ++ r.name)

def XattrMatches (sb : XattrSb) (index : ℕ) (name : List UInt8) (r : XattrRecord) : Prop :=
  ∃ infixBytes, xattrBaseInfix sb r.nameIndex = some (index, infixBytes) ∧
    name = infixBytes ++ r.name

instance (sb : XattrSb) (index : ℕ) (name : List UInt8) (r : XattrRecord) :
    Decidable (XattrMatches sb index name r) :=
  match h : xattrBaseInfix sb r.nameIndex with
  | none => isFalse (by rintro ⟨i, hi, -⟩; rw [h] at hi; cases hi)
  | some (b, i) =>
    if hb : b = index ∧ name = i ++ r.name then isTrue ⟨i, by rw [h, hb.1], hb.2⟩
    else isFalse (by
      rintro ⟨j, hj, hname⟩
      rw [h] at hj
      cases hj
      exact hb ⟨rfl, hname⟩)

section Get

variable {sb : XattrSb} {st st' : GetxattrIter} {r : XattrRecord}

/-- The request that an iterator stands for is the same. -/
structure GetxattrIter.Same (st st' : GetxattrIter) : Prop where
  index : st'.index = st.index
  name : st'.name = st.name
  buffer : st'.buffer = st.buffer
  bufferSize : st'.bufferSize = st.bufferSize

theorem GetxattrIter.Same.trans {st'' : GetxattrIter} (h : st.Same st') (h' : st'.Same st'') :
    st.Same st'' where
  index := h'.index.trans h.index
  name := h'.name.trans h.name
  buffer := h'.buffer.trans h.buffer
  bufferSize := h'.bufferSize.trans h.bufferSize

def GetxattrIter.Found (st : GetxattrIter) (value : List UInt8) (err : ℤ) (st' : GetxattrIter) :
    Prop :=
  match st.buffer with
  | none => err = 1 ∧ st'.bufferSize = value.length
  | some _ =>
    if st.bufferSize < value.length then err = eRange
    else err = 0 ∧ st'.bufferSize = value.length ∧ ∃ b, st'.buffer = some b ∧ Holds b 0 value

def GetxattrIter.Outcome (st : GetxattrIter) (sb : XattrSb) (r : XattrRecord) (err : ℤ)
    (st' : GetxattrIter) : Prop :=
  if XattrMatches sb st.index st.name r then st.Found r.value err st'
  else err = eNoAttr ∧ st.Same st'

theorem GetxattrIter.outcome_pos {err : ℤ} (h : XattrMatches sb st.index st.name r) :
    st.Outcome sb r err st' ↔ st.Found r.value err st' := by
  rw [Outcome, if_pos h]

theorem GetxattrIter.outcome_neg {err : ℤ} (h : ¬ XattrMatches sb st.index st.name r) :
    st.Outcome sb r err st' ↔ err = eNoAttr ∧ st.Same st' := by
  rw [Outcome, if_neg h]

theorem holds_store_append {b : Mem} {xs : List UInt8} (h : Holds b 0 xs) (ys : List UInt8) :
    Holds (store b xs.length ys) 0 (xs ++ ys) := by
  rw [holds_append, Nat.zero_add]
  refine ⟨holds_congr (fun k _ hk => store_of_lt ys (by omega)) h, holds_store b xs.length ys⟩

theorem take_append_take_drop {α : Type*} (xs : List α) (p len : ℕ) :
    xs.take p ++ (xs.drop p).take len = xs.take (p + len) := by
  rw [List.take_add]

/-- `xattr_entrymatch` finds the records that agree with the request up to the name. -/
theorem xattrEntrymatch_spec (sb : XattrSb) (r : XattrRecord) (st : GetxattrIter) :
    (xattrEntrymatch sb r.entry st = (eNoAttr, st) ∧ ¬ XattrMatches sb st.index st.name r) ∨
      ∃ i, xattrEntrymatch sb r.entry st = (0, { st with infixLen := i.length }) ∧
        xattrBaseInfix sb r.nameIndex = some (st.index, i) ∧ st.name.take i.length = i ∧
        st.name.length = i.length + r.name.length := by
  have hindex : r.entry.eNameIndex = r.nameIndex := rfl
  have hlen : r.entry.eNameLen = r.name.length := rfl
  unfold xattrEntrymatch
  rw [hindex, hlen]
  by_cases hlong : xattrLongPrefix ≤ r.nameIndex
  · rw [if_pos hlong]
    have hbase : xattrBaseInfix sb r.nameIndex =
        (xattrLongItem sb r.nameIndex).map fun pf => (pf.baseIndex.toNat, pf.infixBytes) :=
      if_pos hlong
    unfold XattrMatches
    rw [hbase]
    cases hitem : xattrLongItem sb r.nameIndex with
    | none => exact Or.inl ⟨rfl, by rintro ⟨i, hi, -⟩; cases hi⟩
    | some pf =>
        dsimp only [Option.map_some]
        split
        · next hne =>
            refine Or.inl ⟨rfl, ?_⟩
            rintro ⟨i, hi, hname⟩
            obtain ⟨hb, rfl⟩ := Prod.mk.inj (Option.some.inj hi)
            rw [hname, List.length_append] at hne
            rcases hne with hne | hne
            · exact hne hb.symm
            · omega
        · next heq =>
            rw [not_or, not_not, not_not] at heq
            split
            · next hne =>
                refine Or.inl ⟨rfl, ?_⟩
                rintro ⟨i, hi, hname⟩
                obtain ⟨-, rfl⟩ := Prod.mk.inj (Option.some.inj hi)
                exact hne (by rw [hname, List.take_left])
            · next htake =>
                exact Or.inr ⟨pf.infixBytes, rfl, by rw [heq.1], not_not.mp htake, by omega⟩
  · rw [if_neg hlong]
    have hbase : xattrBaseInfix sb r.nameIndex = some (r.nameIndex, []) := if_neg hlong
    unfold XattrMatches
    rw [hbase]
    split
    · next hne =>
        refine Or.inl ⟨rfl, ?_⟩
        rintro ⟨i, hi, hname⟩
        obtain ⟨hb, rfl⟩ := Prod.mk.inj (Option.some.inj hi)
        rw [hname, hb] at hne
        exact hne.elim (fun h => h rfl) fun h => h rfl
    · next heq =>
        rw [not_or, not_not, not_not] at heq
        exact Or.inr ⟨[], rfl, by rw [heq.1], rfl, by rw [heq.2]; simp⟩

theorem findXattrHandlers_handles (sb : XattrSb) (r : XattrRecord) (st : GetxattrIter) :
    (findXattrHandlers sb).Handles r st (st.Outcome sb r) := by
  have hentry : (findXattrHandlers sb).entry r.entry st = xattrEntrymatch sb r.entry st := rfl
  have hsame : st.Same st := ⟨rfl, rfl, rfl, rfl⟩
  unfold XattrIterHandlers.Handles
  rw [hentry]
  rcases xattrEntrymatch_spec sb r st with ⟨hno, hmatch⟩ | ⟨i, hyes, hbase, htake, hlen⟩
  · rw [hno]
    refine ⟨fun _ => (GetxattrIter.outcome_neg hmatch).mpr ⟨rfl, hsame⟩, fun h => ?_⟩
    exact absurd h (by decide : eNoAttr ≠ 0)
  rw [hyes]
  refine ⟨fun h => absurd rfl h, fun _ => ?_⟩
  have hsplit : st.name = i ++ st.name.drop i.length := by
    calc st.name = st.name.take i.length ++ st.name.drop i.length :=
          (List.take_append_drop _ _).symm
      _ = i ++ st.name.drop i.length := by rw [htake]
  have hmatch : XattrMatches sb st.index st.name r ↔ r.name = st.name.drop i.length := by
    constructor
    · rintro ⟨j, hj, hname⟩
      rw [hbase] at hj
      cases hj
      rw [hname, List.drop_left]
    · intro hname
      exact ⟨i, hbase, by rw [hname]; exact hsplit⟩
  -- the pieces of the name that have been compared agree with the request
  refine ⟨fun p st' => st.Same st' ∧ st'.infixLen = i.length ∧
    r.name.take p = (st.name.drop i.length).take p, ⟨⟨rfl, rfl, rfl, rfl⟩, rfl, rfl⟩, ?_, ?_⟩
  · rintro p len st' ⟨hst, hinfix, hdone⟩ hle
    have hcall : (findXattrHandlers sb).name p ((r.name.drop p).take len) st' =
        if (r.name.drop p).take len ≠ ((st.name.drop i.length).drop p).take len then (eNoAttr, st')
        else (0, st') := by
      change xattrNamematch p _ st' = _
      rw [xattrNamematch, hst.name, hinfix, List.drop_drop, List.length_take, List.length_drop,
        Nat.min_eq_left (by omega)]
    dsimp only
    rw [hcall]
    by_cases hpiece : (r.name.drop p).take len = ((st.name.drop i.length).drop p).take len
    · rw [if_neg (not_not.mpr hpiece), if_pos rfl]
      refine ⟨hst, hinfix, ?_⟩
      rw [← take_append_take_drop, ← take_append_take_drop, hdone, hpiece]
    · rw [if_pos hpiece, if_neg (by decide : eNoAttr ≠ 0), GetxattrIter.outcome_neg]
      · exact ⟨rfl, hst⟩
      · rw [hmatch]
        intro hname
        exact hpiece (by rw [hname])
  · rintro st' ⟨hst, -, hdone⟩
    have hname : XattrMatches sb st.index st.name r := by
      rw [List.take_of_length_le le_rfl, List.take_of_length_le (by
        rw [List.length_drop]
        omega)] at hdone
      exact hmatch.mpr hdone
    have hcall : (findXattrHandlers sb).allocBuffer r.value.length st' =
        (if st.buffer.isNone then 1 else if st.bufferSize < r.value.length then eRange else 0,
          { st' with bufferSize := r.value.length }) := by
      change xattrCheckbuffer _ st' = _
      rw [xattrCheckbuffer, hst.buffer, hst.bufferSize]
    dsimp only
    simp only [hcall, GetxattrIter.outcome_pos hname, GetxattrIter.Found]
    cases hbuf : st.buffer with
    | none => exact ⟨fun _ => ⟨rfl, trivial⟩, fun h => absurd h (by decide : (1 : ℤ) ≠ 0)⟩
    | some b =>
        dsimp only [Option.isNone_some]
        by_cases hroom : st.bufferSize < r.value.length
        · simp only [if_pos hroom]
          exact ⟨fun _ => rfl, fun h => absurd h (by decide : eRange ≠ 0)⟩
        · simp only [if_neg hroom]
          refine ⟨fun h => absurd rfl h, fun _ => ?_⟩
          -- the pieces of the value that have been copied are in the buffer
          refine ⟨fun p st'' => st''.bufferSize = r.value.length ∧
            ∃ b, st''.buffer = some b ∧ Holds b 0 (r.value.take p),
            ⟨rfl, b, hst.buffer.trans hbuf, holds_nil b 0⟩, ?_, ?_⟩
          · rintro p len st'' ⟨hsize, b, hb, hholds⟩ hle
            have hstore := holds_store_append hholds ((r.value.drop p).take len)
            rw [take_append_take_drop, List.length_take, Nat.min_eq_left (by omega)] at hstore
            refine ⟨hsize, store b p ((r.value.drop p).take len), ?_, hstore⟩
            change st''.buffer.map _ = _
            rw [hb]
            rfl
          · rintro st'' ⟨hsize, b, hb, hholds⟩
            rw [List.take_of_length_le le_rfl] at hholds
            exact ⟨trivial, hsize, b, hb, hholds⟩

/-- What a function of the reader returns for a request with a value that it has found. -/
def GetxattrIter.Got (st : GetxattrIter) (value : List UInt8) (r : ℤ × GetxattrIter) : Prop :=
  match st.buffer with
  | none => r.1 = value.length
  | some _ =>
    if st.bufferSize < value.length then r.1 = eRange
    else r.1 = value.length ∧ ∃ b, r.2.buffer = some b ∧ Holds b 0 value

theorem GetxattrIter.Found.got {value : List UInt8} {err : ℤ} (h : st.Found value err st') :
    foreachRet err ≠ eNoAttr ∧
      st.Got value (if foreachRet err ≠ 0 then foreachRet err else st'.bufferSize, st') := by
  unfold Found at h
  unfold Got
  split at h
  · obtain ⟨rfl, hsize⟩ := h
    exact ⟨by decide, by rw [← hsize]; rfl⟩
  · split at h
    · obtain rfl := h
      exact ⟨by decide, by rw [if_pos (by assumption)]; rfl⟩
    · obtain ⟨rfl, hsize, hb⟩ := h
      exact ⟨by decide, by rw [if_neg (by assumption)]; exact ⟨by rw [← hsize]; rfl, hb⟩⟩

/-- The search for a request goes on while no record matches it, and ends with the first that
does. -/
theorem findXattrHandlers_keeps (sb : XattrSb) (st : GetxattrIter) (target : Option XattrRecord) :
    (findXattrHandlers sb).Keeps eNoAttr
      (fun rs st' => st.Same st' ∧ rs.find? (XattrMatches sb st.index st.name ·) = target)
      (fun ret st' => ∃ r err, target = some r ∧ st.Found r.value err st' ∧
        ret = foreachRet err) := by
  rintro r rs st' ⟨hsame, hfind⟩
  refine (findXattrHandlers_handles sb r st').imp fun err st'' hout => ?_
  unfold GetxattrIter.Outcome at hout
  rw [hsame.index, hsame.name] at hout
  by_cases hmatch : XattrMatches sb st.index st.name r
  · rw [if_pos hmatch] at hout
    rw [List.find?_cons_of_pos (by simpa using hmatch)] at hfind
    have hfound : st.Found r.value err st'' := by
      unfold GetxattrIter.Found at hout ⊢
      rwa [hsame.buffer, hsame.bufferSize] at hout
    rw [if_neg hfound.got.1]
    exact ⟨r, err, hfind.symm, hfound, rfl⟩
  · rw [if_neg hmatch] at hout
    rw [List.find?_cons_of_neg (by simpa using hmatch)] at hfind
    rw [hout.1, if_pos (by rfl)]
    exact ⟨hsame.trans hout.2, hfind⟩

end Get

section List

variable {sb : XattrSb} {st : ListxattrIter} {r : XattrRecord}

def xattrListing (sb : XattrSb) (rs : List XattrRecord) : List UInt8 :=
  (rs.filterMap (xattrKey sb)).flatMap (· ++ [0])

theorem xattrListing_cons (r : XattrRecord) (rs : List XattrRecord) :
    xattrListing sb (r :: rs) = xattrListing sb [r] ++ xattrListing sb rs := by
  unfold xattrListing
  cases h : xattrKey sb r <;> simp [h]

structure ListxattrIter.Wrote (st : ListxattrIter) (w : List UInt8) : Prop where
  bufferOfs : st.bufferOfs = w.length
  holds : ∀ b, st.buffer = some b → Holds b 0 w

theorem ListxattrIter.Wrote.append {w : List UInt8} (h : st.Wrote w) (bs : List UInt8)
    {b : Mem} (hb : st.buffer = some b) (size : ℕ) :
    Wrote (.mk (some (store b st.bufferOfs bs)) size (st.bufferOfs + bs.length)) (w ++ bs) where
  bufferOfs := by rw [List.length_append, h.bufferOfs]
  holds := by
    rintro _ ⟨⟩
    rw [h.bufferOfs]
    exact holds_store_append (h.holds b hb) bs

structure ListxattrIter.Added (st : ListxattrIter) (w : List UInt8) (st' : ListxattrIter) :
    Prop where
  wrote : st'.Wrote w
  isSome : st'.buffer.isSome = st.buffer.isSome
  bufferSize : st'.bufferSize = st.bufferSize

/-- The callbacks of `erofs_listxattr` at a record for which there is room. -/
theorem listXattrHandlers_handles {w : List UInt8} (hw : st.Wrote w)
    (hroom : st.buffer.isSome → w.length + (xattrListing sb [r]).length ≤ st.bufferSize) :
    (listXattrHandlers sb).Handles r st fun err st' =>
      err = 1 ∧ st.Added (w ++ xattrListing sb [r]) st' := by
  have hentry : (listXattrHandlers sb).entry r.entry st = xattrEntrylist sb r.entry st := rfl
  have hlen : r.entry.eNameLen = r.name.length := rfl
  have hindex : r.entry.eNameIndex = r.nameIndex := rfl
  have hone : ((1 : ℤ) = 0) → False := by decide
  unfold XattrIterHandlers.Handles
  rw [hentry, xattrEntrylist, hindex, hlen]
  unfold xattrListing xattrKey at *
  cases hbase : xattrBaseInfix sb r.nameIndex with
  | none =>
      refine ⟨fun _ => ⟨rfl, ?_, rfl, rfl⟩, fun h => (hone h).elim⟩
      simpa [hbase] using hw
  | some p =>
      obtain ⟨baseIndex, infixBytes⟩ := p
      dsimp only
      by_cases hskip : baseIndex = 0 ∨ xattrTypesSize ≤ baseIndex
      · rw [if_pos hskip]
        refine ⟨fun _ => ⟨rfl, ?_, rfl, rfl⟩, fun h => (hone h).elim⟩
        simpa [hbase, hskip] using hw
      rw [if_neg hskip]
      have hkey : (List.filterMap (fun r => match xattrBaseInfix sb r.nameIndex with
          | none => none
          | some (baseIndex, infixBytes) =>
            if baseIndex = 0 ∨ xattrTypesSize ≤ baseIndex then none
            else some ((xattrTypes baseIndex).getD [] ++ infixBytes ++ r.name)) [r]).flatMap
          (· ++ [0]) = (xattrTypes baseIndex).getD [] ++ infixBytes ++ r.name ++ [0] := by
        simp [hbase, hskip]
      rw [hkey] at hroom ⊢
      generalize (xattrTypes baseIndex).getD [] = pre at hroom ⊢
      simp only [List.length_append, List.length_singleton] at hroom
      cases hbuf : st.buffer with
      | none =>
          refine ⟨fun _ => ⟨rfl, ⟨?_, nofun⟩, by rw [hbuf], rfl⟩, fun h => (hone h).elim⟩
          simp only [hw.bufferOfs, List.length_append, List.length_singleton]
      | some b =>
          rw [hbuf] at hroom
          have hfits := hroom rfl
          dsimp only
          rw [if_neg (by rw [hw.bufferOfs]; omega)]
          refine ⟨fun h => absurd rfl h, fun _ => ?_⟩
          -- the pieces of the name that are in the buffer
          refine ⟨fun p st' => st.Added (w ++ (pre ++ infixBytes) ++ r.name.take p) st', ?_, ?_, ?_⟩
          · have happ := hw.append (pre ++ infixBytes) hbuf st.bufferSize
            rw [List.length_append] at happ
            exact ⟨by rw [List.take_zero, List.append_nil]; exact happ, by rw [hbuf]; rfl, rfl⟩
          · rintro p len st' ⟨hwrote, hsome, hsize⟩ hle
            rw [hbuf, Option.isSome_some] at hsome
            obtain ⟨b', hb'⟩ := Option.isSome_iff_exists.mp hsome
            have happ := hwrote.append ((r.name.drop p).take len) hb' st'.bufferSize
            rw [List.append_assoc _ (r.name.take p), take_append_take_drop] at happ
            have hcall : (listXattrHandlers sb).name p ((r.name.drop p).take len) st' =
                (0, .mk (some (store b' st'.bufferOfs ((r.name.drop p).take len))) st'.bufferSize
                  (st'.bufferOfs + ((r.name.drop p).take len).length)) := by
              change xattrNamelist p _ st' = _
              rw [xattrNamelist, hb', Option.map_some]
            rw [hcall, if_pos rfl]
            exact ⟨happ, by rw [hbuf]; rfl, hsize⟩
          · rintro st' ⟨hwrote, hsome, hsize⟩
            refine ⟨fun _ => ?_, fun h => (hone h).elim⟩
            rw [List.take_of_length_le le_rfl] at hwrote
            rw [hbuf, Option.isSome_some] at hsome
            obtain ⟨b', hb'⟩ := Option.isSome_iff_exists.mp hsome
            have happ := hwrote.append [0] hb' st'.bufferSize
            have hcall : (listXattrHandlers sb).allocBuffer r.value.length st' =
                (1, .mk (some (store b' st'.bufferOfs [0])) st'.bufferSize (st'.bufferOfs + 1)) := by
              change xattrSkipvalue r.value.length st' = _
              rw [xattrSkipvalue, hb', Option.map_some]
            rw [hcall]
            simp only [List.append_assoc] at happ ⊢
            exact ⟨trivial, happ, by rw [hbuf]; rfl, hsize⟩

theorem listXattrHandlers_keeps (sb : XattrSb) (st : ListxattrIter) (total : List UInt8)
    (hroom : st.buffer.isSome → total.length ≤ st.bufferSize) :
    (listXattrHandlers sb).Keeps 0
      (fun rs st' => ∃ w, st.Added w st' ∧ w ++ xattrListing sb rs = total)
      (fun _ _ => False) := by
  rintro r rs st' ⟨w, hadded, htotal⟩
  rw [xattrListing_cons, ← List.append_assoc] at htotal
  have hlen := congrArg List.length htotal
  rw [List.length_append, List.length_append] at hlen
  refine (listXattrHandlers_handles (r := r) hadded.wrote ?_).imp fun err st'' hout => ?_
  · intro hsome
    rw [hadded.isSome] at hsome
    have h := hroom hsome
    rw [hadded.bufferSize]
    omega
  · obtain ⟨rfl, hadd⟩ := hout
    rw [if_pos (by rfl)]
    exact ⟨_, ⟨hadd.wrote, hadd.isSome.trans hadded.isSome,
      hadd.bufferSize.trans hadded.bufferSize⟩, htotal⟩

end List

/-- The value that a loop of the reader has found, as its caller returns it. -/
theorem getxattr_of_done {dev : XattrDev} {sb : XattrSb} {st : GetxattrIter}
    {rs : List XattrRecord} {r : ℤ × GetxattrIter}
    (h : dev.Done eNoAttr
      (fun rs' st' => st.Same st' ∧ rs'.find? (XattrMatches sb st.index st.name ·) =
        rs.find? (XattrMatches sb st.index st.name ·))
      (fun ret st' => ∃ rec err, rs.find? (XattrMatches sb st.index st.name ·) = some rec ∧
        st.Found rec.value err st' ∧ ret = foreachRet err) r) :
    let r' : ℤ × GetxattrIter := (if r.1 ≠ 0 then r.1 else r.2.bufferSize, r.2)
    (r'.1 = eIo ∧ dev.Fails) ∨ match rs.find? (XattrMatches sb st.index st.name ·) with
      | none => r'.1 = eNoAttr ∧ st.Same r'.2
      | some rec => r'.1 ≠ eNoAttr ∧ st.Got rec.value r' := by
  rcases h with ⟨hio, hfails⟩ | ⟨hnext, hsame, hnone⟩ | ⟨hne, rec, err, hsome, hfound, hret⟩
  · refine Or.inl ⟨?_, hfails⟩
    rw [hio]
    rfl
  · rw [← hnone, hnext]
    exact Or.inr ⟨rfl, hsame⟩
  · refine Or.inr ?_
    rw [hsome, hret]
    refine ⟨?_, hfound.got.2⟩
    dsimp only
    split
    · exact hfound.got.1
    · unfold eNoAttr
      omega

structure StoresXattrs (dev : XattrDev) (sb : XattrSb) (vi : XattrInode)
    (inline shared : List XattrRecord) : Prop where
  size : xattrHeaderSize < vi.xattrIsize
  fits : xattrHeaderSpan (dev.blockMem sb) (vi.xattrPos sb) ≤ vi.xattrIsize
  entries : XattrEntries (dev.blockMem sb)
    (vi.xattrPos sb + xattrHeaderSpan (dev.blockMem sb) (vi.xattrPos sb))
    (vi.xattrIsize - xattrHeaderSpan (dev.blockMem sb) (vi.xattrPos sb)) inline
  shared_eq : shared = (dev.sharedIds sb vi).map (dev.sharedRecord sb)

section Inode

variable {dev : XattrDev} {sb : XattrSb} {vi : XattrInode} {inline shared : List XattrRecord}
variable {σ : Type*} {op : XattrIterHandlers σ} {next : ℤ}
variable {K : List XattrRecord → σ → Prop} {R : ℤ → σ → Prop}

/-- The loop over the inline entries of an inode, from where `inline_xattr_iter_pre` starts it. -/
theorem StoresXattrs.inlineLoop (hs : StoresXattrs dev sb vi inline shared)
    (hkeep : op.Keeps next K R) (hne : next ≠ eIo) {st : σ} (hK : K inline st) :
    match inlineXattrIterPre dev sb vi (dev.sharedIds sb vi) with
    | .error err => (err = eIo ∧ dev.Fails) ∨ (err = eNoAttr ∧ inline = [])
    | .ok (it, remaining) =>
      dev.Done next K R (xattrInlineLoop dev sb op next remaining remaining it st remaining) := by
  have hids := inlinexattrHeaderSize_eq dev sb vi
  have hheader := inlinexattrHeaderSize_mod (dev.sharedIds sb vi)
  have hmod := xattrPos_mod sb vi
  have hfits := hs.fits
  have hentries := hs.entries
  rw [← hids] at hfits hentries
  rcases Nat.lt_or_ge (inlinexattrHeaderSize (dev.sharedIds sb vi)) vi.xattrIsize with hlt | hge
  · have hpre := @inlineXattrIterPre_spec dev sb _ _ hlt
    cases hr : inlineXattrIterPre dev sb vi (dev.sharedIds sb vi) with
    | error err =>
        rw [hr] at hpre
        exact Or.inl hpre
    | ok r =>
        rw [hr] at hpre
        obtain ⟨it, remaining⟩ := r
        obtain ⟨hat, hrem⟩ := hpre
        dsimp only at hat hrem ⊢
        rw [← hrem] at hentries
        refine xattrInlineLoop_rule hkeep hentries hat (by omega) le_rfl hK ?_ hne
        intro hnil
        have h0 := hentries.nil_iff.mp hnil
        omega
  · unfold inlineXattrIterPre
    rw [if_pos hge]
    refine Or.inr ⟨rfl, ?_⟩
    exact hentries.nil_iff.mpr (by omega)

theorem inlineGetxattr_spec (hs : StoresXattrs dev sb vi inline shared) (st : GetxattrIter) :
    let r := inlineGetxattr dev sb vi (dev.sharedIds sb vi) st
    (r.1 = eIo ∧ dev.Fails) ∨ match inline.find? (XattrMatches sb st.index st.name ·) with
      | none => r.1 = eNoAttr ∧ st.Same r.2
      | some rec => r.1 ≠ eNoAttr ∧ st.Got rec.value r := by
  have hloop := hs.inlineLoop (findXattrHandlers_keeps sb st
    (inline.find? (XattrMatches sb st.index st.name ·))) (by decide) ⟨⟨rfl, rfl, rfl, rfl⟩, rfl⟩
  unfold inlineGetxattr
  cases hr : inlineXattrIterPre dev sb vi (dev.sharedIds sb vi) with
  | error err =>
      rw [hr] at hloop
      rcases hloop with hio | ⟨rfl, rfl⟩
      · exact Or.inl hio
      · exact Or.inr ⟨rfl, ⟨rfl, rfl, rfl, rfl⟩⟩
  | ok p =>
      rw [hr] at hloop
      dsimp only at hloop ⊢
      generalize xattrInlineLoop dev sb _ _ _ _ _ st _ = r at hloop ⊢
      exact getxattr_of_done hloop

/-- What a search through the shared entries returns. -/
theorem sharedGetxattr_spec (hs : StoresXattrs dev sb vi inline shared) (st : GetxattrIter) :
    let r := sharedGetxattr dev sb (dev.sharedIds sb vi) st
    (r.1 = eIo ∧ dev.Fails) ∨ match shared.find? (XattrMatches sb st.index st.name ·) with
      | none => r.1 = eNoAttr ∧ st.Same r.2
      | some rec => r.1 ≠ eNoAttr ∧ st.Got rec.value r := by
  have hloop := @xattrSharedLoop_rule _ _ _ _ _ _ _ _ _ _ none (findXattrHandlers_keeps sb st
      (shared.find? (XattrMatches sb st.index st.name ·))) nofun
    ⟨⟨rfl, rfl, rfl, rfl⟩, by rw [hs.shared_eq]⟩ (fun _ => rfl) (by decide)
  unfold sharedGetxattr
  exact getxattr_of_done hloop

theorem erofsGetxattr_spec (hs : StoresXattrs dev sb vi inline shared) {name : List UInt8}
    {index len size : ℕ} {buffer : Option Mem}
    (hname : erofsXattrPrefixMatches name = some (index, len))
    (hlen : (name.drop len).length ≤ erofsNameLen) :
    let r := erofsGetxattr dev sb vi name buffer size
    (r.1 = eIo ∧ dev.Fails) ∨
      match (inline ++ shared).find? (XattrMatches sb index (name.drop len) ·) with
      | none => r.1 = eNoAttr
      | some rec =>
        match buffer with
        | none => r.1 = rec.value.length
        | some _ =>
          if u32 size < rec.value.length then r.1 = eRange
          else r.1 = rec.value.length ∧ ∃ b, r.2 = some b ∧ Holds b 0 rec.value := by
  have hinit := @initInodeXattrs_spec dev sb _ hs.size
  unfold erofsGetxattr
  cases hr : initInodeXattrs dev sb vi with
  | error err =>
      rw [hr] at hinit
      exact Or.inl hinit
  | ok ids =>
      rw [hr] at hinit
      obtain rfl : ids = _ := hinit
      dsimp only
      rw [hname]
      dsimp only
      rw [if_neg (Nat.not_lt.mpr hlen)]
      generalize hst : (GetxattrIter.mk index (name.drop len) buffer (u32 size) 0) = st
      have hinline := inlineGetxattr_spec hs st
      generalize inlineGetxattr dev sb vi (dev.sharedIds sb vi) st = r at hinline ⊢
      rw [List.find?_append]
      rcases hinline with ⟨hio, hfails⟩ | hinline
      · rw [if_pos (by rw [hio]; decide)]
        exact Or.inl ⟨hio, hfails⟩
      cases hfind : inline.find? (XattrMatches sb st.index st.name ·) with
      | some rec =>
          rw [hfind] at hinline
          obtain ⟨hne, hgot⟩ := hinline
          subst hst
          dsimp only at hfind
          rw [if_pos hne, hfind]
          exact Or.inr hgot
      | none =>
          rw [hfind] at hinline
          obtain ⟨heq, hsame⟩ := hinline
          rw [if_neg (not_not.mpr heq)]
          have hshared := sharedGetxattr_spec hs r.2
          generalize sharedGetxattr dev sb (dev.sharedIds sb vi) r.2 = r' at hshared ⊢
          rw [hsame.index, hsame.name] at hshared
          subst hst
          dsimp only at hfind hshared
          rw [hfind, Option.none_or]
          rcases hshared with hio | hshared
          · exact Or.inl hio
          refine Or.inr ?_
          cases hrec : shared.find? (XattrMatches sb index (name.drop len) ·) with
          | none =>
              rw [hrec] at hshared
              exact hshared.1
          | some rec =>
              rw [hrec] at hshared
              have hgot := hshared.2
              unfold GetxattrIter.Got at hgot
              rw [hsame.buffer, hsame.bufferSize] at hgot
              exact hgot

/-- `erofs_listxattr` with room for all names, or to count them. -/
theorem erofsListxattr_spec (hs : StoresXattrs dev sb vi inline shared) {buffer : Option Mem}
    {size : ℕ} (hroom : buffer.isSome →
      (xattrListing sb (inline ++ shared)).length ≤ u32 size) :
    let r := erofsListxattr dev sb vi buffer size
    (r.1 = eIo ∧ dev.Fails) ∨ (r.1 = (xattrListing sb (inline ++ shared)).length ∧
      r.2.isSome = buffer.isSome ∧
      ∀ b, r.2 = some b → Holds b 0 (xattrListing sb (inline ++ shared))) := by
  have hsplit : xattrListing sb (inline ++ shared) =
      xattrListing sb inline ++ xattrListing sb shared := by
    unfold xattrListing
    rw [List.filterMap_append, List.flatMap_append]
  have hinit := @initInodeXattrs_spec dev sb _ hs.size
  unfold erofsListxattr
  cases hr : initInodeXattrs dev sb vi with
  | error err =>
      rw [hr] at hinit
      rw [hinit.1]
      exact Or.inl ⟨rfl, hinit.2⟩
  | ok ids =>
      rw [hr] at hinit
      obtain rfl : ids = _ := hinit
      dsimp only
      generalize hst : ListxattrIter.mk buffer (u32 size) 0 = st
      have hroom' : st.buffer.isSome →
          (xattrListing sb (inline ++ shared)).length ≤ st.bufferSize := by
        subst hst
        exact hroom
      have hwrote : st.Wrote [] := by
        subst hst
        exact ⟨rfl, fun b _ => holds_nil b 0⟩
      have hinline : let r := inlineListxattr dev sb vi (dev.sharedIds sb vi) st
          (r.1 = eIo ∧ dev.Fails) ∨ ((0 ≤ r.1 ∨ r.1 = eNoAttr) ∧
            st.Added (xattrListing sb inline) r.2) := by
        have hloop := hs.inlineLoop (listXattrHandlers_keeps sb st
          (xattrListing sb inline) (fun h => by
            have hle := hroom' h
            rw [hsplit, List.length_append] at hle
            omega)) (by decide) ⟨[], ⟨hwrote, rfl, rfl⟩, rfl⟩
        unfold inlineListxattr
        cases hr : inlineXattrIterPre dev sb vi (dev.sharedIds sb vi) with
        | error err =>
            rw [hr] at hloop
            rcases hloop with hio | ⟨rfl, rfl⟩
            · exact Or.inl hio
            · exact Or.inr ⟨Or.inr rfl, hwrote, rfl, rfl⟩
        | ok p =>
            rw [hr] at hloop
            dsimp only at hloop ⊢
            rcases hloop with ⟨hio, hfails⟩ | ⟨h0, w, hadded, hw⟩ | ⟨-, hfalse⟩
            · rw [if_pos (by rw [hio]; decide)]
              exact Or.inl ⟨hio, hfails⟩
            · rw [if_neg (not_not.mpr h0)]
              obtain rfl : w = xattrListing sb inline := by simpa [xattrListing] using hw
              exact Or.inr ⟨Or.inl (Int.natCast_nonneg _), hadded⟩
            · exact hfalse.elim
      generalize inlineListxattr dev sb vi (dev.sharedIds sb vi) st = r at hinline ⊢
      rcases hinline with ⟨hio, hfails⟩ | ⟨hret, hadded⟩
      · rw [if_pos (by rw [hio]; decide)]
        exact Or.inl ⟨hio, hfails⟩
      rw [if_neg (by rintro ⟨hneg, hne⟩; rcases hret with h | h; omega; exact hne h)]
      have hloop := @xattrSharedLoop_rule _ _ _ _ _ _ _ _ _ _ none (listXattrHandlers_keeps sb st
          (xattrListing sb (inline ++ shared)) hroom') nofun
        ⟨xattrListing sb inline, hadded, by rw [← hs.shared_eq, hsplit]⟩ (fun _ => rfl) (by decide)
      unfold sharedListxattr
      dsimp only
      rcases hloop with ⟨hio, hfails⟩ | ⟨h0, w, hadded', hw⟩ | ⟨-, hfalse⟩
      · rw [if_pos (by rw [hio]; decide)]
        exact Or.inl ⟨hio, hfails⟩
      · rw [if_neg (not_not.mpr h0)]
        obtain rfl : w = xattrListing sb (inline ++ shared) := by simpa [xattrListing] using hw
        have hsome := hadded'.isSome
        rw [← hst] at hsome
        exact Or.inr ⟨by rw [hadded'.wrote.bufferOfs], hsome, hadded'.wrote.holds⟩
      · exact hfalse.elim

/-- A name that has no predefined prefix, or is too long behind it, is not looked for. -/
theorem erofsGetxattr_refused (hs : StoresXattrs dev sb vi inline shared) {name : List UInt8}
    {buffer : Option Mem} {size : ℕ}
    (hname : ∀ index len, erofsXattrPrefixMatches name = some (index, len) →
      erofsNameLen < (name.drop len).length) :
    (erofsGetxattr dev sb vi name buffer size).1 < 0 := by
  have hinit := @initInodeXattrs_spec dev sb _ hs.size
  unfold erofsGetxattr
  cases hr : initInodeXattrs dev sb vi with
  | error err =>
      rw [hr] at hinit
      rw [hinit.1]
      exact (by decide : eIo < 0)
  | ok ids =>
      dsimp only
      cases hm : erofsXattrPrefixMatches name with
      | none => exact (by decide : eNoAttr < 0)
      | some p =>
          dsimp only
          rw [if_pos (hname p.1 p.2 hm)]
          exact (by decide : eRange < 0)

end Inode

end ErofsUtils
