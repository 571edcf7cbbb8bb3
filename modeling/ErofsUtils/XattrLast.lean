import ErofsUtils.XattrReadBack

/-!
# The last value set for a name

`erofs_setxattr` puts a node in front of the list of its inode whether the name is set or not, and
the inline entries are exported from the end of that list. So the reader, which takes the first entry
of a name, finds the value that was set last just as long as no name is set twice.
-/

namespace ErofsUtils
open ByteMemory CString

/-- The value that was last set for each name of each inode, and not removed or exported since. -/
abbrev LastSets := ℕ → List UInt8 → Option (List UInt8)

def lastSetStep (op : XattrOp) (last : LastSets) : LastSets :=
  match op with
  | .set ino key value =>
    if (erofsXattrPrefixMatches key).isSome then
      Function.update last ino (Function.update (last ino) key (some value))
    else last
  | .remove ino key => Function.update last ino (Function.update (last ino) key none)
  | .exportIbody ino => Function.update last ino fun _ => none
  | .count _ _ | .share _ | .clean _ => last

def lastSets (ops : List XattrOp) : LastSets :=
  ops.foldl (fun last op => lastSetStep op last) fun _ _ => none

/-- A step over the lists which sets no name that is set already. -/
def XattrOp.SetsOnce (op : XattrOp) (s : XattrHeap) : Prop :=
  op.Tracks s ∧ ∀ ino key value, op = .set ino key value →
    KeyFits key value ∧ key ∉ (s.xattrsOf ino).map Prod.fst

structure LastAgree (lists : XattrLists) (last : LastSets) : Prop where
  fits : ∀ ino kv, kv ∈ lists ino → KeyFits kv.1 kv.2
  nodup : ∀ ino, ((lists ino).map Prod.fst).Nodup
  last_eq : ∀ ino key value, last ino key = some value ↔ (key, value) ∈ lists ino

section Lists

variable {cfg : XattrCfg} {s : XattrHeap} {lists : XattrLists} {last : LastSets}

/-- A name that is not set yet comes in front. -/
theorem LastAgree.set (h : LastAgree lists last) {ino : ℕ} {key value : List UInt8}
    (hfits : KeyFits key value) (hnew : key ∉ (lists ino).map Prod.fst) :
    LastAgree (listStep (.set ino key value) lists) (lastSetStep (.set ino key value) last) := by
  rw [listStep, lastSetStep]
  split
  next =>
    refine ⟨fun i kv hkv => ?_, fun i => ?_, fun i k v => ?_⟩
    · rw [Function.update_apply] at hkv
      split at hkv
      · rcases List.mem_cons.mp hkv with rfl | hkv
        · exact hfits
        · exact h.fits ino kv hkv
      · exact h.fits i kv hkv
    · rw [Function.update_apply]
      split
      · exact List.nodup_cons.mpr ⟨hnew, h.nodup ino⟩
      · exact h.nodup i
    · rw [Function.update_apply, Function.update_apply]
      by_cases hi : i = ino
      · rw [if_pos hi, if_pos hi, Function.update_apply, List.mem_cons, Prod.mk.injEq]
        by_cases hk : k = key
        · -- the list holds no other value of the name
          have hno : (k, v) ∉ lists ino := fun hmem =>
            hnew (hk ▸ List.mem_map.mpr ⟨(k, v), hmem, rfl⟩)
          rw [if_pos hk, Option.some.injEq]
          exact ⟨fun hv => Or.inl ⟨hk, hv.symm⟩, fun hor =>
            (hor.resolve_right hno).2.symm⟩
        · rw [if_neg hk, h.last_eq]
          exact ⟨Or.inr, fun hor => hor.resolve_left fun heq => hk heq.1⟩
      · rw [if_neg hi, if_neg hi]
        exact h.last_eq i k v
  next => exact h

theorem LastAgree.remove (h : LastAgree lists last) (ino : ℕ) (key : List UInt8) :
    LastAgree (listStep (.remove ino key) lists) (lastSetStep (.remove ino key) last) := by
  rw [listStep, lastSetStep]
  refine ⟨fun i kv hkv => ?_, fun i => ?_, fun i k v => ?_⟩
  · rw [Function.update_apply] at hkv
    split at hkv
    · exact h.fits ino kv (List.mem_filter.mp hkv).1
    · exact h.fits i kv hkv
  · rw [Function.update_apply]
    split
    · exact (h.nodup ino).sublist (List.filter_sublist.map Prod.fst)
    · exact h.nodup i
  · rw [Function.update_apply, Function.update_apply]
    by_cases hi : i = ino
    · rw [if_pos hi, if_pos hi, Function.update_apply, List.mem_filter]
      by_cases hk : k = key
      · simp [hk]
      · rw [if_neg hk, h.last_eq]
        simp [hk]
    · rw [if_neg hi, if_neg hi]
      exact h.last_eq i k v

theorem LastAgree.exportIbody (h : LastAgree lists last) (ino : ℕ) :
    LastAgree (listStep (.exportIbody ino) lists) (lastSetStep (.exportIbody ino) last) := by
  rw [listStep, lastSetStep]
  refine ⟨fun i kv hkv => ?_, fun i => ?_, fun i k v => ?_⟩
  · rw [Function.update_apply] at hkv
    split at hkv
    · cases hkv
    · exact h.fits i kv hkv
  · rw [Function.update_apply]
    split
    · exact List.nodup_nil
    · exact h.nodup i
  · rw [Function.update_apply, Function.update_apply]
    by_cases hi : i = ino
    · rw [if_pos hi, if_pos hi]
      simp
    · rw [if_neg hi, if_neg hi]
      exact h.last_eq i k v

/-- A step that sets no name twice keeps the lists in agreement with what was set last. -/
theorem xattrStep_setsOnce {op : XattrOp} (ht : s.Tracked cfg) (ha : LastAgree s.xattrsOf last)
    (hop : op.SetsOnce s) :
    ∃ s', xattrStep cfg op s = some s' ∧ s'.Tracked cfg ∧
      LastAgree s'.xattrsOf (lastSetStep op last) := by
  cases op with
  | count key value =>
      obtain ⟨s', heq, ht', hlists⟩ := tracked_count ht hop.1
      exact ⟨s', heq, ht', hlists ▸ ha⟩
  | share slot =>
      obtain ⟨s', heq, ht', hlists⟩ := tracked_share ht hop.1
      exact ⟨s', heq, ht', hlists ▸ ha⟩
  | clean sharedxattrs =>
      obtain ⟨s', heq, ht', hlists⟩ := tracked_clean ht hop.1.1 hop.1.2
      exact ⟨s', heq, ht', hlists ▸ ha⟩
  | set ino key value =>
      obtain ⟨hfits, hnew⟩ := hop.2 ino key value rfl
      obtain ⟨s', heq, ht', hlists⟩ := tracked_set ht ino hop.1
      exact ⟨s', heq, ht', hlists ▸ ha.set hfits hnew⟩
  | remove ino key =>
      obtain ⟨s', heq, ht', hlists⟩ := tracked_remove ht ino key
      exact ⟨s', heq, ht', hlists ▸ ha.remove ino key⟩
  | exportIbody ino =>
      obtain ⟨s', heq, ht', hlists⟩ := tracked_export ht ino
      exact ⟨s', heq, ht', hlists ▸ ha.exportIbody ino⟩

theorem XattrHeap.empty_tracked (area : Mem) : (XattrHeap.empty area).Tracked cfg where
  wf := XattrHeap.empty_wf area
  balanced := (XattrHeap.empty_sound area).toBalanced
  shared_counted _ h := absurd h List.not_mem_nil
  made _ _ h := by cases h
  placed _ _ h := by cases h

theorem xattrRun_setsOnce {area : Mem} {ops : List XattrOp}
    (hops : ∀ done op, done ++ [op] <+: ops →
      ∃ s, xattrRun cfg done (.empty area) = some s ∧ op.SetsOnce s) :
    ∀ done, done <+: ops → ∃ s, xattrRun cfg done (.empty area) = some s ∧ s.Tracked cfg ∧
      LastAgree s.xattrsOf (lastSets done) := by
  intro done
  induction done using List.reverseRecOn with
  | nil =>
      intro _
      refine ⟨_, rfl, XattrHeap.empty_tracked area, fun i kv hkv => absurd hkv List.not_mem_nil,
        fun i => List.nodup_nil, fun i k v => ?_⟩
      exact iff_of_false (fun h => by cases h) List.not_mem_nil
  | append_singleton done op ih =>
      intro hpre
      obtain ⟨s, hrun, ht, ha⟩ := ih ((List.prefix_append done [op]).trans hpre)
      obtain ⟨s₁, hrun₁, hop⟩ := hops done op hpre
      rw [hrun] at hrun₁
      cases hrun₁
      obtain ⟨s', hstep, ht', ha'⟩ := xattrStep_setsOnce ht ha hop
      refine ⟨s', by rw [xattrRun_append, hrun, Option.bind_some, hstep], ht', ?_⟩
      rw [lastSets, List.foldl_append]
      exact ha'

end Lists

/-- The area of an inode has one entry for each name that is set, and the reader returns the value
that was set last. -/
def LastSetWins (cfg : XattrCfg) (s : XattrHeap) (ino : ℕ)
    (last : List UInt8 → Option (List UInt8)) : Prop :=
  ∀ nameFilter size, PreparedSize s ino size → areaSize s.items (s.ixattrs ino) < 2 ^ 32 →
    CountFits size → ∃ bytes, exportedBytes nameFilter size ino s = some bytes ∧
      ∀ dev sb vi, HoldsInode cfg s size bytes dev sb vi →
        ∃ rs, AreaRecords dev sb vi rs ∧ (rs.filterMap (xattrKey sb)).Nodup ∧
          ∀ key, match last key with
            | some value => GetsValue dev sb vi key value
            | none => ∀ buffer size, (erofsGetxattr dev sb vi key buffer size).1 < 0

section Wins

variable {cfg : XattrCfg} {s : XattrHeap} {last : LastSets}

theorem lastSetWins (ht : s.Tracked cfg) (ha : LastAgree s.xattrsOf last) (ino : ℕ) :
    LastSetWins cfg s ino (last ino) := by
  intro nameFilter size hsize harea hcount
  obtain ⟨bytes, hbytes, hread⟩ :=
    exported_area ht (ha.fits ino) hsize harea hcount
  refine ⟨bytes, hbytes, fun dev sb vi himage => ?_⟩
  rcases hread dev sb vi himage with ⟨hsmall, hnil⟩ | ⟨inline, shared, k, hs, heq⟩
  · refine ⟨[], Or.inl ⟨hsmall, rfl⟩, List.nodup_nil, fun key => ?_⟩
    have hnone : last ino key = none := by
      cases hkey : last ino key with
      | none => rfl
      | some value =>
          have hmem := (ha.last_eq ino key value).mp hkey
          rw [XattrHeap.xattrsOf, hnil] at hmem
          cases hmem
    rw [hnone]
    exact getxattr_of_small hsmall key
  · have hperm := @namedXattrs_area _ _ ino _ ht himage.table k
    rw [← heq] at hperm
    have hkeys := hperm.map Prod.fst
    rw [← filterMap_xattrKey] at hkeys
    have hnodup := hkeys.nodup_iff.mpr (ha.nodup ino)
    refine ⟨inline ++ shared, Or.inr ⟨inline, shared, hs, rfl⟩, hnodup, fun key => ?_⟩
    cases hkey : last ino key with
    | some value =>
        have hmem := (ha.last_eq ino key value).mp hkey
        exact getsValue_of_mem ht himage.table hs heq hnodup (ha.fits ino _ hmem) hmem
    | none =>
        refine getxattr_of_not_mem hs fun hin => ?_
        obtain ⟨⟨k', value⟩, hmem, rfl⟩ := List.mem_map.mp (hkeys.mem_iff.mp hin)
        rw [(ha.last_eq ino k' value).mpr hmem] at hkey
        cases hkey

/-- In a run that sets no name of an inode again before it is removed or exported, every state has
one entry for each name in each area that can be exported, and the reader returns the value that was
set last. -/
theorem lastSet_wins {area : Mem} {ops : List XattrOp}
    (hops : ∀ done op, done ++ [op] <+: ops →
      ∃ s, xattrRun cfg done (.empty area) = some s ∧ op.SetsOnce s) :
    ∀ done, done <+: ops → ∃ s, xattrRun cfg done (.empty area) = some s ∧
      ∀ ino, LastSetWins cfg s ino (lastSets done ino) := by
  intro done hpre
  obtain ⟨s, hrun, ht, ha⟩ := xattrRun_setsOnce hops done hpre
  exact ⟨s, hrun, fun ino => lastSetWins ht ha ino⟩

end Wins

def userA : List UInt8 := xattrUserPrefix ++ [97]

def userB : List UInt8 := xattrUserPrefix ++ [98]

def setAgain : List XattrOp :=
  [.set 0 userA [49], .set 0 userB [50], .remove 0 userA, .set 0 userA [51, 51]]

theorem keyFits_user {c : UInt8} {value : List UInt8}
    (hm : erofsXattrPrefixMatches (xattrUserPrefix ++ [c]) = some (1, 5))
    (h : value.length ≤ 65535) : KeyFits (xattrUserPrefix ++ [c]) value := by
  refine ⟨h, fun index len hlen => ?_⟩
  obtain ⟨rfl, rfl⟩ := Prod.mk.inj (Option.some.inj (hm.symm.trans hlen))
  change ([c] : List UInt8).length ≤ erofsNameLen
  exact (by decide : 1 ≤ erofsNameLen)

theorem exists_setsOnce {cfg : XattrCfg} {area : Mem} {done : List XattrOp} {ino : ℕ}
    {key value : List UInt8} (hfits : KeyFits key value)
    (h : (xattrRun cfg done (.empty area)).any (fun s =>
      decide (findXattritem s.items (eaBucket key value) key value s.table = some none) &&
        decide (key ∉ (s.xattrsOf ino).map Prod.fst)) = true) :
    ∃ s, xattrRun cfg done (.empty area) = some s ∧ (XattrOp.set ino key value).SetsOnce s := by
  obtain ⟨s, hrun, hs⟩ := (Option.any_eq_true _ _).mp h
  obtain ⟨hlook, hnew⟩ := Bool.and_eq_true_iff.mp hs
  refine ⟨s, hrun, ⟨none, of_decide_eq_true hlook, nofun⟩, fun ino' key' value' heq => ?_⟩
  cases heq
  exact ⟨hfits, of_decide_eq_true hnew⟩

theorem lastSet_wins_setAgain :
    lastSets setAgain 0 userA = some [51, 51] ∧ lastSets setAgain 0 userB = some [50] ∧
      ∃ s, xattrRun plainXattrCfg setAgain (.empty fun _ => 0) = some s ∧
        ∀ ino, LastSetWins plainXattrCfg s ino (lastSets setAgain ino) := by
  refine ⟨by decide +kernel, by decide +kernel,
    lastSet_wins (fun done op hpre => ?_) _ List.prefix_rfl⟩
  have hfits : ∀ value : List UInt8, value.length ≤ 2 → KeyFits userA value :=
    fun _ h => keyFits_user (by decide) (by omega)
  obtain ⟨rest, hrest⟩ := hpre
  rcases done with _ | ⟨_, _ | ⟨_, _ | ⟨_, _ | ⟨_, done⟩⟩⟩⟩
  · cases hrest
    exact exists_setsOnce (hfits _ (by decide)) (by decide +kernel)
  · cases hrest
    exact exists_setsOnce (keyFits_user (by decide) (by decide)) (by decide +kernel)
  · cases hrest
    obtain ⟨s, hrun⟩ := Option.isSome_iff_exists.mp (by decide +kernel :
      (xattrRun plainXattrCfg [.set 0 userA [49], .set 0 userB [50]] (.empty fun _ => 0)).isSome =
        true)
    exact ⟨s, hrun, trivial, nofun⟩
  · cases hrest
    exact exists_setsOnce (hfits _ (by decide)) (by decide +kernel)
  · have hlen := congrArg List.length hrest
    simp [setAgain] at hlen

def twiceSet : List XattrOp := [.set 0 userA [49], .set 0 userA [50, 50]]

/-- Its area: both entries, the older one first. -/
def twiceSetBytes : List UInt8 :=
  List.replicate 12 0 ++ [1, 1, 1, 0, 97, 49, 0, 0, 1, 1, 2, 0, 97, 50, 50, 0]

def twiceSetDev : XattrDev := XattrDev.readable fun p =>
  if p < 32 then 0 else (twiceSetBytes[p - 32]?).getD 0

/-- The reader returns the value that was set first. -/
theorem twiceSet_first :
    (erofsGetxattr twiceSetDev plainXattrSb twoEntryInode userA none 0).1 = 1 ∧
      ¬ ∀ done, done <+: twiceSet → ∃ s, xattrRun plainXattrCfg done (.empty fun _ => 0) = some s ∧
        ∀ ino, LastSetWins plainXattrCfg s ino (lastSets done ino) := by
  have hget : (erofsGetxattr twiceSetDev plainXattrSb twoEntryInode userA none 0).1 = 1 := by
    decide +kernel
  refine ⟨hget, fun hwins => ?_⟩
  obtain ⟨s, hrun, hwins⟩ := hwins twiceSet List.prefix_rfl
  have heval : ((xattrRun plainXattrCfg twiceSet (.empty fun _ => 0)).all fun s =>
      decide (erofsPrepareXattrIbody 0 ((s.ixattrs 0).filterMap s.items) 0 false = some (28, 28)) &&
      decide (areaSize s.items (s.ixattrs 0) = 28) &&
      decide (exportedBytes 0 28 0 s = some twiceSetBytes) && decide (s.shared = [])) = true := by
    decide +kernel
  rw [hrun, Option.all_some] at heval
  simp only [Bool.and_eq_true, decide_eq_true_eq] at heval
  obtain ⟨⟨⟨hprep, harea⟩, hbytes⟩, hshared⟩ := heval
  obtain ⟨bytes, hbytes', hread⟩ := hwins 0 0 28 ⟨0, 0, false, 28, by decide, by decide, hprep⟩
    (by rw [harea]; decide) (Or.inr (by decide))
  rw [hbytes] at hbytes'
  cases hbytes'
  have himage : HoldsInode plainXattrCfg s 28 twiceSetBytes twiceSetDev plainXattrSb
      twoEntryInode :=
    { table := rfl
      icount := by decide
      body := by
        intro i b hb
        have hlt := (List.getElem?_eq_some_iff.mp hb).1
        have hall : ∀ i < 28, some (twiceSetDev.blockMem plainXattrSb
            (twoEntryInode.xattrPos plainXattrSb + i)) = twiceSetBytes[i]? := by decide +kernel
        exact Option.some.inj ((hall i hlt).trans hb)
      shared := fun id hid => by
        rw [hshared] at hid
        cases hid }
  obtain ⟨rs, -, -, hkeys⟩ := hread _ _ _ himage
  have hlast : lastSets twiceSet 0 userA = some [50, 50] := by decide +kernel
  have hvalue := hkeys userA
  rw [hlast] at hvalue
  rcases hvalue none 0 with ⟨-, pos, len, err, hfails⟩ | hlength
  · cases hfails
  · rw [hget] at hlength
    exact absurd hlength (by decide)

end ErofsUtils
