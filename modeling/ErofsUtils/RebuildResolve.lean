import ErofsUtils.RebuildSound

/-!
# Path resolution

A lookup returns the dentry of the last name of its path. That is the dentry which the path
denotes unless the path goes up after this name; a name that does not fit is cut, and a file
before a slash ends the lookup with the slash overwritten.
-/

namespace ErofsUtils

open TreeHeap

section LastName

variable {aufs : Bool}

/-- The path goes up again after its last name. -/
def EndsAbove (aufs : Bool) (cs : List PathComponent) : Prop :=
  ∃ pre c post, cs = pre ++ c :: post ∧ NamesEntry aufs c ∧
    (∀ c' ∈ post, ¬NamesEntry aufs c') ∧ ∃ c' ∈ post, c'.1 = dotdotName

theorem foldl_no_entry_le {post : List PathComponent} (h : ∀ c ∈ post, ¬NamesEntry aufs c)
    (st : List Name) : (post.foldl (pushComponent aufs) st).length ≤ st.length := by
  induction post generalizing st with
  | nil => exact le_rfl
  | cons c post ih =>
    have hpush := pushComponent_other aufs st (h c List.mem_cons_self)
    have hrest := ih (fun c' hc' => h c' (List.mem_cons_of_mem _ hc')) (pushComponent aufs st c)
    rw [List.foldl_cons]
    apply hrest.trans
    rw [hpush]
    split
    · simp
    · exact le_rfl

theorem foldl_no_entry_eq {post : List PathComponent} (h : ∀ c ∈ post, ¬NamesEntry aufs c)
    (hno : ∀ c ∈ post, c.1 ≠ dotdotName) (st : List Name) :
    post.foldl (pushComponent aufs) st = st := by
  induction post with
  | nil => rfl
  | cons c post ih =>
    have hpush := pushComponent_other aufs st (h c List.mem_cons_self)
    rw [List.foldl_cons, hpush, if_neg (hno c List.mem_cons_self)]
    exact ih (fun c' hc' => h c' (List.mem_cons_of_mem _ hc'))
      (fun c' hc' => hno c' (List.mem_cons_of_mem _ hc'))

theorem foldl_no_entry_lt {post : List PathComponent} (h : ∀ c ∈ post, ¬NamesEntry aufs c)
    (hup : ∃ c ∈ post, c.1 = dotdotName) {st : List Name} (hst : st ≠ []) :
    (post.foldl (pushComponent aufs) st).length < st.length := by
  induction post with
  | nil => simp at hup
  | cons c post ih =>
    have hpush := pushComponent_other aufs st (h c List.mem_cons_self)
    have hpost : ∀ c' ∈ post, ¬NamesEntry aufs c' := fun c' hc' =>
      h c' (List.mem_cons_of_mem _ hc')
    rw [List.foldl_cons, hpush]
    by_cases hc : c.1 = dotdotName
    · rw [if_pos hc]
      have hlen := List.length_pos_iff.2 hst
      have hle := foldl_no_entry_le hpost st.tail
      rw [List.length_tail] at hle
      omega
    · rw [if_neg hc]
      apply ih hpost
      obtain ⟨c', hc', heq⟩ := hup
      rcases List.mem_cons.1 hc' with rfl | hc'
      · exact absurd heq hc
      · exact ⟨c', hc', heq⟩

theorem walkedFrom_no_entry {post : List PathComponent} (h : ∀ c ∈ post, ¬NamesEntry aufs c)
    (st : List Name) : walkedFrom aufs st post = [] := by
  induction post generalizing st with
  | nil => rfl
  | cons c post ih =>
    rw [walkedFrom_other aufs _ _ (h c List.mem_cons_self)]
    exact ih (fun c' hc' => h c' (List.mem_cons_of_mem _ hc')) _

theorem walkedFrom_append (pre cs : List PathComponent) (st : List Name) :
    walkedFrom aufs st (pre ++ cs) =
      walkedFrom aufs st pre ++ walkedFrom aufs (pre.foldl (pushComponent aufs) st) cs := by
  induction pre generalizing st with
  | nil => rfl
  | cons c pre ih =>
    rw [List.cons_append, List.foldl_cons]
    by_cases hc : NamesEntry aufs c
    · rw [walkedFrom_entry aufs _ _ hc, walkedFrom_entry aufs _ _ hc, ih, List.cons_append]
    · rw [walkedFrom_other aufs _ _ hc, walkedFrom_other aufs _ _ hc, ih]

theorem exists_last_entry {cs : List PathComponent} (h : ∃ c ∈ cs, NamesEntry aufs c) :
    ∃ pre c post, cs = pre ++ c :: post ∧ NamesEntry aufs c ∧
      ∀ c' ∈ post, ¬NamesEntry aufs c' := by
  induction cs with
  | nil => simp at h
  | cons c cs ih =>
    by_cases hcs : ∃ c' ∈ cs, NamesEntry aufs c'
    · obtain ⟨pre, d, post, rfl, hd, hpost⟩ := ih hcs
      exact ⟨c :: pre, d, post, rfl, hd, hpost⟩
    · obtain ⟨d, hd, hent⟩ := h
      have hdc : d = c := by
        rcases List.mem_cons.1 hd with hd | hd
        · exact hd
        · exact absurd ⟨d, hd, hent⟩ hcs
      subst hdc
      exact ⟨[], d, cs, rfl, hent, fun c' hc' hent' => hcs ⟨c', hc', hent'⟩⟩

theorem walked_split {cs pre post : List PathComponent} {c : PathComponent}
    (hcs : cs = pre ++ c :: post) (hc : NamesEntry aufs c)
    (hpost : ∀ c' ∈ post, ¬NamesEntry aufs c') :
    ∃ p, p ≠ [] ∧ (walkedFrom aufs [] cs).getLast? = some p ∧
      normalise aufs cs = post.foldl (pushComponent aufs) p := by
  refine ⟨pushComponent aufs (pre.foldl (pushComponent aufs) []) c, ?_, ?_, ?_⟩
  · rw [pushComponent_entry aufs hc]
    exact List.cons_ne_nil _ _
  · rw [hcs, walkedFrom_append, walkedFrom_entry aufs _ _ hc, walkedFrom_no_entry hpost,
      List.getLast?_concat]
  · rw [hcs]
    unfold normalise
    rw [List.foldl_append, List.foldl_cons]

/-- A path denotes the entry of its last name exactly if it does not go up after it. -/
theorem normalise_last {cs : List PathComponent} :
    match (walkedFrom aufs [] cs).getLast? with
    | none => normalise aufs cs = [] ∧ ¬EndsAbove aufs cs
    | some p => p ≠ [] ∧ (EndsAbove aufs cs → (normalise aufs cs).length < p.length) ∧
        (¬EndsAbove aufs cs → normalise aufs cs = p) := by
  by_cases hex : ∃ c ∈ cs, NamesEntry aufs c
  · obtain ⟨pre, c, post, hcs, hc, hpost⟩ := exists_last_entry hex
    obtain ⟨p, hp, hlast, hnorm⟩ := walked_split hcs hc hpost
    rw [hlast]
    refine ⟨hp, ?_, ?_⟩
    · rintro ⟨pre', c', post', hcs', hc', hpost', hup'⟩
      obtain ⟨p', hp', hlast', hnorm'⟩ := walked_split hcs' hc' hpost'
      have hpp : p' = p := Option.some.inj (hlast'.symm.trans hlast)
      rw [hnorm', ← hpp]
      exact foldl_no_entry_lt hpost' hup' hp'
    · intro hna
      rw [hnorm]
      apply foldl_no_entry_eq hpost
      intro c' hc' hup
      exact hna ⟨pre, c, post, hcs, hc, hpost, c', hc', hup⟩
  · have hno : ∀ c ∈ cs, ¬NamesEntry aufs c := fun c hc hent => hex ⟨c, hc, hent⟩
    rw [walkedFrom_no_entry hno]
    refine ⟨?_, ?_⟩
    · have hle := foldl_no_entry_le hno ([] : List Name)
      exact List.length_eq_zero_iff.1 (Nat.le_zero.1 hle)
    · rintro ⟨pre, c, post, rfl, hc, -⟩
      exact hno c (by simp) hc

end LastName

/-! ## One call -/

/-- The outcome that a path calls for: the dentry at its normal form, no other change to the
entries than the ones that the names of the path made, and every name found. -/
structure Denoted (aufs : Bool) (t : TreeHeap) (root : ℕ) (cs : List PathComponent)
    (w : LookupState) : Prop where
  null : w.d = 0 ↔ normalise aufs cs = []
  entry : normalise aufs cs ≠ [] → w.tree.entryAt root (normalise aufs cs) = some w.d
  keep : ∀ p e, t.entryAt root p = some e →
    w.tree.entryAt root p = some e ∧ w.tree.dentry e = t.dentry e
  made : ∀ p e, Proper p → w.tree.entryAt root p = some e →
    t.entryAt root p = some e ∨ p ∈ walkedFrom aufs [] cs
  found : ∀ p ∈ walkedFrom aufs [] cs, w.tree.entryAt root p ≠ none
  unique : w.tree.NamesUnique

/-- `erofs_rebuild_get_dentry` resolves the path and leaves the string as it was. -/
def ResolvesPath (t : TreeHeap) (root : ℕ) (path : List Char) (aufs toHead : Bool) : Prop :=
  (erofsRebuildGetDentry t root path aufs toHead).path = path ∧
    ∃ w, (erofsRebuildGetDentry t root path aufs toHead).ret = .ok w ∧
      Denoted aufs t root (components path) w

/-- A path that a caller passes with the directory it starts at: the root of the tree, or any
directory if the path does not go up. -/
structure PathFrom (t : TreeHeap) (root : ℕ) (path : List Char) : Prop where
  start : 0 < root ∧ root < t.nextInode
  nul : '\x00' ∉ path
  up : (t.inode root).iParent = root ∨ ∀ c ∈ components path, c.1 ≠ dotdotName

section Call

variable {t : TreeHeap} {root : ℕ} {path : List Char} {aufs toHead : Bool}

theorem TreeHeap.WellFormed.entry_pos (h : t.WellFormed) {p : List Name} {e : ℕ}
    (he : t.entryAt root p = some e) : e ≠ 0 := by
  cases p with
  | nil => cases he
  | cons n p =>
    obtain ⟨i, -, hmem, -⟩ := entryAt_cons he
    have := (h.dentries i e hmem).1
    omega

theorem TreeHeap.WellFormed.subdir_depth (h : t.WellFormed) {p q : List Name} {e : ℕ}
    (hp : Proper p) (hq : Proper q) (hpe : t.entryAt root p = some e)
    (hqe : t.entryAt root q = some e) (hty : (t.dentry e).type = .dir) : p.length = q.length := by
  cases p with
  | nil => cases hpe
  | cons n p =>
    cases q with
    | nil => cases hqe
    | cons m q =>
      obtain ⟨i, hi, hmem, hn⟩ := entryAt_cons hpe
      obtain ⟨j, hj, hmem', hm⟩ := entryAt_cons hqe
      have hnd : ¬isDotDotdot (t.dentry e).name := by
        rw [hn]
        exact hp n List.mem_cons_self
      have hij : i = j := (h.up i e ⟨hmem, hty, hnd⟩).symm.trans (h.up j e ⟨hmem', hty, hnd⟩)
      subst hij
      have hp' : Proper p := fun k hk => hp k (List.mem_cons_of_mem _ hk)
      have hq' : Proper q := fun k hk => hq k (List.mem_cons_of_mem _ hk)
      rw [List.length_cons, List.length_cons, h.dirAt_inj hp' hq' hi hj]

theorem entryName_of_walked {st : List Name} {cs : List PathComponent} {c : PathComponent}
    (hc : c ∈ cs) (hent : NamesEntry aufs c) :
    ∃ p, entryName aufs c :: p ∈ walkedFrom aufs st cs := by
  induction cs generalizing st with
  | nil => simp at hc
  | cons d cs ih =>
    unfold walkedFrom
    rcases List.mem_cons.1 hc with rfl | hc
    · rw [if_pos hent, pushComponent_entry aufs hent]
      exact ⟨st, List.mem_cons_self⟩
    · obtain ⟨p, hp⟩ := @ih (pushComponent aufs st d) hc
      split
      · exact ⟨p, List.mem_cons_of_mem _ hp⟩
      · exact ⟨p, hp⟩

theorem namesFit_of_found {cs : List PathComponent} {st : List Name}
    (h : ∀ p ∈ walkedFrom aufs st cs, t.entryAt root p ≠ none) : NamesFit aufs cs := by
  intro c hc hent
  obtain ⟨p, hp⟩ := @entryName_of_walked aufs st cs c hc hent
  obtain ⟨e, he⟩ := Option.ne_none_iff_exists'.1 (h _ hp)
  obtain ⟨i, -, -, hn⟩ := entryAt_cons he
  rw [← hn]
  exact (t.dentry e).fits

theorem proper_foldl {st : List Name} {cs : List PathComponent} (hst : Proper st)
    (hcs : ∀ c ∈ cs, NamesEntry aufs c → c.2 = true) :
    Proper (cs.foldl (pushComponent aufs) st) := by
  induction cs generalizing st with
  | nil => exact hst
  | cons c cs ih =>
    rw [List.foldl_cons]
    exact ih (proper_push hst (hcs c List.mem_cons_self))
      (fun c' hc' => hcs c' (List.mem_cons_of_mem _ hc'))

theorem OnlyLastOpen.slash {pre post : List PathComponent} {c : PathComponent}
    (h : OnlyLastOpen (pre ++ c :: post)) (hpost : post ≠ []) :
    ∀ c' ∈ pre ++ [c], c'.2 = true := by
  induction pre with
  | nil =>
    intro c' hc'
    rw [List.nil_append, List.mem_singleton] at hc'
    subst hc'
    by_contra hno
    exact hpost (h.1 (by simpa using hno))
  | cons d pre ih =>
    intro c' hc'
    rcases List.mem_cons.1 hc' with rfl | hc'
    · by_contra hno
      have hnil := h.1 (by simpa using hno)
      simp at hnil
    · exact ih h.2 c' hc'

/-- If the path goes up after its last name, no dot name is left in either normal form. -/
theorem proper_endsAbove {cs : List PathComponent} (hopen : OnlyLastOpen cs)
    (h : EndsAbove aufs cs) {p : List Name} (hp : (walkedFrom aufs [] cs).getLast? = some p) :
    Proper p ∧ Proper (normalise aufs cs) := by
  obtain ⟨pre, c, post, hcs, hc, hpost, hup⟩ := h
  have hne : post ≠ [] := by
    obtain ⟨c', hc', -⟩ := hup
    exact List.ne_nil_of_mem hc'
  rw [hcs] at hopen
  have hslash := hopen.slash hne
  have hbase : Proper ((pre ++ [c]).foldl (pushComponent aufs) []) :=
    proper_foldl (fun n hn => absurd hn (List.not_mem_nil)) (fun c' hc' _ => hslash c' hc')
  obtain ⟨q, -, hq, hnorm⟩ := walked_split hcs hc hpost
  rw [hp, Option.some.injEq] at hq
  subst hq
  have hpre : p = (pre ++ [c]).foldl (pushComponent aufs) [] := by
    rw [hcs, walkedFrom_append, walkedFrom_entry aufs _ _ hc, walkedFrom_no_entry hpost,
      List.getLast?_concat, Option.some.injEq] at hp
    rw [List.foldl_append, List.foldl_cons, List.foldl_nil]
    exact hp.symm
  rw [hpre]
  refine ⟨hbase, ?_⟩
  rw [hnorm, hpre]
  exact proper_foldl hbase (fun c' hc' hent => absurd hent (hpost c' hc'))

theorem resolvesPath_iff (h : t.WellFormed) (hpath : PathFrom t root path) :
    ResolvesPath t root path aufs toHead ↔
      NamesFit aufs (components path) ∧ ¬EndsAbove aufs (components path) ∧
        NoFileBelow aufs t root [] (components path) := by
  obtain ⟨hret, hstr⟩ := erofsRebuildGetDentry_eq aufs toHead t root path hpath.nul
  have hopen := onlyLastOpen_components path
  have hnil : Proper ([] : List Name) := fun n hn => absurd hn List.not_mem_nil
  have hrun := fun hfit => @runComponents_spec root aufs toHead ⟨t, root, 0, false, false⟩ []
    (components path) h hpath.start hnil rfl hopen hpath.up hfit
  have hnorm := @normalise_last aufs (components path)
  constructor
  · rintro ⟨-, w, hw, hden⟩
    rw [hret] at hw
    have hfit := namesFit_of_found hden.found
    have hspec := hrun hfit
    rw [hw] at hspec
    obtain ⟨hno, hwalked⟩ := hspec
    refine ⟨hfit, ?_, hno⟩
    intro hup
    have hlast := hwalked.last
    cases hl : (walkedFrom aufs [] (components path)).getLast? with
    | none =>
      rw [hl] at hnorm
      exact hnorm.2 hup
    | some p =>
      rw [hl] at hnorm hlast
      obtain ⟨hp, hlt, -⟩ := hnorm
      have hlt := hlt hup
      obtain ⟨hat, hdir⟩ := hlast
      have hd0 := hwalked.wf.entry_pos hat
      have hne : normalise aufs (components path) ≠ [] := fun hn => hd0 (hden.null.2 hn)
      have hat' := hden.entry hne
      have hty := hdir (fun heq => by
        change p = normalise aufs (components path) at heq
        rw [← heq] at hlt
        exact lt_irrefl _ hlt)
      obtain ⟨hpp, hpn⟩ := proper_endsAbove hopen hup hl
      have hlen := hwalked.wf.subdir_depth hpp hpn hat hat' hty
      omega
  · rintro ⟨hfit, hna, hno⟩
    have hspec := hrun hfit
    cases hw : runComponents aufs toHead ⟨t, root, 0, false, false⟩ (components path) with
    | error err =>
      rw [hw] at hspec
      exact absurd hno hspec
    | ok w =>
      rw [hw] at hspec
      obtain ⟨-, hwalked⟩ := hspec
      refine ⟨hstr.2 ⟨w, hw⟩, w, hret.trans hw, ?_⟩
      have hlast := hwalked.last
      cases hl : (walkedFrom aufs [] (components path)).getLast? with
      | none =>
        rw [hl] at hnorm hlast
        exact ⟨iff_of_true hlast hnorm.1, fun hne => absurd hnorm.1 hne, hwalked.keep,
          hwalked.new, hwalked.found, hwalked.wf.namesUnique⟩
      | some p =>
        rw [hl] at hnorm hlast
        obtain ⟨hp, -, heq⟩ := hnorm
        have heq := heq hna
        have hd0 := hwalked.wf.entry_pos hlast.1
        refine ⟨iff_of_false hd0 (by rwa [heq]), fun _ => ?_, hwalked.keep, hwalked.new,
          hwalked.found, hwalked.wf.namesUnique⟩
        rw [heq]
        exact hlast.1

end Call

/-! ## Sequences of calls -/

inductive LookupRun : TreeHeap → TreeHeap → Prop
  | start (t : TreeHeap) : LookupRun t t
  | call {t t' : TreeHeap} {root : ℕ} {path : List Char} {aufs toHead : Bool} {w : LookupState} :
      LookupRun t t' → PathFrom t' root path → NamesFit aufs (components path) →
      (erofsRebuildGetDentry t' root path aufs toHead).ret = .ok w → LookupRun t w.tree
  | fill {t t' : TreeHeap} {i d : ℕ} {mode : FileType} :
      LookupRun t t' → d ∈ t'.subdirs i → (t'.dentry d).type = .unknown → mode ≠ .unknown →
      LookupRun t (t'.fillEntry d mode)

theorem LookupRun.wellFormed {t t' : TreeHeap} (hrun : LookupRun t t') (h : t.WellFormed) :
    t'.WellFormed := by
  induction hrun with
  | start => exact h
  | @call t' root path aufs toHead w _ hpath hfit hret ih =>
    rw [(erofsRebuildGetDentry_eq aufs toHead t' root path hpath.nul).1] at hret
    have hspec := @runComponents_spec root aufs toHead ⟨t', root, 0, false, false⟩ []
      (components path) ih hpath.start (fun n hn => absurd hn List.not_mem_nil) rfl
      (onlyLastOpen_components path) hpath.up hfit
    rw [hret] at hspec
    exact hspec.2.wf
  | fill _ hd hty hmode ih => exact ih.fill hd hty hmode

/-- A lookup resolves its path exactly if every name fits into a dentry, the path does not go up
after its last name, and no name before a slash is that of a file. Over any sequence of such calls
no directory gets two dentries of one name. -/
theorem erofsRebuildGetDentry_resolves {t : TreeHeap} (h : t.WellFormed) :
    (∀ root path aufs toHead, PathFrom t root path →
      (ResolvesPath t root path aufs toHead ↔
        NamesFit aufs (components path) ∧ ¬EndsAbove aufs (components path) ∧
          NoFileBelow aufs t root [] (components path))) ∧
      ∀ t', LookupRun t t' → t'.NamesUnique :=
  ⟨fun _ _ _ _ hpath => resolvesPath_iff h hpath, fun _ hrun => (hrun.wellFormed h).namesUnique⟩

/-! ## A tree with a root only -/

theorem makeRoot_wellFormed : erofsRebuildMakeRoot.WellFormed := by
  have hmem : ∀ i e, e ∈ erofsRebuildMakeRoot.subdirs i → i = 1 ∧ (e = 1 ∨ e = 2) := by
    intro i e he
    rw [makeRoot_subdirs] at he
    split at he
    · next hi => exact ⟨hi, by simpa using he⟩
    · exact absurd he List.not_mem_nil
  have hdot : ∀ e, e = 1 ∨ e = 2 → isDotDotdot (erofsRebuildMakeRoot.dentry e).name ∧
      (erofsRebuildMakeRoot.dentry e).type = .dir ∧
      (erofsRebuildMakeRoot.dentry e).inode = 1 := by
    rintro e (rfl | rfl) <;> decide
  have hno : ∀ i e, ¬erofsRebuildMakeRoot.Subdir i e := fun i e hs =>
    hs.2.2 (hdot e (hmem i e hs.1).2).1
  refine ⟨?_, ?_, by decide, ?_, ?_, fun i e hs => absurd hs (hno i e),
    fun i e _ hs => absurd hs (hno i e), ⟨fun _ => 0, fun i e hs => absurd hs (hno i e)⟩, ?_⟩
  · intro i e he
    obtain ⟨rfl, hcase⟩ := hmem i e he
    rw [(hdot e hcase).2.2]
    decide
  · intro i e he
    obtain ⟨rfl, rfl | rfl⟩ := hmem i e he <;> decide
  · intro i
    rw [makeRoot_subdirs]
    split <;> simp
  · intro i e e' he he' hname
    obtain ⟨rfl, rfl | rfl⟩ := hmem i e he <;> obtain ⟨-, rfl | rfl⟩ := hmem _ e' he'
    · rfl
    · exact absurd hname (by decide)
    · exact absurd hname (by decide)
    · rfl
  · intro i e he hty
    rw [(hdot e (hmem i e he).2).2.1] at hty
    exact absurd hty (by decide)

def upAgain : List Char := ['a', '/', '.', '.']

theorem components_upAgain : components upAgain = [(['a'], true), (['.', '.'], false)] := by
  have h : upAgain = ['a'] ++ '/' :: ['.', '.'] := rfl
  rw [h, components_slash (by decide), components_last (by decide) (by decide)]
  rfl

theorem pathFrom_upAgain : PathFrom erofsRebuildMakeRoot 1 upAgain :=
  ⟨by decide, by decide, .inl (by decide)⟩

/-- `a/..` is the root, but the dentry of `a` is returned. -/
theorem upAgain_resolves_to_child :
    normalise false (components upAgain) = [] ∧
      ((erofsRebuildGetDentry erofsRebuildMakeRoot 1 upAgain false false).ret.toOption.map
        fun w => (w.d, (w.tree.dentry w.d).name)) = some (5, ['a']) ∧
      ¬∀ (t : TreeHeap) (root : ℕ) (path : List Char) (aufs toHead : Bool), t.WellFormed →
        PathFrom t root path → (∀ c ∈ components path, c.1.length ≤ nameLen) →
          ResolvesPath t root path aufs toHead := by
  have hends : EndsAbove false (components upAgain) := by
    rw [components_upAgain]
    exact ⟨[], _, _, rfl, by decide, by decide, _, List.mem_singleton.2 rfl, rfl⟩
  refine ⟨by rw [components_upAgain]; decide, by decide, fun hall => ?_⟩
  have hlen : ∀ c ∈ components upAgain, c.1.length ≤ nameLen := by
    rw [components_upAgain]
    decide
  have hres := hall _ 1 upAgain false false makeRoot_wellFormed pathFrom_upAgain hlen
  exact ((resolvesPath_iff makeRoot_wellFormed pathFrom_upAgain).1 hres).2.1 hends

theorem not_endsAbove_of_last {aufs : Bool} {cs : List PathComponent} {c : PathComponent}
    (hc : NamesEntry aufs c) : ¬EndsAbove aufs (cs ++ [c]) := by
  rintro ⟨pre, c', post, heq, -, hpost, up, hup, -⟩
  have hlast := congrArg List.getLast? heq
  rw [List.getLast?_append_cons, List.getLast?_singleton, List.getLast?_append_cons] at hlast
  cases post with
  | nil => exact List.not_mem_nil hup
  | cons d post =>
    rw [List.getLast?_cons_cons] at hlast
    exact hpost c (List.mem_of_getLast? hlast.symm) hc

/-- The tree after a lookup of `a/f`, which is filled in as a file. -/
def treeWithFile : TreeHeap :=
  ((erofsRebuildGetDentry erofsRebuildMakeRoot 1 ['a', '/', 'f'] false true).ret.toOption.map
    fun w => w.tree.fillEntry w.d .regFile).getD erofsRebuildMakeRoot

theorem treeWithFile_wellFormed : treeWithFile.WellFormed := by
  have hpath : PathFrom erofsRebuildMakeRoot 1 ['a', '/', 'f'] :=
    ⟨by decide, by decide, .inl (by decide)⟩
  have hfit : NamesFit false (components ['a', '/', 'f']) := by unfold NamesFit; decide +kernel
  have hrun := @LookupRun.call _ _ _ _ _ true _ (.start erofsRebuildMakeRoot) hpath hfit rfl
  exact (@LookupRun.fill _ _ 2 _ .regFile hrun (by decide +kernel) (by decide +kernel)
    (by decide)).wellFormed makeRoot_wellFormed

def roundabout : List Char := ['a', '/', '.', '/', '.', '.', '/', 'a', '/', '/', 'g']

/-- Looking up a new file beside `a/f`. -/
theorem erofsRebuildGetDentry_resolves_roundabout :
    ResolvesPath treeWithFile 1 roundabout false true := by
  have hcs : components roundabout =
      [(['a'], true), (['.'], true), (['.', '.'], true), (['a'], true)] ++ [(['g'], false)] := by
    decide +kernel
  have hpath : PathFrom treeWithFile 1 roundabout :=
    ⟨by decide +kernel, by decide, .inl (by decide +kernel)⟩
  apply ((erofsRebuildGetDentry_resolves treeWithFile_wellFormed).1 1 roundabout false true hpath).2
  rw [hcs]
  exact ⟨by unfold NamesFit; decide, not_endsAbove_of_last (by decide), by decide +kernel⟩

end ErofsUtils
