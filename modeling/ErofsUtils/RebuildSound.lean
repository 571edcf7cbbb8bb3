import ErofsUtils.RebuildLookup

/-!
# What a lookup returns

One step of a lookup follows one component of the path, so that a run over the components stays
at the directory that the normal form of what it has read leads to. The dentry it returns is the
one of the last name it has read.
-/

namespace ErofsUtils

open TreeHeap

/-- What a successful step at an entry has done: `p` is the normal form of the entry. -/
structure Entered (root : ℕ) (w w' : LookupState) (p : List Name) (slash : Bool) : Prop where
  wf : w'.tree.WellFormed
  grows : ∃ n, p.head? = some n ∧
    Grows w.tree w'.tree w.pwd n (if slash then .dir else .unknown)
  at_ : w'.tree.entryAt root p = some w'.d
  dir : slash = true →
    (w'.tree.dentry w'.d).type = .dir ∧ w'.tree.dirAt root p = some w'.pwd

/-- An entry that a step cannot pass. -/
def Blocked (t : TreeHeap) (root : ℕ) (p : List Name) (slash : Bool) : Prop :=
  slash = true ∧ ∃ e, t.entryAt root p = some e ∧ (t.dentry e).type ≠ .dir

instance Blocked.decidable (t : TreeHeap) (root : ℕ) (p : List Name) (slash : Bool) :
    Decidable (Blocked t root p slash) :=
  inferInstanceAs (Decidable (slash = true ∧ ∃ e, e ∈ t.entryAt root p ∧ (t.dentry e).type ≠ .dir))

section Step

variable {root : ℕ} {w : LookupState} {st : List Name} {s : Name} {slash toHead : Bool}

theorem createEntry_entered (h : w.tree.WellFormed) (hr : 0 < root ∧ root < w.tree.nextInode)
    (hpwd : w.tree.dirAt root st = some w.pwd) (hs : s.length < nameLen)
    (hnew : ∀ e ∈ w.tree.subdirs w.pwd, (w.tree.dentry e).name ≠ s) :
    Entered root w (w.createEntry s slash) (s :: st) slash := by
  have hlt := h.dirAt_lt hr hpwd
  cases slash with
  | true =>
    have hd := dentry_mkdir_new (t := w.tree) (i := w.pwd) hs
    have hwf := h.mkdir hlt hs hnew
    have hgrow := grows_mkdir h hlt.2 hs
    have hmem := (mem_mkdir_iff (s := s) h hlt.2 w.pwd (w.tree.nextDentry + 2)).2
      (.inr (.inl ⟨rfl, rfl⟩))
    have hpwd' := hgrow.dirAt_mono hwf hpwd
    have hname : ((w.tree.erofsRebuildMkdir w.pwd s).2.dentry
        (w.tree.nextDentry + 2)).name = s := by rw [hd]
    have htype : ((w.tree.erofsRebuildMkdir w.pwd s).2.dentry
        (w.tree.nextDentry + 2)).type = .dir := by rw [hd]
    exact ⟨hwf, ⟨s, rfl, hgrow⟩, hwf.entryAt_of_mem hpwd' hmem hname,
      fun _ => ⟨htype, hwf.dirAt_of_mem hpwd' hmem hname htype⟩⟩
  | false =>
    have hwf := h.dalloc hlt hs hnew
    have hgrow := grows_dalloc (i := w.pwd) h hs
    have hmem := (@mem_dalloc_iff w.tree w.pwd s w.pwd .unknown w.pwd w.tree.nextDentry).2
      (.inr ⟨rfl, rfl⟩)
    have hname : ((w.tree.erofsDAlloc w.pwd s w.pwd .unknown).2.dentry
        w.tree.nextDentry).name = s := by rw [dentry_dalloc_new hs]
    exact ⟨hwf, ⟨s, rfl, hgrow⟩,
      hwf.entryAt_of_mem (hgrow.dirAt_mono hwf hpwd) hmem hname, fun hf => absurd hf (by simp)⟩

/-- Looking up a name that fits enters its entry, unless that is a file before a slash. -/
theorem enterName_spec (h : w.tree.WellFormed) (hr : 0 < root ∧ root < w.tree.nextInode)
    (hpwd : w.tree.dirAt root st = some w.pwd) (hs : s.length < nameLen) :
    match w.enterName toHead s slash with
    | .ok w' => Entered root w w' (s :: st) slash ∧ ¬Blocked w.tree root (s :: st) slash
    | .error _ => Blocked w.tree root (s :: st) slash := by
  unfold LookupState.enterName
  cases hf : w.tree.findDentry w.pwd s with
  | none =>
    have hnew := findDentry_none hf
    refine ⟨createEntry_entered h hr hpwd hs hnew, ?_⟩
    rintro ⟨-, e, he, -⟩
    obtain ⟨i, hi, hmem, hn⟩ := entryAt_cons he
    rw [hpwd, Option.some.injEq] at hi
    subst hi
    exact hnew e hmem hn
  | some e =>
    obtain ⟨hmem, hn⟩ := findDentry_some hf
    have hat := h.entryAt_of_mem hpwd hmem hn
    simp only
    by_cases hb : (w.tree.dentry e).type ≠ .dir ∧ slash = true
    · rw [if_pos hb]
      exact ⟨hb.2, e, hat, hb.1⟩
    · have hino : (w.tree.dentry e).inode ≠ 0 := by
        have := (h.inodes _ e hmem).2.1
        omega
      rw [if_neg hb, if_neg hino]
      have hnb : ¬Blocked w.tree root (s :: st) slash := by
        rintro ⟨hsl, e', he', hty⟩
        rw [hat, Option.some.injEq] at he'
        subst he'
        exact hb ⟨hty, hsl⟩
      have hdir : slash = true → (w.tree.dentry e).type = .dir := by
        intro hsl
        by_contra hty
        exact hb ⟨hty, hsl⟩
      refine ⟨?_, hnb⟩
      cases toHead with
      | true =>
        have hwf := h.moveToHead hmem
        have hgrow := grows_moveToHead hmem w.pwd s (if slash then .dir else .unknown)
        have hmem' := (mem_moveToHead hmem w.pwd e).2 hmem
        have hpwd' := hgrow.dirAt_mono hwf hpwd
        exact ⟨hwf, ⟨s, rfl, hgrow⟩, hwf.entryAt_of_mem hpwd' hmem' hn,
          fun hsl => ⟨hdir hsl, hwf.dirAt_of_mem hpwd' hmem' hn (hdir hsl)⟩⟩
      | false =>
        exact ⟨h, ⟨s, rfl, Grows.refl _ _ _ _⟩, hat,
          fun hsl => ⟨hdir hsl, h.dirAt_of_mem hpwd hmem hn (hdir hsl)⟩⟩

variable {aufs : Bool} {c : PathComponent}

theorem component_entry (h : w.tree.WellFormed) (hr : 0 < root ∧ root < w.tree.nextInode)
    (hpwd : w.tree.dirAt root st = some w.pwd) (hc : NamesEntry aufs c)
    (hs : (entryName aufs c).length < nameLen) :
    match w.component aufs toHead c.1 c.2 with
    | .ok w' => Entered root w w' (pushComponent aufs st c) c.2 ∧
        ¬Blocked w.tree root (pushComponent aufs st c) c.2
    | .error _ => Blocked w.tree root (pushComponent aufs st c) c.2 := by
  rw [pushComponent_entry aufs hc]
  have hdot : c.1 ≠ dotName := fun hd => hc.1 (.inl hd)
  have hdotdot : c.1 ≠ dotdotName := fun hd => hc.1 (.inr hd)
  have hopq : ¬(aufs = true ∧ ¬c.2 = true ∧ c.1 = aufsWhDiropq) := hc.2
  unfold LookupState.component
  rw [if_neg hdot, if_neg hdotdot, if_neg hopq]
  by_cases hwh : IsWhiteout aufs c
  · have hname : entryName aufs c = c.1.drop aufsWhPfx.length := if_pos hwh
    have hwh' : aufs = true ∧ ¬c.2 = true ∧ aufsWhPfx <+: c.1 := hwh
    rw [if_pos hwh']
    rw [hname] at hs ⊢
    have hspec := @enterName_spec root { w with whout := true } st
      (c.1.drop aufsWhPfx.length) c.2 toHead h hr hpwd hs
    split at hspec
    · next w' _ => exact ⟨⟨hspec.1.wf, hspec.1.grows, hspec.1.at_, hspec.1.dir⟩, hspec.2⟩
    · exact hspec
  · have hname : entryName aufs c = c.1 := if_neg hwh
    have hwh' : ¬(aufs = true ∧ ¬c.2 = true ∧ aufsWhPfx <+: c.1) := hwh
    rw [if_neg hwh']
    rw [hname] at hs ⊢
    exact enterName_spec h hr hpwd hs

theorem component_other (h : w.tree.WellFormed)
    (hpwd : w.tree.dirAt root st = some w.pwd) (hst : Proper st) (hc : ¬NamesEntry aufs c)
    (hup : c.1 = dotdotName → st = [] → (w.tree.inode root).iParent = root) :
    ∃ w', w.component aufs toHead c.1 c.2 = .ok w' ∧ w'.tree = w.tree ∧ w'.d = w.d ∧
      w.tree.dirAt root (pushComponent aufs st c) = some w'.pwd ∧
      Proper (pushComponent aufs st c) := by
  rw [pushComponent_other aufs _ hc]
  unfold LookupState.component
  by_cases hdot : c.1 = dotName
  · have hne : c.1 ≠ dotdotName := by
      rw [hdot]
      decide
    rw [if_pos hdot, if_neg hne]
    exact ⟨w, rfl, rfl, rfl, hpwd, hst⟩
  by_cases hdotdot : c.1 = dotdotName
  · rw [if_neg hdot, if_pos hdotdot, if_pos hdotdot]
    refine ⟨_, rfl, rfl, rfl, ?_, fun n hn => hst n (List.mem_of_mem_tail hn)⟩
    cases st with
    | nil =>
      cases hpwd
      exact congrArg some (hup hdotdot rfl).symm
    | cons n st => exact h.dirAt_parent (hst n List.mem_cons_self) hpwd
  · have hopq : aufs = true ∧ ¬c.2 = true ∧ c.1 = aufsWhDiropq := by
      by_contra hno
      exact hc ⟨fun hd => hd.elim hdot hdotdot, hno⟩
    rw [if_neg hdot, if_neg hdotdot, if_pos hopq, if_neg hdotdot]
    exact ⟨_, rfl, rfl, rfl, hpwd, hst⟩

end Step

/-! ## Runs over the components -/

def NamesFit (aufs : Bool) (cs : List PathComponent) : Prop :=
  ∀ c ∈ cs, NamesEntry aufs c → (entryName aufs c).length < nameLen

def NoFileBelow (aufs : Bool) (t : TreeHeap) (root : ℕ) : List Name → List PathComponent → Prop
  | _, [] => True
  | st, c :: cs =>
    (NamesEntry aufs c → ¬Blocked t root (pushComponent aufs st c) c.2) ∧
      NoFileBelow aufs t root (pushComponent aufs st c) cs

instance NoFileBelow.decidable (aufs : Bool) (t : TreeHeap) (root : ℕ) :
    (st : List Name) → (cs : List PathComponent) → Decidable (NoFileBelow aufs t root st cs)
  | _, [] => .isTrue trivial
  | st, c :: cs =>
    have := NoFileBelow.decidable aufs t root (pushComponent aufs st c) cs
    inferInstanceAs (Decidable ((_ → _) ∧ _))

structure Walked (aufs : Bool) (root : ℕ) (st : List Name) (cs : List PathComponent)
    (w w' : LookupState) : Prop where
  wf : w'.tree.WellFormed
  keep : ∀ p e, w.tree.entryAt root p = some e →
    w'.tree.entryAt root p = some e ∧ w'.tree.dentry e = w.tree.dentry e
  new : ∀ p e, Proper p → w'.tree.entryAt root p = some e →
    w.tree.entryAt root p = some e ∨ p ∈ walkedFrom aufs st cs
  found : ∀ p ∈ walkedFrom aufs st cs, w'.tree.entryAt root p ≠ none
  last : match (walkedFrom aufs st cs).getLast? with
    | none => w'.d = w.d
    | some p => w'.tree.entryAt root p = some w'.d ∧
      (p ≠ cs.foldl (pushComponent aufs) st → (w'.tree.dentry w'.d).type = .dir)

section Run

variable {root : ℕ} {aufs toHead : Bool}

theorem proper_push {st : List Name} {c : PathComponent} (hst : Proper st)
    (hc : NamesEntry aufs c → c.2 = true) : Proper (pushComponent aufs st c) := by
  intro n hn
  by_cases hent : NamesEntry aufs c
  · rw [pushComponent_entry aufs hent, entryName_slash aufs (hc hent)] at hn
    rcases List.mem_cons.1 hn with rfl | hn
    · exact hent.1
    · exact hst n hn
  · rw [pushComponent_other aufs _ hent] at hn
    split at hn
    · exact hst n (List.mem_of_mem_tail hn)
    · exact hst n hn

theorem noFileBelow_grows {t t' : TreeHeap} {pwd : ℕ} {s : Name} {stk : List Name}
    (g : Grows t t' pwd s .dir) (h : t.WellFormed) (h' : t'.WellFormed)
    (hr : 0 < root ∧ root < t.nextInode) (hstk : Proper stk) (hpwd : t.dirAt root stk = some pwd)
    {st : List Name} {cs : List PathComponent} (hst : Proper st) (hopen : OnlyLastOpen cs) :
    NoFileBelow aufs t root st cs ↔ NoFileBelow aufs t' root st cs := by
  induction cs generalizing st with
  | nil => exact Iff.rfl
  | cons c cs ih =>
    by_cases hc2 : c.2 = true
    · have hpush := proper_push hst (fun _ : NamesEntry aufs c => hc2)
      have hblock : Blocked t root (pushComponent aufs st c) c.2 ↔
          Blocked t' root (pushComponent aufs st c) c.2 := by
        constructor
        · rintro ⟨hsl, e, he, hty⟩
          obtain ⟨he', hd⟩ := g.entryAt_mono h' he
          exact ⟨hsl, e, he', by rwa [hd]⟩
        · rintro ⟨hsl, e, he, hty⟩
          rcases g.entryAt_new h hr hstk hpwd hpush he with he' | ⟨-, hdir⟩
          · exact ⟨hsl, e, he', by rwa [← (g.entryAt_mono h' he').2]⟩
          · exact absurd hdir hty
      unfold NoFileBelow
      rw [hblock, ih hpush hopen.2]
    · have hc2' : c.2 = false := by simpa using hc2
      have hcs := hopen.1 hc2'
      subst hcs
      unfold NoFileBelow NoFileBelow Blocked
      simp [hc2']

/-- A run over components with names that fit succeeds exactly when no name before a slash is that
of a file, and then it has followed the components. -/
theorem runComponents_spec {w : LookupState} {st : List Name} {cs : List PathComponent}
    (h : w.tree.WellFormed) (hr : 0 < root ∧ root < w.tree.nextInode) (hst : Proper st)
    (hpwd : w.tree.dirAt root st = some w.pwd) (hopen : OnlyLastOpen cs)
    (hup : (w.tree.inode root).iParent = root ∨ ∀ c ∈ cs, c.1 ≠ dotdotName)
    (hfit : NamesFit aufs cs) :
    match runComponents aufs toHead w cs with
    | .ok w' => NoFileBelow aufs w.tree root st cs ∧ Walked aufs root st cs w w'
    | .error _ => ¬NoFileBelow aufs w.tree root st cs := by
  induction cs generalizing w st with
  | nil =>
    exact ⟨trivial, h, fun _ _ he => ⟨he, rfl⟩, fun _ _ _ he => .inl he, by simp [walkedFrom],
      by simp [walkedFrom]⟩
  | cons c cs ih =>
    have hfit' : NamesFit aufs cs := fun c' hc' => hfit c' (List.mem_cons_of_mem _ hc')
    unfold runComponents
    by_cases hc : NamesEntry aufs c
    · have hstep := @component_entry root w st toHead aufs c h hr hpwd hc
        (hfit c List.mem_cons_self hc)
      have hwalk := walkedFrom_entry aufs st cs hc
      cases hw : w.component aufs toHead c.1 c.2 with
      | error err =>
        rw [hw] at hstep
        exact fun hno => hno.1 hc hstep
      | ok w₁ =>
        rw [hw] at hstep
        obtain ⟨hent, hnb⟩ := hstep
        obtain ⟨n, hn, hgrow⟩ := hent.grows
        have hname : n = entryName aufs c := by
          rw [pushComponent_entry aufs hc] at hn
          exact (Option.some.inj hn).symm
        have hmono := fun p e => @Grows.entryAt_mono _ _ root _ _ _ hgrow hent.wf p e
        have hnew : ∀ p e, Proper p → w₁.tree.entryAt root p = some e →
            w.tree.entryAt root p = some e ∨ p = pushComponent aufs st c := by
          intro p e hp he
          rcases hgrow.entryAt_new h hr hst hpwd hp he with he | ⟨rfl, -⟩
          · exact .inl he
          · rw [pushComponent_entry aufs hc, hname]
            exact .inr rfl
        cases hc2 : c.2 with
        | false =>
          have hcs := hopen.1 hc2
          subst hcs
          simp only [runComponents]
          refine ⟨⟨fun _ => hnb, trivial⟩, hent.wf, fun p e => hmono p e, ?_, ?_, ?_⟩
          · intro p e hp he
            rw [hwalk]
            simpa [walkedFrom] using hnew p e hp he
          · intro p hp
            rw [hwalk] at hp
            simp only [walkedFrom, List.mem_singleton] at hp
            subst hp
            rw [hent.at_]
            simp
          · rw [hwalk]
            exact ⟨hent.at_, fun hne => absurd rfl hne⟩
        | true =>
          rw [hc2, if_pos rfl] at hgrow
          have hpush := proper_push hst (fun _ : NamesEntry aufs c => hc2)
          have hr₁ : 0 < root ∧ root < w₁.tree.nextInode :=
            ⟨hr.1, lt_of_lt_of_le hr.2 hgrow.nextInode⟩
          have hup₁ : (w₁.tree.inode root).iParent = root ∨ ∀ c ∈ cs, c.1 ≠ dotdotName := by
            rw [hgrow.parent root hr.2]
            exact hup.imp id fun hno c' hc' => hno c' (List.mem_cons_of_mem _ hc')
          obtain ⟨hty, hdir⟩ := hent.dir hc2
          have hrun := ih hent.wf hr₁ hpush hdir hopen.2 hup₁ hfit'
          have hiff := @noFileBelow_grows root aufs _ _ _ _ _ hgrow h hent.wf hr hst hpwd _ cs
            hpush hopen.2
          cases hw' : runComponents aufs toHead w₁ cs with
          | error err =>
            simp only [hw'] at hrun ⊢
            exact fun hno => hrun (hiff.1 hno.2)
          | ok w' =>
            simp only [hw'] at hrun ⊢
            obtain ⟨hno, hwalked⟩ := hrun
            refine ⟨⟨fun _ => hnb, hiff.2 hno⟩, hwalked.wf, ?_, ?_, ?_, ?_⟩
            · intro p e he
              obtain ⟨he₁, hd₁⟩ := hmono p e he
              obtain ⟨he', hd'⟩ := hwalked.keep p e he₁
              exact ⟨he', hd'.trans hd₁⟩
            · intro p e hp he
              rw [hwalk, List.mem_cons]
              rcases hwalked.new p e hp he with he | hmem
              · exact (hnew p e hp he).imp id .inl
              · exact .inr (.inr hmem)
            · intro p hp
              rw [hwalk, List.mem_cons] at hp
              rcases hp with rfl | hp
              · rw [(hwalked.keep _ _ hent.at_).1]
                simp
              · exact hwalked.found p hp
            · have hlast := hwalked.last
              rw [hwalk, List.getLast?_cons]
              cases hl : (walkedFrom aufs (pushComponent aufs st c) cs).getLast? with
              | none =>
                rw [hl] at hlast
                simp only [Option.getD_none]
                obtain ⟨he', hd'⟩ := hwalked.keep _ _ hent.at_
                rw [hlast]
                exact ⟨he', fun _ => by rw [hd', hty]⟩
              | some p =>
                rw [hl] at hlast
                exact hlast
    · have hpwalk := walkedFrom_other aufs st cs hc
      obtain ⟨w₁, hw, htree, hd, hdir, hpush⟩ := @component_other root w st toHead aufs c h
        hpwd hst hc
        (fun hcd _ => hup.resolve_right fun hno => hno c List.mem_cons_self hcd)
      rw [hw]
      have hrun := @ih w₁ (pushComponent aufs st c) (by rwa [htree]) (by rwa [htree]) hpush
        (by rwa [htree]) hopen.2
        (by rw [htree]; exact hup.imp id fun hno c' hc' => hno c' (List.mem_cons_of_mem _ hc'))
        hfit'
      cases hw' : runComponents aufs toHead w₁ cs with
      | error err =>
        simp only [hw', htree] at hrun ⊢
        exact fun hno => hrun hno.2
      | ok w' =>
        simp only [hw', htree] at hrun ⊢
        obtain ⟨hno, hwalked⟩ := hrun
        refine ⟨⟨fun hce => absurd hce hc, hno⟩, hwalked.wf, ?_, ?_, ?_, ?_⟩
        · intro p e he
          rw [← htree] at he ⊢
          exact hwalked.keep p e he
        · intro p e hp he
          rw [hpwalk, ← htree]
          exact hwalked.new p e hp he
        · rw [hpwalk]
          exact hwalked.found
        · rw [hpwalk, ← hd]
          exact hwalked.last

end Run

end ErofsUtils
