import Mathlib.Data.List.TakeWhile
import ErofsUtils.RebuildTree

/-!
# The path that a lookup denotes

The components of a path string, its lexical normal form, and the loop of
`erofs_rebuild_get_dentry` as a run over the components.
-/

namespace ErofsUtils

abbrev PathComponent := Name × Bool

def markSlashes : List Name → List PathComponent
  | [] => []
  | [s] => [(s, false)]
  | s :: s' :: rest => (s, true) :: markSlashes (s' :: rest)

def components (path : List Char) : List PathComponent :=
  (markSlashes (path.splitOn '/')).filter fun c => c.1 ≠ []

theorem markSlashes_cons {s : Name} {rest : List Name} (h : rest ≠ []) :
    markSlashes (s :: rest) = (s, true) :: markSlashes rest := by
  cases rest with
  | nil => exact absurd rfl h
  | cons s' rest => rfl

@[simp] theorem components_nil : components [] = [] := by
  simp [components, markSlashes, List.splitOn_nil]

theorem components_last {s : Name} (h : '/' ∉ s) (hs : s ≠ []) :
    components s = [(s, false)] := by
  unfold components
  rw [List.splitOn_eq_singleton h]
  simp [markSlashes, hs]

theorem components_slash {s next : List Char} (h : '/' ∉ s) :
    components (s ++ '/' :: next) = (if s = [] then [] else [(s, true)]) ++ components next := by
  unfold components
  rw [List.splitOn_append_cons_self_of_not_mem h, markSlashes_cons (List.splitOn_ne_nil _ _),
    List.filter_cons]
  by_cases hs : s = [] <;> simp [hs]

theorem components_skip (next : List Char) :
    components (next.dropWhile (· = '/')) = components next := by
  induction next with
  | nil => rfl
  | cons c next ih =>
    by_cases hc : c = '/'
    · subst hc
      have h := @components_slash [] next (by simp)
      rw [List.nil_append] at h
      simpa [h] using ih
    · simp [hc]

def OnlyLastOpen : List PathComponent → Prop
  | [] => True
  | c :: cs => (c.2 = false → cs = []) ∧ OnlyLastOpen cs

theorem OnlyLastOpen.filter {p : PathComponent → Bool} {cs : List PathComponent}
    (h : OnlyLastOpen cs) : OnlyLastOpen (cs.filter p) := by
  induction cs with
  | nil => trivial
  | cons c cs ih =>
    rw [List.filter_cons]
    split
    · refine ⟨fun hc => ?_, ih h.2⟩
      rw [h.1 hc, List.filter_nil]
    · exact ih h.2

theorem onlyLastOpen_markSlashes (ss : List Name) : OnlyLastOpen (markSlashes ss) := by
  induction ss with
  | nil => trivial
  | cons s ss ih =>
    cases ss with
    | nil => exact ⟨fun _ => rfl, trivial⟩
    | cons s' ss => exact ⟨fun h => absurd h (by simp), ih⟩

theorem onlyLastOpen_components (path : List Char) : OnlyLastOpen (components path) :=
  (onlyLastOpen_markSlashes _).filter

section Normalise

variable (aufs : Bool)

def IsOpaqueMark (c : PathComponent) : Prop := aufs ∧ ¬c.2 ∧ c.1 = aufsWhDiropq

instance (c : PathComponent) : Decidable (IsOpaqueMark aufs c) :=
  inferInstanceAs (Decidable (_ ∧ _ ∧ _))

def IsWhiteout (c : PathComponent) : Prop := aufs ∧ ¬c.2 ∧ aufsWhPfx <+: c.1

instance (c : PathComponent) : Decidable (IsWhiteout aufs c) :=
  inferInstanceAs (Decidable (_ ∧ _ ∧ _))

def NamesEntry (c : PathComponent) : Prop := ¬isDotDotdot c.1 ∧ ¬IsOpaqueMark aufs c

instance (c : PathComponent) : Decidable (NamesEntry aufs c) :=
  inferInstanceAs (Decidable (_ ∧ _))

def entryName (c : PathComponent) : Name :=
  if IsWhiteout aufs c then c.1.drop aufsWhPfx.length else c.1

/-- One component of a path, on the normal form of what precedes it; the last name is first. -/
def pushComponent (st : List Name) (c : PathComponent) : List Name :=
  if NamesEntry aufs c then entryName aufs c :: st
  else if c.1 = dotdotName then st.tail
  else st

def normalise (cs : List PathComponent) : List Name := cs.foldl (pushComponent aufs) []

/-- The normal forms of the prefixes that end with a name, from `st` on. -/
def walkedFrom (st : List Name) : List PathComponent → List (List Name)
  | [] => []
  | c :: cs =>
    if NamesEntry aufs c then pushComponent aufs st c :: walkedFrom (pushComponent aufs st c) cs
    else walkedFrom (pushComponent aufs st c) cs

theorem pushComponent_entry {st : List Name} {c : PathComponent} (h : NamesEntry aufs c) :
    pushComponent aufs st c = entryName aufs c :: st := if_pos h

theorem pushComponent_other (st : List Name) {c : PathComponent} (h : ¬NamesEntry aufs c) :
    pushComponent aufs st c = if c.1 = dotdotName then st.tail else st := if_neg h

theorem walkedFrom_entry (st : List Name) {c : PathComponent} (cs : List PathComponent)
    (h : NamesEntry aufs c) : walkedFrom aufs st (c :: cs) =
      pushComponent aufs st c :: walkedFrom aufs (pushComponent aufs st c) cs := if_pos h

theorem walkedFrom_other (st : List Name) {c : PathComponent} (cs : List PathComponent)
    (h : ¬NamesEntry aufs c) : walkedFrom aufs st (c :: cs) =
      walkedFrom aufs (pushComponent aufs st c) cs := if_neg h

theorem entryName_slash {c : PathComponent} (h : c.2 = true) : entryName aufs c = c.1 := by
  simp [entryName, IsWhiteout, h]

end Normalise

section Components

variable (aufs toHead : Bool)

def runComponents (w : LookupState) : List PathComponent → Except Errno LookupState
  | [] => .ok w
  | c :: cs =>
    match w.component aufs toHead c.1 c.2 with
    | .error err => .error err
    | .ok w' => runComponents w' cs

theorem component_open (w : LookupState) (s : Name) :
    ∃ w', w.component aufs toHead s false = .ok w' := by
  have hn : ∀ (w : LookupState) (s : Name), ∃ w', w.enterName toHead s false = .ok w' := by
    intro w s
    unfold LookupState.enterName
    cases w.tree.findDentry w.pwd s with
    | none => exact ⟨_, rfl⟩
    | some d => simp only [Bool.false_eq_true, and_false, if_false]; split <;> exact ⟨_, rfl⟩
  unfold LookupState.component
  split
  · exact ⟨_, rfl⟩
  split
  · exact ⟨_, rfl⟩
  split
  · exact ⟨_, rfl⟩
  split
  · exact hn _ _
  · exact hn _ _

/-- What the loop returns is what the run over the components returns, and the string is the one
that was passed unless a component failed. -/
theorem getDentryLoop_eq (fuel : ℕ) (w : LookupState) (done rest : List Char)
    (hfuel : rest.length ≤ fuel) (hnul : '\x00' ∉ rest) :
    (getDentryLoop aufs toHead fuel w done rest).ret =
        runComponents aufs toHead w (components rest) ∧
      ((getDentryLoop aufs toHead fuel w done rest).path = done ++ rest ↔
        ∃ w', runComponents aufs toHead w (components rest) = .ok w') := by
  induction fuel generalizing w done rest with
  | zero =>
    have hr : rest = [] := List.length_eq_zero_iff.1 (by omega)
    subst hr
    simp [getDentryLoop, runComponents]
  | succ fuel ih =>
    unfold getDentryLoop
    by_cases hr : rest = []
    · subst hr
      simp [runComponents]
    rw [if_neg hr]
    have happ := List.takeWhile_append_dropWhile (p := fun c => decide (c ≠ '/')) (l := rest)
    have hs : '/' ∉ rest.takeWhile (fun c => decide (c ≠ '/')) := by
      intro hmem
      have := List.mem_takeWhile_imp hmem
      simp at this
    generalize hs' : rest.takeWhile (fun c => decide (c ≠ '/')) = s at happ hs
    cases hd : rest.dropWhile (fun c => decide (c ≠ '/')) with
    | nil =>
      rw [hd, List.append_nil] at happ
      subst happ
      have hc := components_last hs hr
      obtain ⟨w', hw'⟩ := component_open aufs toHead w s
      simp [hc, runComponents, hw']
    | cons c next =>
      have hc : c = '/' := by
        have := List.head?_dropWhile_not (p := fun c => decide (c ≠ '/')) (l := rest)
        rw [hd] at this
        simpa using this
      subst hc
      rw [hd] at happ
      subst happ
      have hlen : next.length ≤ fuel := by
        simp only [List.length_append, List.length_cons] at hfuel
        omega
      have hnul' : '\x00' ∉ next := by
        intro h
        exact hnul (by simp [h])
      rw [components_slash hs]
      by_cases he : s = []
      · subst he
        have h := ih w (done ++ '/' :: next.takeWhile (· = '/')) (next.dropWhile (· = '/'))
          (le_trans (List.dropWhile_sublist _).length_le hlen)
          (fun h => hnul' ((List.dropWhile_sublist _).mem h))
        rw [components_skip] at h
        have happ' : done ++ '/' :: next.takeWhile (· = '/') ++ next.dropWhile (· = '/') =
            done ++ ([] ++ '/' :: next) := by
          simp [List.takeWhile_append_dropWhile]
        rw [happ'] at h
        simpa using h
      · simp only [he, if_false, List.singleton_append, runComponents]
        cases hw : w.component aufs toHead s true with
        | error err =>
          refine ⟨rfl, ?_⟩
          have hne : done ++ s ++ '\x00' :: next ≠ done ++ (s ++ '/' :: next) := by
            rw [List.append_assoc]
            intro h
            have h' := List.append_cancel_left (List.append_cancel_left h)
            have h'' := (List.cons.inj h').1
            exact absurd h'' (by decide)
          constructor
          · intro h
            exact absurd h hne
          · rintro ⟨w', hw'⟩
            exact absurd hw' (by simp)
        | ok w' =>
          have h := ih w' (done ++ s ++ ['/']) next hlen hnul'
          have happ' : done ++ s ++ ['/'] ++ next = done ++ (s ++ '/' :: next) := by simp
          rw [happ'] at h
          exact h

theorem erofsRebuildGetDentry_eq (t : TreeHeap) (pwd : ℕ) (path : List Char)
    (hnul : '\x00' ∉ path) :
    (erofsRebuildGetDentry t pwd path aufs toHead).ret =
        runComponents aufs toHead ⟨t, pwd, 0, false, false⟩ (components path) ∧
      ((erofsRebuildGetDentry t pwd path aufs toHead).path = path ↔
        ∃ w', runComponents aufs toHead ⟨t, pwd, 0, false, false⟩ (components path) = .ok w') :=
  getDentryLoop_eq aufs toHead path.length _ [] path le_rfl hnul

end Components

end ErofsUtils
