import Mathlib.Logic.Relation
import Mathlib.Order.WellFounded

/-!
# Depth-first walks that keep no record

A walk goes through the children of a node in their order, goes down where a child is a node
again, and ends as a whole at the first child that stops it. It does not know where it has been,
so on a graph with cycles it need not end. It does exactly when there is no endless way down that
has nothing to stop the walk on its left.
-/

namespace ErofsUtils.DepthFirst

/-- What a walk meets at a node: nothing to do, a reason to stop, or a node to go down to. -/
inductive Child (α : Type*)
  | skip
  | stop
  | enter (a : α)

variable {α : Type*}

/-- The children of one node, where `down` is the walk below it: `some true` when they are done,
`some false` when one of them stopped the walk. -/
def walkList (down : α → Option Bool) : List (Child α) → Option Bool
  | [] => some true
  | .skip :: cs => walkList down cs
  | .stop :: _ => some false
  | .enter a :: cs =>
    match down a with
    | none => none
    | some false => some false
    | some true => walkList down cs

def walk (children : α → List (Child α)) : ℕ → α → Option Bool
  | 0, _ => none
  | fuel + 1, a => walkList (walk children fuel) (children a)

variable (children : α → List (Child α))

def Edge (a b : α) : Prop := .enter b ∈ children a

/-- Something at the node or below it stops a walk. -/
def Stops (a : α) : Prop := ∃ b, Relation.ReflTransGen (Edge children) a b ∧ .stop ∈ children b

def Child.Stops : Child α → Prop
  | .skip => False
  | .stop => True
  | .enter a => DepthFirst.Stops children a

/-- The walk goes down from `a` to `b`: nothing on the left of `b` stops it. -/
def GoesDown (b a : α) : Prop :=
  ∃ before after, children a = before ++ .enter b :: after ∧
    ∀ c ∈ before, ¬ c.Stops children

variable {children}

theorem Child.stops_of_mem {a : α} {c : Child α} (hc : c ∈ children a) (h : c.Stops children) :
    DepthFirst.Stops children a := by
  cases c with
  | skip => exact absurd h id
  | stop => exact ⟨a, .refl, hc⟩
  | enter b =>
      obtain ⟨d, hd, hs⟩ := h
      exact ⟨d, .head hc hd, hs⟩

theorem stops_iff {a : α} : Stops children a ↔ ∃ c ∈ children a, c.Stops children := by
  constructor
  · rintro ⟨b, hb, hs⟩
    rcases hb.cases_head with rfl | ⟨d, hd, hdb⟩
    · exact ⟨.stop, hs, trivial⟩
    · exact ⟨.enter d, hd, b, hdb, hs⟩
  · rintro ⟨c, hc, h⟩
    exact Child.stops_of_mem hc h

/-- The children are done exactly when the walk below each is and none stops it. -/
theorem walkList_true {down : α → Option Bool} {cs : List (Child α)} :
    walkList down cs = some true ↔ ∀ c ∈ cs, c ≠ .stop ∧ ∀ a, c = .enter a → down a = some true := by
  induction cs with
  | nil => simp [walkList]
  | cons c cs ih =>
      rw [List.forall_mem_cons, ← ih]
      cases c with
      | skip => simp [walkList]
      | stop => simp [walkList]
      | enter a =>
          cases hd : down a with
          | none => simp [walkList, hd]
          | some r => cases r <;> simp [walkList, hd]

/-- A walk that goes through has met nothing that stops it. -/
theorem not_stops_of_walk {fuel : ℕ} {a : α} (h : walk children fuel a = some true) :
    ¬ Stops children a := by
  induction fuel generalizing a with
  | zero => cases h
  | succ fuel ih =>
      rw [walk, walkList_true] at h
      rw [stops_iff]
      rintro ⟨c, hc, hs⟩
      cases c with
      | skip => exact hs
      | stop => exact (h _ hc).1 rfl
      | enter b => exact ih ((h _ hc).2 b rfl) hs

theorem walk_ne_false {fuel : ℕ} {a : α} (h : ¬ Stops children a) :
    walk children fuel a ≠ some false := by
  induction fuel generalizing a with
  | zero => simp [walk]
  | succ fuel ih =>
      rw [walk]
      have hall : ∀ c ∈ children a, ¬ c.Stops children :=
        fun c hc hs => h (stops_iff.mpr ⟨c, hc, hs⟩)
      generalize children a = cs at hall
      induction cs with
      | nil => simp [walkList]
      | cons c cs ihc =>
          rw [List.forall_mem_cons] at hall
          cases c with
          | skip => exact ihc hall.2
          | stop => exact absurd trivial hall.1
          | enter b =>
              have hb := ih hall.1
              cases hd : walk children fuel b with
              | none => simp [walkList, hd]
              | some r =>
                  cases r with
                  | false => exact absurd hd hb
                  | true =>
                      rw [walkList, hd]
                      exact ihc hall.2

theorem walkList_mono {down down' : α → Option Bool} (hdown : ∀ a r, down a = some r →
    down' a = some r) {cs : List (Child α)} {r : Bool} (h : walkList down cs = some r) :
    walkList down' cs = some r := by
  induction cs with
  | nil => exact h
  | cons c cs ih =>
      cases c with
      | skip => exact ih h
      | stop => exact h
      | enter a =>
          rw [walkList] at h ⊢
          cases hd : down a with
          | none => simp [hd] at h
          | some q =>
              rw [hd] at h
              rw [hdown a q hd]
              cases q with
              | false => exact h
              | true => exact ih h

theorem walk_mono {n m : ℕ} (hnm : n ≤ m) {a : α} {r : Bool} (h : walk children n a = some r) :
    walk children m a = some r := by
  induction n generalizing m a r with
  | zero => cases h
  | succ n ih =>
      cases m with
      | zero => omega
      | succ m => exact walkList_mono (fun b q hq => ih (by omega) hq) h

/-- The step towards the end of a walk: where it ends below all children that it goes down to, it
gets through the children. -/
theorem walkList_ends {cs before : List (Child α)} {a : α} (hcs : children a = before ++ cs)
    (hbefore : ∀ c ∈ before, ¬ c.Stops children)
    (h : ∀ b, GoesDown children b a → ∃ fuel, walk children fuel b ≠ none) :
    ∃ fuel, walkList (walk children fuel) cs ≠ none := by
  induction cs generalizing before with
  | nil => exact ⟨0, by simp [walkList]⟩
  | cons c cs ih =>
      have hmove : children a = (before ++ [c]) ++ cs := by
        rw [hcs, List.append_assoc]
        rfl
      have hclean : ¬ c.Stops children → ∀ d ∈ before ++ [c], ¬ d.Stops children := by
        intro hc d hd
        rw [List.mem_append, List.mem_singleton] at hd
        rcases hd with hd | rfl
        · exact hbefore d hd
        · exact hc
      cases c with
      | skip => exact ih hmove (hclean id)
      | stop => exact ⟨0, by simp [walkList]⟩
      | enter b =>
          obtain ⟨n, hn⟩ := h b ⟨before, cs, hcs, hbefore⟩
          obtain ⟨r, hr⟩ := Option.ne_none_iff_exists'.mp hn
          cases r with
          | false => exact ⟨n, by simp [walkList, hr]⟩
          | true =>
              obtain ⟨m, hm⟩ := ih hmove (hclean (not_stops_of_walk hr))
              obtain ⟨q, hq⟩ := Option.ne_none_iff_exists'.mp hm
              refine ⟨max n m, ?_⟩
              rw [walkList, walk_mono (le_max_left n m) hr]
              have hend := walkList_mono
                (fun b q hq => walk_mono (le_max_right n m) hq) hq
              dsimp only
              rw [hend]
              simp

theorem walkList_goesDown {fuel : ℕ} {a b : α} (hd : GoesDown children b a)
    (h : walkList (walk children fuel) (children a) ≠ none) : walk children fuel b ≠ none := by
  obtain ⟨before, after, hcs, hbefore⟩ := hd
  rw [hcs] at h
  clear hcs
  induction before with
  | nil =>
      intro hn
      rw [List.nil_append, walkList, hn] at h
      exact h rfl
  | cons c before ih =>
      rw [List.forall_mem_cons] at hbefore
      cases c with
      | skip => exact ih h hbefore.2
      | stop => exact absurd trivial hbefore.1
      | enter d =>
          rw [List.cons_append, walkList] at h
          cases hw : walk children fuel d with
          | none => simp [hw] at h
          | some r =>
              rw [hw] at h
              cases r with
              | false => exact absurd hw (walk_ne_false hbefore.1)
              | true => exact ih h hbefore.2

/-- A walk ends exactly when it cannot go down for ever. -/
theorem walk_ends_iff_acc {a : α} :
    (∃ fuel, walk children fuel a ≠ none) ↔ Acc (GoesDown children) a := by
  constructor
  · rintro ⟨fuel, h⟩
    induction fuel generalizing a with
    | zero => exact absurd rfl h
    | succ fuel ih => exact ⟨a, fun b hb => ih (walkList_goesDown hb h)⟩
  · intro h
    induction h with
    | intro a _ ih =>
        obtain ⟨fuel, hf⟩ := walkList_ends (List.nil_append _).symm
          (fun c hc => absurd hc List.not_mem_nil) ih
        exact ⟨fuel + 1, hf⟩

theorem walk_ends_iff {a : α} :
    (∃ fuel, walk children fuel a ≠ none) ↔
      ¬ ∃ way : ℕ → α, way 0 = a ∧ ∀ n, GoesDown children (way (n + 1)) (way n) := by
  rw [walk_ends_iff_acc, acc_iff_isEmpty_descending_chain]
  constructor
  · rintro h ⟨way, h0, hway⟩
    exact h.false ⟨way, h0, hway⟩
  · intro h
    exact ⟨fun way => h ⟨way.1, way.2⟩⟩

end ErofsUtils.DepthFirst
