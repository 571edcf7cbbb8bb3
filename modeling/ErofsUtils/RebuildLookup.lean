import ErofsUtils.RebuildGrow

/-!
# The entry at a normal form

A normal form is followed from the directory at which a path starts, one name after the other. In
a well-formed tree different normal forms lead to different directories, and a change that adds
one entry adds it at one normal form only.
-/

namespace ErofsUtils

namespace TreeHeap

/-- The directory at a normal form; the last name is first. -/
def dirAt (t : TreeHeap) (root : ℕ) : List Name → Option ℕ
  | [] => some root
  | n :: st =>
    match dirAt t root st with
    | none => none
    | some i =>
      match t.findDentry i n with
      | none => none
      | some e => if (t.dentry e).type = .dir then some (t.dentry e).inode else none

def entryAt (t : TreeHeap) (root : ℕ) : List Name → Option ℕ
  | [] => none
  | n :: st => (t.dirAt root st).bind fun i => t.findDentry i n

/-- No `.` and no `..` is left. -/
def Proper (st : List Name) : Prop := ∀ n ∈ st, ¬isDotDotdot n

variable {t t' : TreeHeap} {root pwd : ℕ} {s : Name} {ty : FileType}

theorem entryAt_cons {n : Name} {st : List Name} {e : ℕ}
    (h : t.entryAt root (n :: st) = some e) :
    ∃ i, t.dirAt root st = some i ∧ e ∈ t.subdirs i ∧ (t.dentry e).name = n := by
  unfold entryAt at h
  rw [Option.bind_eq_some_iff] at h
  obtain ⟨i, hi, hf⟩ := h
  exact ⟨i, hi, findDentry_some hf⟩

theorem WellFormed.entryAt_of_mem (h : t.WellFormed) {n : Name} {st : List Name} {i e : ℕ}
    (hi : t.dirAt root st = some i) (he : e ∈ t.subdirs i) (hn : (t.dentry e).name = n) :
    t.entryAt root (n :: st) = some e := by
  change ((t.dirAt root st).bind fun i => t.findDentry i n) = some e
  rw [hi, Option.bind_some]
  exact h.findDentry_iff.2 ⟨he, hn⟩

theorem dirAt_cons {n : Name} {st : List Name} {j : ℕ}
    (h : t.dirAt root (n :: st) = some j) :
    ∃ i e, t.dirAt root st = some i ∧ e ∈ t.subdirs i ∧ (t.dentry e).name = n ∧
      (t.dentry e).type = .dir ∧ (t.dentry e).inode = j := by
  unfold dirAt at h
  cases hi : t.dirAt root st with
  | none => simp [hi] at h
  | some i =>
    cases hf : t.findDentry i n with
    | none => simp [hi, hf] at h
    | some e =>
      simp only [hi, hf, Option.ite_none_right_eq_some, Option.some.injEq] at h
      obtain ⟨he, hn⟩ := findDentry_some hf
      exact ⟨i, e, rfl, he, hn, h.1, h.2⟩

theorem WellFormed.dirAt_of_mem (h : t.WellFormed) {n : Name} {st : List Name} {i e : ℕ}
    (hi : t.dirAt root st = some i) (he : e ∈ t.subdirs i) (hn : (t.dentry e).name = n)
    (hty : (t.dentry e).type = .dir) : t.dirAt root (n :: st) = some (t.dentry e).inode := by
  unfold dirAt
  simp only [hi, h.findDentry_iff.2 ⟨he, hn⟩, hty, if_true]

theorem WellFormed.dirAt_lt (h : t.WellFormed) (hr : 0 < root ∧ root < t.nextInode)
    {st : List Name} {i : ℕ} (hi : t.dirAt root st = some i) : 0 < i ∧ i < t.nextInode := by
  cases st with
  | nil =>
    cases hi
    exact hr
  | cons n st =>
    obtain ⟨j, e, -, he, -, -, rfl⟩ := dirAt_cons hi
    exact (h.inodes j e he).2

theorem WellFormed.dirAt_parent (h : t.WellFormed) {n : Name} {st : List Name} {i : ℕ}
    (hn : ¬isDotDotdot n) (hi : t.dirAt root (n :: st) = some i) :
    t.dirAt root st = some (t.inode i).iParent := by
  obtain ⟨j, e, hj, he, rfl, hty, rfl⟩ := dirAt_cons hi
  rw [hj, h.up j e ⟨he, hty, hn⟩]

theorem WellFormed.dirAt_depth (h : t.WellFormed) : ∃ depth : ℕ → ℕ, ∀ st i, Proper st →
    t.dirAt root st = some i → depth i = depth root + st.length := by
  obtain ⟨depth, hd⟩ := h.depth
  refine ⟨depth, fun st => ?_⟩
  induction st with
  | nil =>
    intro i _ hi
    cases hi
    rfl
  | cons n st ih =>
    intro i hp hi
    obtain ⟨j, e, hj, he, rfl, hty, rfl⟩ := dirAt_cons hi
    have hj' := ih j (fun m hm => hp m (List.mem_cons_of_mem _ hm)) hj
    rw [hd j e ⟨he, hty, hp _ List.mem_cons_self⟩, hj', List.length_cons]
    omega

/-- Different normal forms lead to different directories. -/
theorem WellFormed.dirAt_inj (h : t.WellFormed) {p q : List Name} {i : ℕ} (hp : Proper p)
    (hq : Proper q) (hpi : t.dirAt root p = some i) (hqi : t.dirAt root q = some i) : p = q := by
  obtain ⟨depth, hd⟩ := @WellFormed.dirAt_depth t root h
  have hlen : p.length = q.length := by
    have h1 := hd p i hp hpi
    have h2 := hd q i hq hqi
    omega
  induction p generalizing q i with
  | nil => exact (List.length_eq_zero_iff.1 hlen.symm).symm
  | cons n p ih =>
    cases q with
    | nil => simp at hlen
    | cons m q =>
      have hp' : Proper p := fun k hk => hp k (List.mem_cons_of_mem _ hk)
      have hq' : Proper q := fun k hk => hq k (List.mem_cons_of_mem _ hk)
      have hn := hp n List.mem_cons_self
      have hm := hq m List.mem_cons_self
      have hpq := ih hp' hq' (h.dirAt_parent hn hpi) (h.dirAt_parent hm hqi)
        (by simpa using hlen)
      subst hpq
      obtain ⟨j, e, hj, he, rfl, hty, rfl⟩ := dirAt_cons hpi
      obtain ⟨j', e', hj', he', rfl, hty', hino⟩ := dirAt_cons hqi
      rw [hj, Option.some.injEq] at hj'
      subst hj'
      rw [h.single j e e' ⟨he, hty, hn⟩ ⟨he', hty', hm⟩ hino.symm]

/-! ## Growing trees -/

theorem Grows.dirAt_mono (g : Grows t t' pwd s ty) (h' : t'.WellFormed) {st : List Name} {i : ℕ}
    (hi : t.dirAt root st = some i) : t'.dirAt root st = some i := by
  induction st generalizing i with
  | nil => exact hi
  | cons n st ih =>
    obtain ⟨j, e, hj, he, hn, hty, rfl⟩ := dirAt_cons hi
    obtain ⟨he', hd⟩ := g.keep j e he
    rw [← hd] at hn hty ⊢
    exact h'.dirAt_of_mem (ih hj) he' hn hty

theorem Grows.entryAt_mono (g : Grows t t' pwd s ty) (h' : t'.WellFormed) {st : List Name} {e : ℕ}
    (he : t.entryAt root st = some e) :
    t'.entryAt root st = some e ∧ t'.dentry e = t.dentry e := by
  cases st with
  | nil => cases he
  | cons n st =>
    obtain ⟨i, hi, hmem, hn⟩ := entryAt_cons he
    obtain ⟨hmem', hd⟩ := g.keep i e hmem
    rw [← hd] at hn
    exact ⟨h'.entryAt_of_mem (g.dirAt_mono h' hi) hmem' hn, hd⟩

theorem Grows.dirAt_new (g : Grows t t' pwd s ty) (h : t.WellFormed) {stk : List Name}
    (hr : 0 < root ∧ root < t.nextInode) (hstk : Proper stk) (hpwd : t.dirAt root stk = some pwd)
    {p : List Name} {i : ℕ} (hp : Proper p) (hi : t'.dirAt root p = some i) :
    t.dirAt root p = some i ∨ (t.nextInode ≤ i ∧ p = s :: stk) := by
  induction p generalizing i with
  | nil => exact .inl hi
  | cons n p ih =>
    have hp' : Proper p := fun k hk => hp k (List.mem_cons_of_mem _ hk)
    obtain ⟨j, e, hj, he, hn, hty, hino⟩ := dirAt_cons hi
    rcases ih hp' hj with hold | ⟨hnew, -⟩
    · have hjlt := (h.dirAt_lt hr hold).2
      rcases g.new j e he with he | ⟨rfl, hs, hty', hfresh⟩ | ⟨hge, -⟩
      · have hd := (g.keep j e he).2
        rw [hd] at hn hty hino
        exact .inl (hino ▸ h.dirAt_of_mem hold he hn hty)
      · refine .inr ⟨hino ▸ hfresh (hty'.symm.trans hty), ?_⟩
        rw [← hn, hs, h.dirAt_inj hp' hstk hold hpwd]
      · omega
    · rcases g.new j e he with he | ⟨rfl, -, -, -⟩ | ⟨-, hdot⟩
      · have := (h.inodes j e he).1
        omega
      · have := (h.dirAt_lt hr hpwd).2
        omega
      · rw [hn] at hdot
        exact absurd hdot (hp n List.mem_cons_self)

theorem Grows.entryAt_new (g : Grows t t' pwd s ty) (h : t.WellFormed) {stk : List Name}
    (hr : 0 < root ∧ root < t.nextInode) (hstk : Proper stk) (hpwd : t.dirAt root stk = some pwd)
    {p : List Name} {e : ℕ} (hp : Proper p) (he : t'.entryAt root p = some e) :
    t.entryAt root p = some e ∨ (p = s :: stk ∧ (t'.dentry e).type = ty) := by
  cases p with
  | nil => cases he
  | cons n p =>
    have hp' : Proper p := fun k hk => hp k (List.mem_cons_of_mem _ hk)
    obtain ⟨i, hi, hmem, hn⟩ := entryAt_cons he
    rcases g.dirAt_new h hr hstk hpwd hp' hi with hold | ⟨hnew, -⟩
    · have hilt := (h.dirAt_lt hr hold).2
      rcases g.new i e hmem with hmem | ⟨rfl, hs, hty, -⟩ | ⟨hge, -⟩
      · rw [(g.keep i e hmem).2] at hn
        exact .inl (h.entryAt_of_mem hold hmem hn)
      · refine .inr ⟨?_, hty⟩
        rw [← hn, hs, h.dirAt_inj hp' hstk hold hpwd]
      · omega
    · rcases g.new i e hmem with hmem | ⟨rfl, -, -, -⟩ | ⟨-, hdot⟩
      · have := (h.inodes i e hmem).1
        omega
      · have := (h.dirAt_lt hr hpwd).2
        omega
      · rw [hn] at hdot
        exact absurd hdot (hp n List.mem_cons_self)

end TreeHeap

end ErofsUtils
