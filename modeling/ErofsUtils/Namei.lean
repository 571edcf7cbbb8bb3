import ErofsUtils.Pathname

/-!
# Looking a path up

`erofs_ilookup` walks along the components of a path and looks each one up in the directory that
it has come to. Where an iteration over a directory goes through, the lookup of a name finds the
first of its entries that has this name.
-/

namespace ErofsUtils
open ByteMemory CString

section Find

variable {sbi : DirSb} {dir : DirInode} {name : FileName} {mem : Mem} {stop maxsize : ℕ}

theorem dname_eq_iff {k : ℕ} : (visitAt mem stop maxsize k).dname = name ↔
    name.length = Dirent.namelen mem stop maxsize k ∧
      slice mem (Dirent.nameoff mem k) (Dirent.namelen mem stop maxsize k) = name := by
  constructor
  · rintro rfl
    exact ⟨Dirent.length_dname, rfl⟩
  · intro h
    exact h.2

/-- A search through a block that an iteration goes through finds the first entry of the name. -/
theorem findTargetLoop_find (name : FileName) {fuel k next : ℕ} {vs : List DirVisit}
    (h : blockEntries mem stop maxsize fuel k next = (vs, true)) :
    match vs.find? (·.dname = name) with
    | some v => ∃ i, (findTargetLoop name mem stop maxsize fuel k).1 = .ok (some i) ∧
        visitAt mem stop maxsize i = v
    | none => (findTargetLoop name mem stop maxsize fuel k).1 = .ok none := by
  induction fuel generalizing k next vs with
  | zero =>
      rw [blockEntries, Prod.mk.injEq] at h
      rw [← h.1]
      rfl
  | succ fuel ih =>
      rw [blockEntries] at h
      rw [findTargetLoop]
      by_cases hk : stop ≤ 12 * k
      · rw [if_pos hk, Prod.mk.injEq] at h
        rw [← h.1, if_pos hk]
        rfl
      rw [if_neg hk] at h
      rw [if_neg hk]
      by_cases hp : Dirent.Placed mem stop maxsize next k
      · rw [if_pos hp] at h
        cases hrest : blockEntries mem stop maxsize fuel (k + 1)
            (next + Dirent.namelen mem stop maxsize k) with
        | mk ws done =>
            rw [hrest, Prod.mk.injEq] at h
            obtain ⟨rfl, rfl⟩ := h
            have hfits : ¬ (maxsize < (Dirent.nameoff mem k +
                Dirent.namelen mem stop maxsize k) % 2 ^ 32 ∨
                erofsNameLen < Dirent.namelen mem stop maxsize k) := by
              have h1 := hp.2.1.1
              have h2 := hp.2.1.2
              omega
            dsimp only
            rw [if_neg hfits]
            by_cases hname : (visitAt mem stop maxsize k).dname = name
            · rw [if_pos (dname_eq_iff.mp hname), List.find?_cons_of_pos (by simpa using hname)]
              exact ⟨k, rfl, rfl⟩
            · rw [if_neg (fun hc => hname (dname_eq_iff.mpr hc)),
                List.find?_cons_of_neg (by simpa using hname)]
              exact ih hrest
      · rw [if_neg hp, Prod.mk.injEq] at h
        cases h.2

theorem nameiLoop_find {fuel pos : ℕ} {buf : Mem} {vs : List DirVisit}
    (h : dirEntriesLoop sbi dir fuel pos buf = (vs, 0)) :
    (nameiLoop sbi dir name fuel pos buf).ret =
      match vs.find? (·.dname = name) with
      | some v => .ok v.nid
      | none => .error eNoEnt := by
  induction fuel generalizing pos buf vs with
  | zero =>
      rw [dirEntriesLoop, Prod.mk.injEq] at h
      rw [← h.1]
      rfl
  | succ fuel ih =>
      rw [dirEntriesLoop] at h
      rw [nameiLoop]
      by_cases hpos : dir.iSize ≤ pos
      · rw [if_pos hpos, Prod.mk.injEq] at h
        rw [← h.1, if_pos hpos]
        rfl
      rw [if_neg hpos] at h
      rw [if_neg hpos]
      dsimp only at h ⊢
      cases hread : dir.pread (min (dir.iSize - pos) sbi.blksz) pos with
      | error e =>
          have hneg := dir.pread_neg hread
          rw [hread, Prod.mk.injEq] at h
          have hz := h.2
          omega
      | ok bytes =>
          rw [hread] at h
          dsimp only at h ⊢
          generalize fillBuf buf bytes (min (dir.iSize - pos) sbi.blksz) = b at h ⊢
          generalize min (dir.iSize - pos) sbi.blksz = maxsize at h ⊢
          by_cases hstop : Dirent.nameoff b 0 < 12 ∨ sbi.blksz ≤ Dirent.nameoff b 0
          · rw [if_pos hstop, Prod.mk.injEq, eFsCorrupted] at h
            exact absurd h.2 (by decide)
          rw [if_neg hstop] at h
          rw [if_neg hstop]
          cases hb : blockEntries b (Dirent.nameoff b 0) maxsize (Dirent.nameoff b 0) 0
              (Dirent.nameoff b 0) with
          | mk ws done =>
              rw [hb] at h
              cases done with
              | false =>
                  rw [Prod.mk.injEq, eFsCorrupted] at h
                  exact absurd h.2 (by decide)
              | true =>
                  cases hrest : dirEntriesLoop sbi dir fuel (pos + maxsize) b with
                  | mk rest ret =>
                      rw [hrest, Prod.mk.injEq] at h
                      obtain ⟨rfl, rfl⟩ := h
                      have hfind := findTargetLoop_find name hb
                      have htail := ih hrest
                      rw [List.find?_append]
                      rw [findTargetDirent]
                      generalize findTargetLoop name b (Dirent.nameoff b 0) maxsize
                        (Dirent.nameoff b 0) 0 = r at hfind ⊢
                      obtain ⟨res, reads⟩ := r
                      cases hw : ws.find? (·.dname = name) with
                      | some v =>
                          rw [hw] at hfind
                          obtain ⟨i, hi, rfl⟩ := hfind
                          change res = _ at hi
                          subst hi
                          rfl
                      | none =>
                          rw [hw] at hfind
                          change res = _ at hfind
                          subst hfind
                          exact htail

end Find

section Walk

variable (env : PathEnv)

def erofsNamei (nid : ℕ) (name : FileName) : Except ℤ ℕ :=
  match env.readInode nid with
  | .error ret => .error ret
  | .ok dir => (nameiLoop env.sbi dir name dir.iSize 0 (env.nameiStack nid)).ret

/-- The loop of `link_path_walk` on what is left of the path, with no slash in front of it. Each
turn takes a component, so there are at most as many as there are bytes. -/
def linkPathWalkLoop : ℕ → List UInt8 → ℕ → Except ℤ ℕ
  | 0, _, nid => .ok nid
  | fuel + 1, name, nid =>
    if name = [] then .ok nid
    else
      match erofsNamei env nid (name.takeWhile (· ≠ 47)) with
      | .error ret => .error ret
      | .ok nid =>
        linkPathWalkLoop fuel ((name.dropWhile (· ≠ 47)).dropWhile (· = 47)) nid

def linkPathWalk (path : List UInt8) : Except ℤ ℕ :=
  linkPathWalkLoop env path.length (path.dropWhile (· = 47)) env.sbi.rootNid

/-- `erofs_ilookup`: the inode that a path, without its NUL, resolves to. -/
def erofsIlookup (path : List UInt8) : Except ℤ DirInode :=
  match linkPathWalk env path with
  | .error ret => .error ret
  | .ok nid => env.readInode nid

end Walk

end ErofsUtils
