import Mathlib
import Xv6.Fs.Names
import Xv6.Mkfs

/-!
# Link counts and names

The kernel keeps, for every allocated inode, a link count that is meant to be the number of
entries naming it in the directories reachable from the root, a directory's own `.` not
counted and each `..` counted for the parent (`LinksExact`). An inode whose count falls to
`0` is freed when its last reference goes.

`create` does not check that the parent directory is still linked. A process whose current
directory has been unlinked can create a file in it: the file has one link, in a directory
no path reaches, and once the directory is freed the file is allocated, unnamed and
unreferenced for good.

* `reachable_eq_root`, `names_eq_of_reachable_eq_root`: when the root has no entry but `.`
  and `..`, it is the only reachable directory;
* `create_in_unlinked_cwd`: the run from the image of `mkfs` with no files that ends in a
  file with one link and no name, then in that file leaked.
-/

namespace Xv6.Names

/-- The directories reachable from the root, along entries in use other than `.` and `..`. -/
inductive Reachable (s : Sys) : ℕ → Prop
  | root : Reachable s ROOTINO
  | child {d : ℕ} {e : Dirent} : Reachable s d → (s.node d).type = some .dir →
      e ∈ (s.node d).entries → e.inum ≠ 0 → e.name ≠ ['.'] → e.name ≠ ['.', '.'] →
      Reachable s e.inum

/-- The entries of directory `n` naming `inum`, its own `.` apart. -/
def Node.namesOf (n : Node) (inum : ℕ) : ℕ :=
  (n.entries.filter fun e => e.inum == inum && e.name != ['.']).length

open Classical in
/-- The entries naming `inum` in the directories reachable from the root. Entries hold
inode numbers below `2^16`. -/
noncomputable def names (s : Sys) (inum : ℕ) : ℕ :=
  ∑ d ∈ (Finset.range (2 ^ 16)).filter (Reachable s), (s.node d).namesOf inum

/-- Every allocated inode has as many links as names. -/
def LinksExact (s : Sys) : Prop :=
  ∀ inum, (s.node inum).type ≠ none → (s.node inum).nlink = names s inum

/-- With no entry in the root but `.` and `..`, only the root is reachable. -/
theorem reachable_eq_root {s : Sys}
    (hroot : ∀ e ∈ (s.node ROOTINO).entries, e.inum ≠ 0 → e.name = ['.'] ∨ e.name = ['.', '.'])
    {d : ℕ} (hd : Reachable s d) : d = ROOTINO := by
  induction hd with
  | root => rfl
  | child _ _ he hinum hdot hdotdot ih =>
    subst ih
    rcases hroot _ he hinum with h | h
    · exact absurd h hdot
    · exact absurd h hdotdot

theorem names_eq_of_reachable_eq_root {s : Sys}
    (hroot : ∀ e ∈ (s.node ROOTINO).entries, e.inum ≠ 0 → e.name = ['.'] ∨ e.name = ['.', '.'])
    (inum : ℕ) : names s inum = (s.node ROOTINO).namesOf inum := by
  classical
  have hset : (Finset.range (2 ^ 16)).filter (Reachable s) = {ROOTINO} := by
    ext d
    simp only [Finset.mem_filter, Finset.mem_range, Finset.mem_singleton]
    constructor
    · rintro ⟨-, hd⟩
      exact reachable_eq_root hroot hd
    · rintro rfl
      exact ⟨by decide, .root⟩
  rw [names, hset, Finset.sum_singleton]

/-- Process `init`. -/
def initProc : Fin NPROC := ⟨0, by decide⟩

/-- `mkdir /d`, `cd /d`, `unlink /d`, then `open("x", O_CREATE|O_RDWR)`, all by `init`. -/
def unlinkedCwdCalls : List (Fin NPROC × Call) :=
  [(initProc, .mkdir ['/', 'd']), (initProc, .chdir ['/', 'd']), (initProc, .unlink ['/', 'd']),
    (initProc, .open ['x'] (O_CREATE ||| O_RDWR))]

/-- Then `close(0)` and `cd /`: the directory is freed, and the file with it loses its only
name. -/
def leakCalls : List (Fin NPROC × Call) := [(initProc, .close 0), (initProc, .chdir ['/'])]

set_option maxRecDepth 4000 in
theorem create_in_unlinked_cwd :
    ∃ s₁ s₂, run Mkfs.sb.ninodes (boot []) unlinkedCwdCalls = some s₁ ∧ ¬ LinksExact s₁ ∧
      run Mkfs.sb.ninodes s₁ leakCalls = some s₂ ∧
      (s₂.node 3).type = some .file ∧ (s₂.node 3).nlink = 1 ∧
      (∀ inum, inum < Mkfs.sb.ninodes → ∀ e ∈ (s₂.node inum).entries, e.inum ≠ 3) ∧
      ∀ i, (s₂.itable i).inum = 3 → (s₂.itable i).ref = 0 := by
  obtain ⟨s₁, h₁⟩ : ∃ s₁, run Mkfs.sb.ninodes (boot []) unlinkedCwdCalls = some s₁ :=
    Option.isSome_iff_exists.mp (by decide)
  -- after the four calls: the new file is inode `3`, with one link, named only in `d`
  have hfacts₁ : ((run Mkfs.sb.ninodes (boot []) unlinkedCwdCalls).map fun s =>
      ((s.node 3).type, (s.node 3).nlink, (s.node ROOTINO).entries.all fun e =>
        e.inum == 0 || e.name == ['.'] || e.name == ['.', '.'],
        (s.node ROOTINO).namesOf 3)) = some (some .file, 1, true, 0) := by
    decide
  simp only [h₁, Option.map_some, Option.some.injEq, Prod.mk.injEq] at hfacts₁
  obtain ⟨htype, hnlink, hroot, hnames⟩ := hfacts₁
  have hroot' : ∀ e ∈ (s₁.node ROOTINO).entries, e.inum ≠ 0 → e.name = ['.'] ∨ e.name = ['.', '.'] := by
    intro e he hinum
    simpa [hinum] using List.all_eq_true.mp hroot e he
  -- after the next two: the file is allocated, named nowhere and referenced by no one
  have hfacts₂ : ((run Mkfs.sb.ninodes (boot []) (unlinkedCwdCalls ++ leakCalls)).map fun s =>
      ((s.node 3).type, (s.node 3).nlink,
        (List.range Mkfs.sb.ninodes).all fun inum => (s.node inum).entries.all fun e => e.inum != 3,
        (List.finRange NINODE).all fun i => (s.itable i).inum != 3 || (s.itable i).ref == 0)) =
      some (some .file, 1, true, true) := by
    decide
  rw [run_append, h₁, Option.bind_some] at hfacts₂
  obtain ⟨s₂, h₂, hs₂⟩ := Option.map_eq_some_iff.mp hfacts₂
  simp only [Prod.mk.injEq] at hs₂
  obtain ⟨htype₂, hnlink₂, hentries, hrefs⟩ := hs₂
  refine ⟨s₁, s₂, h₁, fun hexact => ?_, h₂, htype₂, hnlink₂, fun inum hinum e he => ?_, fun i hi => ?_⟩
  · -- one link, but no name in a reachable directory
    have := hexact 3 (by simp [htype])
    rw [hnlink, names_eq_of_reachable_eq_root hroot', hnames] at this
    exact absurd this (by decide)
  · have := List.all_eq_true.mp (List.all_eq_true.mp hentries inum (List.mem_range.mpr hinum)) e he
    simpa using this
  · have := List.all_eq_true.mp hrefs i (List.mem_finRange i)
    simpa [hi] using this

end Xv6.Names
