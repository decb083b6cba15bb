import Mathlib
import Xv6.Fs.Dirs

/-!
# Path names (`skipelem`, `namex` in `kernel/fs.c`)

A path's components are the pieces between its slashes that are not empty. `skipelem` reads
them one at a time: it skips the slashes before a component, copies the component into `name`,
cut to `DIRSIZ` bytes, and skips the slashes after it, so that the rest of the path never
starts with a slash. `namex` looks the components up one directory at a time, from `/` or from
the current directory.

* `components`, `skipelem_eq_some`, `elems_eq`: iterating `skipelem` reads the components in
  order, each cut to `DIRSIZ`, and the rest it returns never starts with a slash;
* `skipelemName`, `ctake_skipelemName`: the bytes `skipelem` leaves in `name`, read as a string
  of at most `DIRSIZ` bytes, are the name the model passes on;
* `walk`, `namexLoop_false`, `walk_refs`: `namei` is the lookup of each component in turn, and
  a walk puts every reference it takes except the one it returns;
* `parentOf`, `namexLoop_true_nil`, `namexLoop_true_append`: `nameiparent` is the walk over all
  components but the last, then the check that it ended on a directory;
* `namex_components`: all of it, for `namei` and `nameiparent`.
-/

namespace Xv6.Names

/-! ## Components -/

/-- The components of a path: the pieces between its slashes that are not empty. -/
def components (path : List Char) : List (List Char) :=
  (path.splitOn '/').filter (· ≠ [])

@[simp] theorem components_nil : components [] = [] := rfl

/-- A slash splits the components. -/
theorem components_append_slash (x y : List Char) :
    components (x ++ '/' :: y) = components x ++ components y := by
  unfold components
  rw [List.splitOn_eq_splitOnP, List.splitOnP_append_cons (p := fun c => c == '/') x y (by simp),
    List.filter_append, List.splitOn_eq_splitOnP, List.splitOn_eq_splitOnP]

theorem components_slash (y : List Char) : components ('/' :: y) = components y := by
  simpa using components_append_slash [] y

theorem components_of_forall_slash {ws : List Char} (hws : ∀ c ∈ ws, c = '/') (y : List Char) :
    components (ws ++ y) = components y := by
  induction ws with
  | nil => rfl
  | cons c ws ih =>
    rw [hws c List.mem_cons_self, List.cons_append, components_slash]
    exact ih fun c hc => hws c (List.mem_cons_of_mem _ hc)

/-- Slashes in front add no component. -/
theorem components_dropWhile (l : List Char) :
    components (l.dropWhile (· = '/')) = components l := by
  conv_rhs => rw [← List.takeWhile_append_dropWhile (p := fun c => decide (c = '/')) (l := l)]
  refine (components_of_forall_slash (fun c hc => ?_) _).symm
  simpa using List.mem_takeWhile_imp hc

/-- A piece without slashes is one component. -/
theorem components_of_forall_ne {e : List Char} (he : e ≠ []) (h : ∀ c ∈ e, c ≠ '/') :
    components e = [e] := by
  rw [components, List.splitOn_eq_splitOnP, List.splitOnP_eq_singleton (by simpa using h)]
  simp [he]

/-- A piece without slashes, then nothing or a slash, is the first component. -/
theorem components_append_word {e r : List Char} (he : e ≠ []) (h : ∀ c ∈ e, c ≠ '/')
    (hr : ∀ c, r.head? = some c → c = '/') : components (e ++ r) = e :: components r := by
  cases r with
  | nil => simp [components_of_forall_ne he h]
  | cons c r =>
    obtain rfl := hr c rfl
    rw [components_append_slash, components_of_forall_ne he h, components_slash]
    rfl

/-- What `dropWhile` leaves does not start with a character it drops. -/
theorem head?_dropWhile_eq {p : Char → Bool} {l : List Char} {c : Char}
    (h : (l.dropWhile p).head? = some c) : p c = false := by
  have := List.head?_dropWhile_not p l
  rw [h] at this
  exact this

/-- A path that starts with a character other than a slash starts with a component. -/
theorem components_cons_word {c : Char} (cs : List Char) (hc : c ≠ '/') :
    components (c :: cs) =
      (c :: cs).takeWhile (· ≠ '/') :: components ((c :: cs).dropWhile (· ≠ '/')) := by
  have hw : ((c :: cs).takeWhile (· ≠ '/')) ≠ [] := by
    rw [List.takeWhile_cons_of_pos (by simpa using hc)]
    exact List.cons_ne_nil _ _
  conv_lhs =>
    rw [← List.takeWhile_append_dropWhile (p := fun c => decide (c ≠ '/')) (l := c :: cs)]
  exact components_append_word hw (fun c hc => by simpa using List.mem_takeWhile_imp hc)
    (fun c hc => by simpa using head?_dropWhile_eq hc)

/-- A path that does not start with a slash and has no component is empty. -/
theorem eq_nil_of_components {r : List Char} (h : components r = []) (hr : r.head? ≠ some '/') :
    r = [] := by
  cases r with
  | nil => rfl
  | cons c r =>
    rw [components_cons_word r (fun e => hr (e ▸ rfl))] at h
    cases h

/-! ## `skipelem` -/

theorem skipelem_eq_none {path : List Char} (h : skipelem path = none) : components path = [] := by
  unfold skipelem at h
  simp only at h
  split_ifs at h with hp
  rw [← components_dropWhile, hp, components_nil]

/-- `skipelem` reads the first component, cut to `DIRSIZ`; the rest holds the other components
and does not start with a slash. -/
theorem skipelem_eq_some {path name rest : List Char} (h : skipelem path = some (name, rest)) :
    ∃ e, components path = e :: components rest ∧ name = e.take DIRSIZ ∧
      rest.head? ≠ some '/' := by
  unfold skipelem at h
  generalize hq : path.dropWhile (· = '/') = q at h
  simp only at h
  split_ifs at h with hne
  obtain ⟨rfl, rfl⟩ := Prod.mk.inj (Option.some.inj h)
  refine ⟨q.takeWhile (· ≠ '/'), ?_, rfl, fun hr => by simpa using head?_dropWhile_eq hr⟩
  -- `q` starts with a character that is not a slash, so its first component is not empty
  obtain ⟨c, cs, rfl⟩ := List.exists_cons_of_ne_nil hne
  have hc : c ≠ '/' := by
    have := head?_dropWhile_eq (p := fun c => decide (c = '/')) (l := path) (by rw [hq]; rfl)
    simpa using this
  rw [← components_dropWhile, hq, components_cons_word cs hc, components_dropWhile]

/-- The rest `skipelem` returns never starts with a slash. -/
theorem skipelem_rest {path name rest : List Char} (h : skipelem path = some (name, rest)) :
    rest.head? ≠ some '/' := by
  obtain ⟨-, -, -, hr⟩ := skipelem_eq_some h
  exact hr

/-- The names `namex` reads from `path`: `skipelem` again and again, until it finds none. -/
def elems (path : List Char) : List (List Char) :=
  match h : skipelem path with
  | none => []
  | some (name, rest) =>
    have := skipelem_length_lt h
    name :: elems rest
termination_by path.length

theorem elems_of_none {path : List Char} (h : skipelem path = none) : elems path = [] := by
  rw [elems]
  split <;> simp_all

theorem elems_of_some {path name rest : List Char} (h : skipelem path = some (name, rest)) :
    elems path = name :: elems rest := by
  rw [elems]
  split <;> simp_all

@[simp] theorem elems_nil : elems [] = [] := elems_of_none rfl

/-- Iterating `skipelem` reads the components of the path in order, each cut to `DIRSIZ`. -/
theorem elems_eq (path : List Char) : elems path = (components path).map (·.take DIRSIZ) := by
  induction path using elems.induct with
  | case1 path h => rw [elems_of_none h, skipelem_eq_none h, List.map_nil]
  | case2 path name rest h _ ih =>
    obtain ⟨e, he, rfl, -⟩ := skipelem_eq_some h
    rw [elems_of_some h, he, List.map_cons, ih]

/-! ## The bytes of `name` -/

/-- The bytes of `name` after `skipelem(path, name)`, over its old bytes `buf`: `memmove` of
`DIRSIZ` bytes of the component when it has that many, else of the whole component, and a NUL
after it. -/
def skipelemName (path : List Char) (buf : ℕ → Char) : ℕ → Char :=
  let e := (path.dropWhile (· = '/')).takeWhile (· ≠ '/')
  if DIRSIZ ≤ e.length then CString.field (e.take DIRSIZ) fun i => buf (i + DIRSIZ)
  else CString.field (e ++ [NUL]) fun i => buf (i + e.length + 1)

/-- Read as a string of at most `DIRSIZ` bytes, as `namecmp` reads it, `name` holds the name
`skipelem` returns; a shorter name is followed by a NUL. -/
theorem ctake_skipelemName {path name rest : List Char} (hp : NUL ∉ path)
    (h : skipelem path = some (name, rest)) (buf : ℕ → Char) :
    CString.ctake NUL (skipelemName path buf) DIRSIZ = name ∧
      (name.length < DIRSIZ → skipelemName path buf name.length = NUL) := by
  have hname : name = ((path.dropWhile (· = '/')).takeWhile (· ≠ '/')).take DIRSIZ := by
    unfold skipelem at h
    simp only at h
    split_ifs at h
    exact (Prod.mk.inj (Option.some.inj h)).1.symm
  subst hname
  have he : NUL ∉ (path.dropWhile (· = '/')).takeWhile (· ≠ '/') := fun hn =>
    hp ((List.dropWhile_sublist _).subset ((List.takeWhile_sublist _).subset hn))
  unfold skipelemName
  generalize (path.dropWhile (· = '/')).takeWhile (· ≠ '/') = e at he ⊢
  dsimp only
  split_ifs with hD
  · -- a component of `DIRSIZ` bytes or more: no NUL is written, and none is read
    have hl : (e.take DIRSIZ).length = DIRSIZ := List.length_take_of_le hD
    refine ⟨?_, fun hlt => absurd hlt (by omega)⟩
    have := CString.ctake_field_append (l := e.take DIRSIZ)
      (fun hn => he (List.mem_of_mem_take hn)) []
      (fun i => buf (i + DIRSIZ)) DIRSIZ
    rwa [List.append_nil, hl, Nat.sub_self, CString.ctake_zero, List.take_take, min_self,
      List.append_nil] at this
  · have hl : e.take DIRSIZ = e := List.take_of_length_le (by omega)
    rw [hl]
    refine ⟨?_, fun _ => by simp [CString.field]⟩
    rw [CString.ctake_field_append he, CString.ctake_field_nul, List.append_nil, hl]

/-! ## `namex` -/

/-- The inode `namex` starts from: `/` for a path that starts with a slash, else the current
directory of process `p`, with one more reference. -/
def namexStart (s : Sys) (p : Fin NPROC) (path : List Char) : Option (Fin NINODE × Sys) :=
  if path.head? = some '/' then iget s ROOTINO else some ((s.proc p).cwd, idup s (s.proc p).cwd)

theorem namex_eq (s : Sys) (p : Fin NPROC) (path : List Char) (parent : Bool) :
    namex s p path parent =
      (namexStart s p path).bind fun (ip, s) => namexLoop s parent ip path.length path [] := by
  unfold namex namexStart
  cases (if path.head? = some '/' then iget s ROOTINO
      else some ((s.proc p).cwd, idup s (s.proc p).cwd)) with
  | none => rfl
  | some r => rfl

/-- The lookup of each name in turn from the directory `ip`, to which the caller holds a
reference: lock it, check that it is a directory, look the name up and put it. A file that is
not a directory, or a name that is not there, ends the walk with `none`, the last inode put. -/
def walk (s : Sys) (ip : Fin NINODE) : List (List Char) → Option (Option (Fin NINODE) × Sys)
  | [] => some (some ip, s)
  | name :: names =>
    match ilock s ip with
    | none => none
    | some s =>
      if (s.ino ip).type ≠ some .dir then some (none, iput s ip)
      else match dirlookup s ip name with
        | none => none
        | some (none, s) => some (none, iput s ip)
        | some (some (next, _), s) => walk (iput s ip) next names

/-- Where `nameiparent` stops, one name early: the walk's directory `dp`, locked and checked to
be a directory, with the last name. -/
def parentOf (last : List Char) :
    Option (Fin NINODE) × Sys → Option (Option (Fin NINODE × List Char) × Sys)
  | (none, s) => some (none, s)
  | (some dp, s) =>
    match ilock s dp with
    | none => none
    | some s => if (s.ino dp).type ≠ some .dir then some (none, iput s dp) else some (some (dp, last), s)

/-- `dirlookup` compares only the first `DIRSIZ` bytes of the name. -/
theorem dirlookup_take (s : Sys) (dp : Fin NINODE) (name : List Char) :
    dirlookup s dp (name.take DIRSIZ) = dirlookup s dp name := by
  simp only [dirlookup, findName, namecmp, List.take_take, min_self]

theorem walk_take (s : Sys) (ip : Fin NINODE) (names : List (List Char)) :
    walk s ip (names.map (·.take DIRSIZ)) = walk s ip names := by
  induction names generalizing s ip with
  | nil => rfl
  | cons name names ih => simp only [List.map_cons, walk, dirlookup_take, ih]

/-- `namei`'s loop is the walk over the names `skipelem` reads: the fuel never runs out. -/
theorem namexLoop_false (s : Sys) (ip : Fin NINODE) (fuel : ℕ) (path name : List Char)
    (hf : path.length ≤ fuel) :
    (namexLoop s false ip fuel path name).map (fun (r, s) => (r.map Prod.fst, s)) =
      walk s ip (elems path) := by
  induction fuel generalizing s ip path name with
  | zero =>
    obtain rfl := List.eq_nil_of_length_eq_zero (Nat.le_zero.mp hf)
    rw [elems_nil]
    rfl
  | succ fuel ih =>
    cases hs : skipelem path with
    | none =>
      unfold namexLoop
      rw [hs, elems_of_none hs]
      rfl
    | some er =>
      obtain ⟨elem, rest⟩ := er
      have hl := skipelem_length_lt hs
      unfold namexLoop
      rw [hs, elems_of_some hs]
      simp only [walk, Bool.false_eq_true, false_and, if_false]
      -- the pass `namexLoop` makes is the walk's first step
      cases ilock s ip with
      | none => rfl
      | some s₁ =>
        simp only
        split_ifs
        · rfl
        · cases dirlookup s₁ ip elem with
          | none => rfl
          | some r =>
            obtain ⟨_ | ⟨next, off⟩, s₂⟩ := r
            · rfl
            · exact ih _ _ _ _ (by omega)

/-- With no name left to read, `nameiparent` puts the inode it started from and fails. -/
theorem namexLoop_true_nil (s : Sys) (ip : Fin NINODE) (fuel : ℕ) {path : List Char}
    (name : List Char) (h : elems path = []) :
    namexLoop s true ip fuel path name = some (none, iput s ip) := by
  cases hs : skipelem path with
  | none =>
    unfold namexLoop
    rw [hs]
    rfl
  | some er => simp [elems_of_some hs] at h

/-- `nameiparent`'s loop is the walk over all names but the last, then `parentOf`: its early
stop on the empty rest of the path comes exactly at the last name, since the rest never starts
with a slash. -/
theorem namexLoop_true_append (fuel : ℕ) :
    ∀ (s : Sys) (ip : Fin NINODE) (path name : List Char) (names : List (List Char))
      (last : List Char), path.length ≤ fuel → elems path = names ++ [last] →
      namexLoop s true ip fuel path name = (walk s ip names).bind (parentOf last) := by
  induction fuel with
  | zero =>
    intro s ip path name names last hf h
    obtain rfl := List.eq_nil_of_length_eq_zero (Nat.le_zero.mp hf)
    simp at h
  | succ fuel ih =>
    intro s ip path name names last hf h
    cases hs : skipelem path with
    | none => simp [elems_of_none hs] at h
    | some er =>
      obtain ⟨elem, rest⟩ := er
      have hl := skipelem_length_lt hs
      obtain ⟨e, he, -, hr⟩ := skipelem_eq_some hs
      rw [elems_of_some hs] at h
      unfold namexLoop
      rw [hs]
      simp only
      cases names with
      | nil =>
        -- the last name: the rest of the path is empty
        obtain ⟨rfl, hrest⟩ := List.cons_eq_cons.mp h
        have : rest = [] := eq_nil_of_components
          (List.map_eq_nil_iff.mp (by rw [← elems_eq, hrest])) hr
        subst this
        -- both sides branch on `ilock` alone
        rcases hlock : ilock s ip with _ | s₁ <;>
          simp only [walk, Option.bind_some, parentOf, and_self, if_true, hlock]
      | cons n names =>
        obtain ⟨rfl, hrest⟩ := List.cons_eq_cons.mp h
        have : rest ≠ [] := by
          rintro rfl
          simp at hrest
        simp only [walk, this, and_false, if_false]
        cases ilock s ip with
        | none => rfl
        | some s₁ =>
          simp only
          split_ifs
          · rfl
          · cases dirlookup s₁ ip elem with
            | none => rfl
            | some r =>
              obtain ⟨_ | ⟨next, off⟩, s₂⟩ := r
              · rfl
              · exact ih _ _ _ _ _ _ (by omega) hrest

/-! ## References -/

theorem iget_refs {s s' : Sys} {inum : ℕ} {ip : Fin NINODE} (h : iget s inum = some (ip, s'))
    (i : Fin NINODE) : (s'.itable i).ref = (s.itable i).ref + if i = ip then 1 else 0 := by
  unfold iget at h
  split at h
  · cases h
    by_cases hi : i = ip
    · subst hi
      simp [Sys.setEntry]
    · simp [Sys.setEntry, hi]
  · split at h
    · rename_i hj
      cases h
      -- a free entry has no reference before `iget` takes it
      have h₀ := List.find?_some hj
      by_cases hi : i = ip
      · subst hi
        simp only [beq_iff_eq] at h₀
        simp [Sys.setEntry, h₀]
      · simp [Sys.setEntry, hi]
    · cases h

theorem idup_refs (s : Sys) (ip i : Fin NINODE) :
    ((idup s ip).itable i).ref = (s.itable i).ref + if i = ip then 1 else 0 := by
  by_cases hi : i = ip
  · subst hi
    simp [idup, Sys.setEntry]
  · simp [idup, Sys.setEntry, hi]

theorem ilock_refs {s s' : Sys} {ip : Fin NINODE} (h : ilock s ip = some s') (i : Fin NINODE) :
    (s'.itable i).ref = (s.itable i).ref := by
  unfold ilock at h
  split_ifs at h <;> cases h
  · rfl
  · by_cases hi : i = ip
    · subst hi
      simp [Sys.setEntry]
    · simp [Sys.setEntry, hi]

theorem iput_refs (s : Sys) (ip i : Fin NINODE) :
    ((iput s ip).itable i).ref = (s.itable i).ref - if i = ip then 1 else 0 := by
  unfold iput
  by_cases hi : i = ip
  · subst hi
    rw [if_pos rfl]
    split_ifs <;> simp [Sys.setEntry]
  · split_ifs <;> simp [Sys.setEntry, Sys.setNode, hi]

/-- `iput` gives back one reference the caller holds. -/
theorem iput_refs_add {s : Sys} {ip : Fin NINODE} (h : 0 < (s.itable ip).ref) (i : Fin NINODE) :
    ((iput s ip).itable i).ref + (if i = ip then 1 else 0) = (s.itable i).ref := by
  rw [iput_refs]
  by_cases hi : i = ip
  · subst hi
    rw [if_pos rfl]
    omega
  · simp [hi]

theorem dirlookup_refs {s s' : Sys} {dp : Fin NINODE} {name : List Char}
    {r : Option (Fin NINODE × ℕ)} (h : dirlookup s dp name = some (r, s')) (i : Fin NINODE) :
    (s'.itable i).ref = (s.itable i).ref + if some i = r.map Prod.fst then 1 else 0 := by
  unfold dirlookup at h
  split_ifs at h
  split at h
  · obtain ⟨⟨ip, s₁⟩, h₁, he⟩ := Option.map_eq_some_iff.mp h
    cases he
    simp [iget_refs h₁ i]
  · cases h
    simp

/-- A walk puts every reference it takes but one to the inode it returns: the reference held
on the start moves to the result, or is put when the walk fails. -/
theorem walk_refs {s s' : Sys} {ip : Fin NINODE} {names : List (List Char)}
    {r : Option (Fin NINODE)} (h : walk s ip names = some (r, s')) (i : Fin NINODE) :
    (s'.itable i).ref + (if i = ip then 1 else 0) =
      (s.itable i).ref + if r = some i then 1 else 0 := by
  induction names generalizing s ip with
  | nil =>
    cases h
    simp [eq_comm]
  | cons name names ih =>
    unfold walk at h
    cases hl : ilock s ip with
    | none => simp [hl] at h
    | some s₁ =>
      -- the walk holds the reference `ilock` checked, until it puts it
      have hip := ilock_ref hl
      rw [← ilock_refs hl i]
      simp only [hl] at h
      split_ifs at h
      · cases h
        simpa using iput_refs_add hip i
      · cases hd : dirlookup s₁ ip name with
        | none => simp [hd] at h
        | some r₂ =>
          obtain ⟨_ | ⟨next, off⟩, s₂⟩ := r₂
          · simp only [hd, Option.some.injEq, Prod.mk.injEq] at h
            obtain ⟨rfl, rfl⟩ := h
            have h₂ := dirlookup_refs hd
            simp only [Option.map_none, reduceCtorEq, if_false, Nat.add_zero] at h₂
            have h₃ := iput_refs_add (show 0 < (s₂.itable ip).ref by rw [h₂]; exact hip) i
            simpa [h₂] using h₃
          · simp only [hd] at h
            -- the reference moves from `ip` to `next`, and the rest of the walk moves it on
            have h₂ := dirlookup_refs hd i
            have h₃ := iput_refs_add (show 0 < (s₂.itable ip).ref by
              rw [dirlookup_refs hd ip]; omega) i
            have h₄ := ih h
            simp only [Option.map_some, Option.some.injEq] at h₂
            omega

theorem parentOf_refs {last : List Char} {r₀ : Option (Fin NINODE)} {s s' : Sys}
    {r : Option (Fin NINODE × List Char)} (h : parentOf last (r₀, s) = some (r, s'))
    (i : Fin NINODE) :
    (s'.itable i).ref + (if r₀ = some i then 1 else 0) =
      (s.itable i).ref + if r.map Prod.fst = some i then 1 else 0 := by
  cases r₀ with
  | none =>
    cases h
    simp
  | some dp =>
    unfold parentOf at h
    cases hl : ilock s dp with
    | none => simp [hl] at h
    | some s₁ =>
      rw [← ilock_refs hl i]
      simp only [hl] at h
      split_ifs at h <;> cases h
      · simpa [eq_comm] using iput_refs_add (ilock_ref hl) i
      · simp

theorem namexStart_refs {s s₁ : Sys} {p : Fin NPROC} {path : List Char} {ip : Fin NINODE}
    (h : namexStart s p path = some (ip, s₁)) (i : Fin NINODE) :
    (s₁.itable i).ref = (s.itable i).ref + if i = ip then 1 else 0 := by
  unfold namexStart at h
  split_ifs at h
  · exact iget_refs h i
  · cases h
    exact idup_refs s _ i

/-- `namei` looks the components up one at a time. -/
theorem namei_eq (s : Sys) (p : Fin NPROC) (path : List Char) :
    namei s p path = (namexStart s p path).bind fun (ip, s) => walk s ip (components path) := by
  unfold namei
  rw [namex_eq]
  cases namexStart s p path with
  | none => rfl
  | some r =>
    obtain ⟨ip, s₁⟩ := r
    rw [Option.bind_some, Option.bind_some, namexLoop_false _ _ _ _ _ le_rfl, elems_eq, walk_take]

/-- `namei` keeps one reference, to the inode it returns, and none when it fails. -/
theorem namei_refs {s s' : Sys} {p : Fin NPROC} {path : List Char} {r : Option (Fin NINODE)}
    (h : namei s p path = some (r, s')) (i : Fin NINODE) :
    (s'.itable i).ref = (s.itable i).ref + if r = some i then 1 else 0 := by
  rw [namei_eq] at h
  obtain ⟨⟨ip, s₁⟩, h₁, h₂⟩ := Option.bind_eq_some_iff.mp h
  have := walk_refs h₂ i
  rw [namexStart_refs h₁ i] at this
  omega

/-- With no component, `nameiparent` puts the inode it started from and fails. -/
theorem nameiparent_nil (s : Sys) (p : Fin NPROC) {path : List Char} (h : components path = []) :
    nameiparent s p path = (namexStart s p path).bind fun (ip, s) => some (none, iput s ip) := by
  unfold nameiparent
  rw [namex_eq]
  cases namexStart s p path with
  | none => rfl
  | some r =>
    obtain ⟨ip, s₁⟩ := r
    dsimp only [Option.bind_some]
    rw [namexLoop_true_nil _ _ _ _ (by rw [elems_eq, h, List.map_nil])]

/-- `nameiparent` walks all components but the last, and returns the directory it reached
with the last component cut to `DIRSIZ`. -/
theorem nameiparent_append (s : Sys) (p : Fin NPROC) {path : List Char}
    {names : List (List Char)} {last : List Char} (h : components path = names ++ [last]) :
    nameiparent s p path = (namexStart s p path).bind fun (ip, s) =>
      (walk s ip names).bind (parentOf (last.take DIRSIZ)) := by
  unfold nameiparent
  rw [namex_eq]
  cases namexStart s p path with
  | none => rfl
  | some r =>
    obtain ⟨ip, s₁⟩ := r
    dsimp only [Option.bind_some]
    rw [← walk_take s₁ ip names, namexLoop_true_append _ _ _ _ _ _ _ le_rfl (by rw [elems_eq, h, List.map_append]; rfl)]

/-- `nameiparent` keeps one reference, to the directory it returns, and none when it fails. -/
theorem nameiparent_refs {s s' : Sys} {p : Fin NPROC} {path : List Char}
    {r : Option (Fin NINODE × List Char)} (h : nameiparent s p path = some (r, s'))
    (i : Fin NINODE) :
    (s'.itable i).ref = (s.itable i).ref + if r.map Prod.fst = some i then 1 else 0 := by
  rcases List.eq_nil_or_concat (components path) with hc | ⟨names, last, hc⟩
  · rw [nameiparent_nil s p hc] at h
    obtain ⟨⟨ip, s₁⟩, h₁, h₂⟩ := Option.bind_eq_some_iff.mp h
    cases h₂
    have := iput_refs_add (show 0 < (s₁.itable ip).ref by rw [namexStart_refs h₁ ip]; simp) i
    rw [namexStart_refs h₁ i] at this
    simp only [Option.map_none, reduceCtorEq, if_false, Nat.add_zero]
    omega
  · rw [List.concat_eq_append] at hc
    rw [nameiparent_append s p hc] at h
    obtain ⟨⟨ip, s₁⟩, h₁, h₂⟩ := Option.bind_eq_some_iff.mp h
    obtain ⟨⟨r₀, s₂⟩, h₃, h₄⟩ := Option.bind_eq_some_iff.mp h₂
    have := walk_refs h₃ i
    have := parentOf_refs h₄ i
    rw [namexStart_refs h₁ i] at *
    omega

/-! ## Path resolution -/

/-- Path resolution is the lookup of the path's components in turn. Iterating `skipelem` reads
the components in order, each cut to `DIRSIZ` bytes as `name` holds them, and leaves a rest that
does not start with a slash. `namei` walks the components from `/` or from the current
directory, and keeps a reference only to the inode it returns. `nameiparent` fails on a path
without components, and otherwise walks all components but the last and returns the directory
it reached with the last component. -/
theorem namex_components (s : Sys) (p : Fin NPROC) (path : List Char) :
    elems path = (components path).map (·.take DIRSIZ) ∧
    (∀ name rest, skipelem path = some (name, rest) → rest.head? ≠ some '/' ∧
      (NUL ∉ path → ∀ buf, CString.ctake NUL (skipelemName path buf) DIRSIZ = name ∧
        (name.length < DIRSIZ → skipelemName path buf name.length = NUL))) ∧
    namei s p path = (namexStart s p path).bind (fun (ip, s) => walk s ip (components path)) ∧
    (∀ r s', namei s p path = some (r, s') →
      ∀ i, (s'.itable i).ref = (s.itable i).ref + if r = some i then 1 else 0) ∧
    (components path = [] →
      nameiparent s p path = (namexStart s p path).bind fun (ip, s) => some (none, iput s ip)) ∧
    (∀ names last, components path = names ++ [last] →
      nameiparent s p path = (namexStart s p path).bind fun (ip, s) =>
        (walk s ip names).bind (parentOf (last.take DIRSIZ))) ∧
    (∀ r s', nameiparent s p path = some (r, s') →
      ∀ i, (s'.itable i).ref = (s.itable i).ref + if r.map Prod.fst = some i then 1 else 0) := by
  refine ⟨elems_eq path, fun name rest h => ⟨skipelem_rest h, fun hp buf =>
      ctake_skipelemName hp h buf⟩, namei_eq s p path, fun r s' h => namei_refs h,
    nameiparent_nil s p, fun names last => nameiparent_append s p,
    fun r s' h => nameiparent_refs h⟩

end Xv6.Names
