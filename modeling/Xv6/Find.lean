import Xv6.Fs.Paths

/-!
# find (user/find.c)

`find(path, target)` opens `path`; a file is printed when the bytes after its last `/`
(`fmtname`) are `target`. A directory is read entry by entry: each name in use is spliced into
`buf` after `path` and a `/`, `stat` looks the new path up, and a subdirectory other than `.`
and `..` is searched by a recursive `find`, a file printed when its name is `target`.

The file system is the one `namei` reads (`Names.Node`): it does not change while find runs,
and `resolve` looks a path's components up in it as `namex` does (`namei_resolve`, when every
directory has a link). The recursion is given a depth `fuel`.

* `resolve_entry`: with the names of a directory unique (`UniqueNames`, as `dirlink` keeps
  them), the path `buf` that find builds for an entry leads back to that entry's inode;
* `fileChains`, `FileChain`: the chains of entries find is to print, in the order of the
  entries, and what makes a chain one (`mem_fileChains_iff`);
* `dirLoop_eq`, `find_eq`: find prints the path of every such chain, once, depth first, and
  returns at a depth past the rank of the tree;
* `DirChain.length_le`: a path find opens is no longer than the rank allows;
* `find_prints`: all of it;
* `find_duplicate_names`: with two entries of one name, `stat` finds the first for both.
-/

namespace Xv6.Find

open Names

/-! ## Paths -/

/-- `namex`'s walk from inode `d` over the components `names` of a path, on a file system that
does not change: each must be looked up in a directory. -/
def resolveFrom (fs : ℕ → Node) (d : ℕ) : List (List Char) → Option ℕ
  | [] => some d
  | name :: names =>
    if (fs d).type ≠ some .dir then none
    else match lookup (fs d).entries name with
      | none => none
      | some next => resolveFrom fs next names

/-- `namei(path)`: from `/` for a path that starts with a slash, from the current directory
`cwd` otherwise. -/
def resolve (fs : ℕ → Node) (cwd : ℕ) (path : List Char) : Option ℕ :=
  resolveFrom fs (if path.head? = some '/' then ROOTINO else cwd) (components path)

/-- `iput` of an inode with a link frees nothing. -/
theorem iput_node_of_linked {s : Sys} {i : Fin NINODE} (h : 0 < (s.ino i).nlink) :
    (iput s i).node = s.node := by
  unfold iput
  rw [if_neg fun hc => absurd hc.2.2 (Nat.pos_iff_ne_zero.mp h)]
  rfl

theorem ilock_ref_pos {s s' : Sys} {i : Fin NINODE} (h : ilock s i = some s') :
    0 < (s.itable i).ref := by
  unfold ilock at h
  split_ifs at h with h₁
  all_goals omega

/-- `namex`'s walk reads the file system as `resolveFrom` does: when every directory has a link,
so that the walk's `iput`s free none, the walk from entry `ip` ends at the inode `resolveFrom`
finds from the inode of `ip`, and fails where it fails. -/
theorem walk_resolveFrom (names : List (List Char)) :
    ∀ {s s' : Sys} {ip : Fin NINODE} {r : Option (Fin NINODE)},
      (∀ inum, (s.node inum).type = some .dir → 0 < (s.node inum).nlink) →
      walk s ip names = some (r, s') →
      r.map (fun j => (s'.itable j).inum) = resolveFrom s.node (s.itable ip).inum names := by
  induction names with
  | nil =>
    intro s s' ip r _ h
    cases h
    rfl
  | cons name names ih =>
    intro s s' ip r hlinked h
    rw [walk] at h
    cases hl : ilock s ip with
    | none =>
      rw [hl] at h
      cases h
    | some s₁ =>
      rw [hl] at h
      obtain ⟨hnode₁, hinum₁⟩ := ilock_spec hl
      -- the directory `ip` holds, as `resolveFrom` reads it
      have hino : s₁.ino ip = s.node (s.itable ip).inum := by rw [Sys.ino, hnode₁, hinum₁]
      simp only at h
      by_cases hdir : (s₁.ino ip).type = some .dir
      · rw [if_neg (not_not.mpr hdir)] at h
        rw [hino] at hdir
        obtain ⟨hfound, -⟩ := dirlookup_map (by rwa [hino]) name
        rw [resolveFrom, if_neg (not_not.mpr hdir)]
        cases hd : dirlookup s₁ ip name with
        | none =>
          rw [hd] at h
          cases h
        | some p =>
          obtain ⟨r₁, s₂⟩ := p
          obtain ⟨hlook, hnode₂, -⟩ := hfound r₁ s₂ hd
          rw [hino] at hlook
          rw [hd] at h
          cases r₁ with
          | none =>
            -- the name is not there: both stop
            cases h
            rw [← hlook]
            rfl
          | some x =>
            obtain ⟨next, off⟩ := x
            simp only at h
            rw [← hlook]
            -- `ip` is a directory with a link, so its `iput` frees nothing
            have hput : (iput s₂ ip).node = s.node := by
              have hinum₂ : (s₂.itable ip).inum = (s₁.itable ip).inum := by
                unfold dirlookup at hd
                split_ifs at hd
                split at hd
                · obtain ⟨⟨ip', s₃⟩, h₃, he⟩ := Option.map_eq_some_iff.mp hd
                  cases he
                  exact iget_inum_of_ref h₃ (by rw [ilock_refs hl]; exact ilock_ref_pos hl)
                · cases hd
              rw [iput_node_of_linked, hnode₂, hnode₁]
              rw [Sys.ino, hnode₂, hinum₂, ← Sys.ino, hino]
              exact hlinked _ hdir
            have hnext : ((iput s₂ ip).itable next).inum = (s₂.itable next).inum :=
              (iput_spec s₂ ip).1 next
            rw [← hput] at hlinked ⊢
            rw [ih hlinked h, hnext]
            rfl
      · rw [if_pos hdir] at h
        cases h
        -- not a directory: both stop
        rw [hino] at hdir
        rw [resolveFrom, if_pos hdir]
        rfl

/-- `namei(path)` of process `p` ends at the inode `resolve` finds from the process's current
directory, when every directory has a link. -/
theorem namei_resolve {s s' : Sys} {p : Fin NPROC} {path : List Char} {r : Option (Fin NINODE)}
    (hlinked : ∀ inum, (s.node inum).type = some .dir → 0 < (s.node inum).nlink)
    (h : namei s p path = some (r, s')) :
    r.map (fun j => (s'.itable j).inum) =
      resolve s.node (s.itable (s.proc p).cwd).inum path := by
  rw [namei_eq] at h
  obtain ⟨⟨ip, s₁⟩, hstart, hwalk⟩ := Option.bind_eq_some_iff.mp h
  unfold namexStart at hstart
  split_ifs at hstart with hroot
  · -- from `/`: `iget(ROOTDEV, ROOTINO)`
    obtain ⟨hinum, hnode, -⟩ := iget_spec hstart
    rw [← hnode] at hlinked
    rw [walk_resolveFrom _ hlinked hwalk, hinum, hnode, resolve, if_pos hroot]
  · -- from the current directory: `idup(myproc()->cwd)`
    cases hstart
    dsimp only at hwalk
    rw [walk_resolveFrom _ (s := idup s (s.proc p).cwd) hlinked hwalk, resolve, if_neg hroot]
    simp [idup, Sys.setEntry]

/-- `fmtname(path)`: the bytes after the last `/`. -/
def fmtname (path : List Char) : List Char := (path.reverse.takeWhile (· != '/')).reverse

/-! ## The program -/

/-- The loop `while(read(fd, &de, sizeof(de)) == sizeof(de))` over the entries `des` of the
directory at `path`: what it prints, each with its file descriptor. `recurse` is the
recursive `find`; `none` is a recursion that ran out of depth. -/
def dirLoop (fs : ℕ → Node) (cwd : ℕ) (target : List Char)
    (recurse : List Char → Option (List (ℕ × List Char))) (path : List Char) :
    List Dirent → Option (List (ℕ × List Char))
  | [] => some []
  | de :: des =>
    if de.inum = 0 then dirLoop fs cwd target recurse path des
    else
      -- `memmove(p, de.name, DIRSIZ); p[DIRSIZ] = 0;` after `path` and its `/`
      let buf := path ++ '/' :: de.name.take DIRSIZ
      match resolve fs cwd buf with
      | none =>
        ((1, "find: cannot stat ".toList ++ buf ++ ['\n']) :: ·) <$>
          dirLoop fs cwd target recurse path des
      | some ip =>
        if (fs ip).type = some .dir ∧ de.name ≠ ['.'] ∧ de.name ≠ ['.', '.'] then do
          let found ← recurse buf
          let rest ← dirLoop fs cwd target recurse path des
          pure (found ++ rest)
        else if (fs ip).type = some .file then
          ((if fmtname buf = target then [(1, buf ++ ['\n'])] else []) ++ ·) <$>
            dirLoop fs cwd target recurse path des
        else dirLoop fs cwd target recurse path des

/-- `find(path, target)`, to a depth of `fuel` calls: what it prints, each with its file
descriptor. -/
def find (fs : ℕ → Node) (cwd : ℕ) (target : List Char) : ℕ → List Char →
    Option (List (ℕ × List Char))
  | 0, _ => none
  | fuel + 1, path =>
    match resolve fs cwd path with
    | none => some [(2, "find: cannot open ".toList ++ path ++ ['\n'])]
    | some ip =>
      match (fs ip).type with
      | some .file => some (if fmtname path = target then [(1, path ++ ['\n'])] else [])
      | some .dir =>
        if path.length + 1 + DIRSIZ + 1 > 512 then some [(1, "find: path too long\n".toList)]
        else dirLoop fs cwd target (find fs cwd target fuel) path (fs ip).entries
      | _ => some []

/-! ## What find is to print -/

/-- The chains of names below one entry, given those below each subdirectory (`below`). -/
def entryChains (fs : ℕ → Node) (target : List Char) (below : ℕ → List (List (List Char)))
    (e : Dirent) : List (List (List Char)) :=
  if e.inum = 0 then []
  else if (fs e.inum).type = some .dir ∧ e.name ≠ ['.'] ∧ e.name ≠ ['.', '.'] then
    (below e.inum).map (e.name.take DIRSIZ :: ·)
  else if (fs e.inum).type = some .file ∧ e.name.take DIRSIZ = target then [[e.name.take DIRSIZ]]
  else []

/-- The chains of names below directory `d`, to a depth of `fuel`, in the order of the
entries: subdirectories other than `.` and `..`, then a file named `target`. -/
def fileChains (fs : ℕ → Node) (target : List Char) : ℕ → ℕ → List (List (List Char))
  | 0, _ => []
  | fuel + 1, d => (fs d).entries.flatMap (entryChains fs target (fileChains fs target fuel))

/-- A chain of entries from directory `d` that find is to print. -/
inductive FileChain (fs : ℕ → Node) (target : List Char) : ℕ → List (List Char) → Prop
  | file {d : ℕ} {e : Dirent} : e ∈ (fs d).entries → e.inum ≠ 0 →
      (fs e.inum).type = some .file → e.name.take DIRSIZ = target →
      FileChain fs target d [e.name.take DIRSIZ]
  | dir {d : ℕ} {e : Dirent} {ch : List (List Char)} : e ∈ (fs d).entries → e.inum ≠ 0 →
      (fs e.inum).type = some .dir → e.name ≠ ['.'] → e.name ≠ ['.', '.'] →
      FileChain fs target e.inum ch → FileChain fs target d (e.name.take DIRSIZ :: ch)

/-- A chain of subdirectories from `d` that find opens. -/
inductive DirChain (fs : ℕ → Node) : ℕ → List (List Char) → Prop
  | nil {d : ℕ} : DirChain fs d []
  | dir {d : ℕ} {e : Dirent} {ch : List (List Char)} : e ∈ (fs d).entries → e.inum ≠ 0 →
      (fs e.inum).type = some .dir → e.name ≠ ['.'] → e.name ≠ ['.', '.'] →
      DirChain fs e.inum ch → DirChain fs d (e.name.take DIRSIZ :: ch)

/-- The path of a chain below `path`. -/
def chainPath (path : List Char) (ch : List (List Char)) : List Char :=
  path ++ ch.flatMap ('/' :: ·)

/-- The names in use are not empty and hold no `/`, as `skipelem` leaves them. -/
def NamesOk (fs : ℕ → Node) : Prop :=
  ∀ d, ∀ e ∈ (fs d).entries, e.inum ≠ 0 → e.name ≠ [] ∧ '/' ∉ e.name

/-- The tree has no cycle through the subdirectories find descends into: a rank that goes
down along each of them. -/
def Ranked (fs : ℕ → Node) (rank : ℕ → ℕ) : Prop :=
  ∀ d, ∀ e ∈ (fs d).entries, e.inum ≠ 0 → (fs e.inum).type = some .dir → e.name ≠ ['.'] →
    e.name ≠ ['.', '.'] → rank e.inum < rank d

/-! ## The path of an entry -/

theorem resolveFrom_append (fs : ℕ → Node) (d : ℕ) (xs ys : List (List Char)) :
    resolveFrom fs d (xs ++ ys) = (resolveFrom fs d xs).bind (resolveFrom fs · ys) := by
  induction xs generalizing d with
  | nil => rfl
  | cons name xs ih =>
    simp only [List.cons_append, resolveFrom]
    split_ifs
    · rfl
    · cases lookup (fs d).entries name with
      | none => rfl
      | some next => exact ih next

/-- A name spliced after a path and a `/` is one more component, looked up where the path
leads. -/
theorem resolve_append (fs : ℕ → Node) (cwd : ℕ) {path name : List Char} (hpath : path ≠ [])
    (hname : name ≠ []) (hslash : '/' ∉ name) :
    resolve fs cwd (path ++ '/' :: name) = (resolve fs cwd path).bind (resolveFrom fs · [name]) := by
  have hcomp : components (path ++ '/' :: name) = components path ++ [name] := by
    rw [components_append_slash, components_of_forall_ne hname fun c hc e => hslash (e ▸ hc)]
  rw [resolve, resolve, List.head?_append_of_ne_nil _ hpath, hcomp, resolveFrom_append]

theorem uniqueNames_cons {a : Dirent} {es : List Dirent} (hu : UniqueNames (a :: es)) :
    UniqueNames es ∧ (a.inum ≠ 0 → ∀ b ∈ es, b.inum ≠ 0 → namecmp a.name b.name = false) := by
  constructor
  · intro i j x y hij hx hy
    exact hu (i + 1) (j + 1) x y (by omega) hx hy
  · intro ha b hb h0
    obtain ⟨j, hj⟩ := List.mem_iff_getElem?.1 hb
    exact hu 0 (j + 1) a b (by omega) rfl hj ha h0

/-- In a directory with unique names, an entry's name finds that entry. -/
theorem lookup_entry {es : List Dirent} (hu : UniqueNames es) {e : Dirent} (he : e ∈ es)
    (h0 : e.inum ≠ 0) : lookup es e.name = some e.inum := by
  induction es with
  | nil => cases he
  | cons a es ih =>
    obtain ⟨hu', ha⟩ := uniqueNames_cons hu
    rw [lookup_cons]
    rcases List.mem_cons.1 he with rfl | he'
    · simp [Dirent.named, h0, namecmp]
    · by_cases hn : Dirent.named e.name a = true
      · -- an earlier entry of the same name would break uniqueness
        simp only [Dirent.named, Bool.and_eq_true, bne_iff_ne, ne_eq] at hn
        have hdiff := ha hn.1 e he' h0
        rw [namecmp_comm, hn.2] at hdiff
        cases hdiff
      · rw [if_neg hn]
        exact ih hu' he'

theorem lookup_take (es : List Dirent) (name : List Char) :
    lookup es (name.take DIRSIZ) = lookup es name := by
  have hnamed : Dirent.named (name.take DIRSIZ) = Dirent.named name := by
    funext e
    simp only [Dirent.named, namecmp, List.take_take, min_self]
  rw [lookup, lookup, hnamed]

/-- The path `buf` find builds for an entry in use leads to the entry's inode. -/
theorem resolve_entry {fs : ℕ → Node} (hnames : NamesOk fs) {d : ℕ} (hu : UniqueNames (fs d).entries)
    {cwd : ℕ} {path : List Char} (hpath : path ≠ []) (hd : resolve fs cwd path = some d)
    (hdir : (fs d).type = some .dir) {e : Dirent} (he : e ∈ (fs d).entries) (h0 : e.inum ≠ 0) :
    resolve fs cwd (path ++ '/' :: e.name.take DIRSIZ) = some e.inum := by
  obtain ⟨hne, hslash⟩ := hnames d e he h0
  have hne' : e.name.take DIRSIZ ≠ [] := by
    simpa [DIRSIZ] using hne
  rw [resolve_append fs cwd hpath hne' fun h => hslash (List.mem_of_mem_take h), hd,
    Option.bind_some, resolveFrom, if_neg (not_not.2 hdir), lookup_take, lookup_entry hu he h0]
  rfl

theorem fmtname_append (path : List Char) {name : List Char} (h : '/' ∉ name) :
    fmtname (path ++ '/' :: name) = name := by
  have hall : ∀ c ∈ name.reverse, (c != '/') = true := by
    intro c hc
    rw [bne_iff_ne]
    rintro rfl
    exact h (List.mem_reverse.1 hc)
  simp [fmtname, List.takeWhile_append_of_pos hall]

/-! ## find prints the chains -/

/-- What find prints for a chain below `path`: its path and a newline, on file descriptor 1. -/
def printed (path : List Char) (ch : List (List Char)) : ℕ × List Char :=
  (1, chainPath path ch ++ ['\n'])

theorem chainPath_cons (path name : List Char) (ch : List (List Char)) :
    chainPath path (name :: ch) = chainPath (path ++ '/' :: name) ch := by
  simp [chainPath]

theorem printed_cons (path name : List Char) (ch : List (List Char)) :
    printed path (name :: ch) = printed (path ++ '/' :: name) ch := by
  rw [printed, printed, chainPath_cons]

theorem printed_nil (path : List Char) : printed path [] = (1, path ++ ['\n']) := by
  simp [printed, chainPath]

/-- The loop over a directory's entries prints the chains below them, given a recursion that
prints the chains below each subdirectory. -/
theorem dirLoop_eq {fs : ℕ → Node} (hnames : NamesOk fs) {d : ℕ}
    (hu : UniqueNames (fs d).entries) (hdir : (fs d).type = some .dir) {cwd : ℕ}
    {path : List Char} (hpath : path ≠ []) (hd : resolve fs cwd path = some d)
    (target : List Char) (recurse : List Char → Option (List (ℕ × List Char)))
    (below : ℕ → List (List (List Char))) (es : List Dirent) (hes : ∀ e ∈ es, e ∈ (fs d).entries)
    (hrec : ∀ e ∈ es, e.inum ≠ 0 → (fs e.inum).type = some .dir → e.name ≠ ['.'] →
      e.name ≠ ['.', '.'] → recurse (path ++ '/' :: e.name.take DIRSIZ) =
        some ((below e.inum).map (printed (path ++ '/' :: e.name.take DIRSIZ)))) :
    dirLoop fs cwd target recurse path es =
      some ((es.flatMap (entryChains fs target below)).map (printed path)) := by
  induction es with
  | nil => rfl
  | cons e es ih =>
    have ih' := ih (fun x hx => hes x (List.mem_cons_of_mem e hx))
      (fun x hx => hrec x (List.mem_cons_of_mem e hx))
    have he := hes e List.mem_cons_self
    rw [dirLoop]
    by_cases h0 : e.inum = 0
    · rw [if_pos h0, ih']
      simp [entryChains, h0]
    rw [if_neg h0]
    dsimp only
    -- `stat(buf)` finds the entry's own inode
    rw [resolve_entry hnames hu hpath hd hdir he h0]
    dsimp only
    by_cases hsub : (fs e.inum).type = some .dir ∧ e.name ≠ ['.'] ∧ e.name ≠ ['.', '.']
    · -- a subdirectory: its chains, then those of the other entries
      rw [if_pos hsub, hrec e List.mem_cons_self h0 hsub.1 hsub.2.1 hsub.2.2, ih']
      simp [entryChains, h0, hsub, printed_cons]
    rw [if_neg hsub]
    by_cases hfile : (fs e.inum).type = some .file
    · -- a file: printed when its name is `target`
      have hslash : '/' ∉ e.name.take DIRSIZ := fun h => (hnames d e he h0).2 (List.mem_of_mem_take h)
      rw [if_pos hfile, ih', fmtname_append _ hslash]
      by_cases ht : e.name.take DIRSIZ = target
      · simp [entryChains, h0, hfile, ht, printed_cons, printed_nil]
      · simp [entryChains, h0, hfile, ht]
    · rw [if_neg hfile, ih']
      simp [entryChains, h0, hsub, hfile]

/-- What find(path) is to print, for the inode `d` that `path` names. -/
def findSpec (fs : ℕ → Node) (target : List Char) (fuel : ℕ) (path : List Char) (d : ℕ) :
    List (ℕ × List Char) :=
  match (fs d).type with
  | some .file => if fmtname path = target then [(1, path ++ ['\n'])] else []
  | some .dir => (fileChains fs target fuel d).map (printed path)
  | _ => []

/-- find prints the chains below the path it is given, at any depth past its rank, when every
directory path it opens leaves room in `buf` for a name. The induction is on the depth; each
level is `dirLoop_eq`. -/
theorem find_eq {fs : ℕ → Node} (hnames : NamesOk fs) (hu : ∀ d, UniqueNames (fs d).entries)
    {rank : ℕ → ℕ} (hrank : Ranked fs rank) (cwd : ℕ) (target : List Char) (fuel : ℕ) :
    ∀ {path : List Char} {d : ℕ}, path ≠ [] → resolve fs cwd path = some d → rank d < fuel →
      (∀ ch, DirChain fs d ch → (chainPath path ch).length + 1 + DIRSIZ + 1 ≤ 512) →
      find fs cwd target fuel path = some (findSpec fs target fuel path d) := by
  induction fuel with
  | zero =>
    intro path d _ _ hfuel _
    omega
  | succ f ih =>
    intro path d hpath hd hfuel hfit
    rw [find, hd]
    dsimp only
    cases ht : (fs d).type with
    | none => simp [findSpec, ht]
    | some t =>
      cases t with
      | file => simp [findSpec, ht]
      | device => simp [findSpec, ht]
      | dir =>
        -- `path` itself leaves room for a name
        have hroom : ¬ path.length + 1 + DIRSIZ + 1 > 512 := by
          have := hfit [] .nil
          simp only [chainPath, List.flatMap_nil, List.append_nil] at this
          omega
        simp only [if_neg hroom, findSpec, ht, fileChains]
        refine dirLoop_eq hnames (hu d) ht hpath hd target _ _ _ (fun e he => he) ?_
        -- each subdirectory is one level down, with a lower rank
        intro e he h0 hdir h1 h2
        have hr := resolve_entry hnames (hu d) hpath hd ht he h0
        have hlt := hrank d e he h0 hdir h1 h2
        rw [ih (by simp) hr (by omega) fun ch hch => by
          have := hfit _ (DirChain.dir he h0 hdir h1 h2 hch)
          rwa [chainPath_cons] at this]
        simp [findSpec, hdir]

/-! ## The chains are the specification's -/

/-- The chains `fileChains` lists are the chains of entries find is to print, all of them
once the depth passes the rank. -/
theorem mem_fileChains_iff {fs : ℕ → Node} {rank : ℕ → ℕ} (hrank : Ranked fs rank)
    (target : List Char) {fuel d : ℕ} (hfuel : rank d < fuel) (ch : List (List Char)) :
    ch ∈ fileChains fs target fuel d ↔ FileChain fs target d ch := by
  constructor
  · -- each chain listed is built from entries, level by level
    intro h
    induction fuel generalizing d ch with
    | zero => cases h
    | succ f ih =>
      obtain ⟨e, he, hch⟩ := List.mem_flatMap.1 h
      unfold entryChains at hch
      split_ifs at hch with h0 hsub hfile
      · cases hch
      · obtain ⟨ch', hch', rfl⟩ := List.mem_map.1 hch
        have hlt := hrank d e he h0 hsub.1 hsub.2.1 hsub.2.2
        exact .dir he h0 hsub.1 hsub.2.1 hsub.2.2 (ih (by omega) ch' hch')
      · rw [List.mem_singleton] at hch
        subst hch
        exact .file he h0 hfile.1 hfile.2
      · cases hch
  · -- a chain is listed once the depth passes the rank of its directory
    intro h
    induction h generalizing fuel with
    | @file d e he h0 hfile ht =>
      obtain ⟨f, rfl⟩ : ∃ f, fuel = f + 1 := ⟨fuel - 1, by omega⟩
      refine List.mem_flatMap.2 ⟨e, he, ?_⟩
      simp [entryChains, h0, hfile, ht]
    | @dir d e ch he h0 hdir h1 h2 _ ih =>
      obtain ⟨f, rfl⟩ : ∃ f, fuel = f + 1 := ⟨fuel - 1, by omega⟩
      have hlt := hrank d e he h0 hdir h1 h2
      refine List.mem_flatMap.2 ⟨e, he, ?_⟩
      simp only [entryChains, if_neg h0, if_pos (show _ ∧ _ ∧ _ from ⟨hdir, h1, h2⟩)]
      exact List.mem_map.2 ⟨ch, ih (by omega), rfl⟩

/-- A chain of subdirectories is no longer than the rank, and each name holds `DIRSIZ` bytes at
most. -/
theorem DirChain.length_le {fs : ℕ → Node} {rank : ℕ → ℕ} (hrank : Ranked fs rank) {d : ℕ}
    {ch : List (List Char)} (h : DirChain fs d ch) (path : List Char) :
    (chainPath path ch).length ≤ path.length + (DIRSIZ + 1) * rank d := by
  induction h generalizing path with
  | nil => simp [chainPath]
  | @dir d e ch he h0 hdir h1 h2 _ ih =>
    have hlt := hrank d e he h0 hdir h1 h2
    have hname : (e.name.take DIRSIZ).length ≤ DIRSIZ := List.length_take_le _ _
    rw [chainPath_cons]
    have := ih (path ++ '/' :: e.name.take DIRSIZ)
    simp only [List.length_append, List.length_cons] at this
    have hmul : (DIRSIZ + 1) * rank e.inum + (DIRSIZ + 1) ≤ (DIRSIZ + 1) * rank d := by
      rw [← Nat.mul_succ]
      exact Nat.mul_le_mul_left _ hlt
    omega

/-- find, given a path and a target, prints in depth-first order the path of every chain of
subdirectories other than `.` and `..` ending in a file named `target`, once per chain of
entries, and returns within `rank + 1` levels; a file given as the path is printed when the
bytes after its last `/` are the target. This holds for every directory tree without cycles
whose names in use are unique in each directory, non-empty and without `/`, for every
non-empty path, when every directory path find opens leaves room for a name in `buf`. -/
theorem find_prints {fs : ℕ → Node} (hnames : NamesOk fs) (hu : ∀ d, UniqueNames (fs d).entries)
    {rank : ℕ → ℕ} (hrank : Ranked fs rank) (cwd : ℕ) (target : List Char) {path : List Char}
    (hpath : path ≠ []) {d : ℕ} (hd : resolve fs cwd path = some d)
    (hfit : ∀ ch, DirChain fs d ch → (chainPath path ch).length + 1 + DIRSIZ + 1 ≤ 512)
    (fuel : ℕ) (hfuel : rank d < fuel) :
    find fs cwd target fuel path = some (findSpec fs target fuel path d) ∧
      ∀ ch, ch ∈ fileChains fs target fuel d ↔ FileChain fs target d ch :=
  ⟨find_eq hnames hu hrank cwd target fuel hpath hd hfuel hfit,
    mem_fileChains_iff hrank target hfuel⟩

/-- A directory `/` holding `a/x` and `x`. -/
def twoLevels : ℕ → Node
  | 1 => ⟨some .dir, 0, 0, 1, [⟨1, ['.']⟩, ⟨1, ['.', '.']⟩, ⟨2, ['a']⟩, ⟨3, ['x']⟩]⟩
  | 2 => ⟨some .dir, 0, 0, 1, [⟨2, ['.']⟩, ⟨1, ['.', '.']⟩, ⟨4, ['x']⟩]⟩
  | 3 => ⟨some .file, 0, 0, 1, []⟩
  | 4 => ⟨some .file, 0, 0, 1, []⟩
  | _ => ⟨none, 0, 0, 0, []⟩

/-- `find . x` in `/` holding `a/x` and `x`. -/
theorem find_prints_two_levels :
    find twoLevels 1 ['x'] 3 ['.'] = some (findSpec twoLevels ['x'] 3 ['.'] 1) ∧
      ∀ ch, ch ∈ fileChains twoLevels ['x'] 3 1 ↔ FileChain twoLevels ['x'] 1 ch := by
  -- the inodes past 4 are free, with no entries
  have hnames : NamesOk twoLevels := by
    intro d
    rcases d with _ | _ | _ | _ | _ | n
    all_goals first | decide | simp [twoLevels]
  have hu : ∀ d, UniqueNames (twoLevels d).entries := by
    intro d
    rcases d with _ | _ | _ | _ | _ | n
    all_goals first
      | exact (uniqueNames_iff _).2 (by decide)
      | simpa [twoLevels] using UniqueNames.nil
  have hrank : Ranked twoLevels (fun i => if i = 1 then 1 else 0) := by
    intro d
    rcases d with _ | _ | _ | _ | _ | n
    all_goals first | decide | simp [twoLevels]
  refine find_prints hnames hu hrank 1 ['x'] (by decide) (by decide) (fun ch hch => ?_) 3 (by decide)
  have := DirChain.length_le hrank hch ['.']
  simp only [DIRSIZ, List.length_singleton, ↓reduceIte] at this ⊢
  omega

/-- `/` holding a file `x`, then a directory also named `x` that holds a file `x`. -/
def dupFs : ℕ → Node
  | 1 => ⟨some .dir, 0, 0, 1, [⟨1, ['.']⟩, ⟨1, ['.', '.']⟩, ⟨2, ['x']⟩, ⟨3, ['x']⟩]⟩
  | 2 => ⟨some .file, 0, 0, 1, []⟩
  | 3 => ⟨some .dir, 0, 0, 1, [⟨3, ['.']⟩, ⟨1, ['.', '.']⟩, ⟨4, ['x']⟩]⟩
  | 4 => ⟨some .file, 0, 0, 1, []⟩
  | _ => ⟨none, 0, 0, 0, []⟩

/-- With two entries named `x` in one directory, `stat("./x")` finds the first for both:
`find . x` prints `./x` twice and never descends into the directory, so the chain to `./x/x`
is never printed, in a tree without cycles whose paths all fit. -/
theorem find_duplicate_names :
    NamesOk dupFs ∧ Ranked dupFs (fun i => if i = 1 then 1 else 0) ∧
      resolve dupFs 1 ['.'] = some 1 ∧ FileChain dupFs ['x'] 1 [['x'], ['x']] ∧
      find dupFs 1 ['x'] 3 ['.'] = some [(1, ['.', '/', 'x', '\n']), (1, ['.', '/', 'x', '\n'])] := by
  refine ⟨?_, ?_, by decide, ?_, by decide⟩
  · intro d
    rcases d with _ | _ | _ | _ | _ | n
    all_goals first | decide | simp [dupFs]
  · intro d
    rcases d with _ | _ | _ | _ | _ | n
    all_goals first | decide | simp [dupFs]
  · exact .dir (e := ⟨3, ['x']⟩) (by decide) (by decide) rfl (by decide) (by decide)
      (.file (e := ⟨4, ['x']⟩) (by decide) (by decide) rfl rfl)

end Xv6.Find
