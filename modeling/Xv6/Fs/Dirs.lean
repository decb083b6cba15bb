import Mathlib
import Xv6.Fs.Names
import Xv6.Lib.CString

/-!
# Directories as maps from names (`kernel/fs.c`)

A directory's entries are read as a map from names to inode numbers (`lookup`): a name maps to
the inode of the first entry in use whose name agrees with it in its first `DIRSIZ` bytes.
`dirlookup` reads this map and `dirlink` adds to it; the names the model keeps are the bytes
`strncpy` stores, cut at `DIRSIZ`, and `namecmp` on them is `strncmp` on the stored fields.

* `namecmp_take_iff_strncmp`: the model's comparison is the C library's on the dirent field;
* `lookup`, `firstFree`, `lookup_writeEntry`: writing an entry for an absent name into a free
  slot adds that name to the map and changes no other;
* `dirlookup_map`, `dirlink_cases`: what the two functions do, panics included;
* `dir_as_map`, `dir_as_map_counterexample`.

Under concurrency the unit is a critical section: `create`, `sys_link` and `sys_unlink` hold the
parent's lock from `dirlookup` to the write (`createIn`, `linkIn`, `unlinkIn`), and everything
else writes no entry (`Quiet`). `Section` is one such step, from any state and with any parent
and name, so a chain of sections covers every interleaving of the processes.

* `Section.unique`: each section keeps `Sys.NamesUnique`;
* `step_sections`, `run_sections`: every call of the model is a chain of sections;
* `createIn_existing`: `create` of an existing file or device returns it and allocates nothing;
* `dir_names_unique`.
-/

namespace Xv6.Names

/-! ## Names as C strings -/

/-- The NUL byte: the model's characters stand for the bytes of a name. -/
def NUL : Char := Char.ofNat 0

/-- The code `strncmp` compares, `(uchar)*p`. -/
def charCode (c : Char) : ℤ := c.toNat

theorem charCode_injective : Function.Injective charCode := by
  intro a b h
  have h' : a.toNat = b.toNat := Int.ofNat_inj.mp h
  exact Char.toNat_inj.mp h'

theorem namecmp_comm (a b : List Char) : namecmp a b = namecmp b a := by
  unfold namecmp
  rw [Bool.eq_iff_iff, beq_iff_eq, beq_iff_eq]
  exact eq_comm

theorem namecmp_take (a b : List Char) : namecmp a (b.take DIRSIZ) = namecmp a b := by
  simp [namecmp, List.take_take]

theorem namecmp_trans {a b c : List Char} (hab : namecmp a b = true) (hbc : namecmp b c = true) :
    namecmp a c = true := by
  simp only [namecmp, beq_iff_eq] at *
  exact hab.trans hbc

/-- `namecmp(name, de.name)` on the field where `dirlink`'s `strncpy(de.name, b, DIRSIZ)` left
the name `b`, whatever follows the field in memory, is the model's `namecmp` of `name` with the
stored name `b.take DIRSIZ`. -/
theorem namecmp_take_iff_strncmp {a b : List Char} (ha : NUL ∉ a) (hb : NUL ∉ b)
    (rest : ℕ → Char) :
    namecmp a (b.take DIRSIZ) = true ↔
      CString.strncmp NUL charCode (CString.cstr NUL a)
        (CString.field (CString.strncpy NUL (CString.cstr NUL b) DIRSIZ) rest) DIRSIZ = 0 := by
  rw [CString.strncmp_strncpy charCode_injective ha hb, namecmp_take]
  simp [namecmp]

/-! ## The map a directory holds -/

/-- Entry `e` is in use and named `name`: the test of `dirlookup`'s loop. -/
def Dirent.named (name : List Char) (e : Dirent) : Bool := e.inum != 0 && namecmp name e.name

/-- The directory with entries `es` as a map: the inode of the first entry in use whose name
agrees with `name` in its first `DIRSIZ` bytes. -/
def lookup (es : List Dirent) (name : List Char) : Option ℕ :=
  (es.find? (Dirent.named name)).map Dirent.inum

/-- Where `dirlink` writes: the first free entry, or the end of the directory. -/
def firstFree (es : List Dirent) : ℕ := (es.findIdx? fun e => e.inum == 0).getD es.length

theorem find?_zipIdx_map_fst (f : Dirent → Bool) (es : List Dirent) (k : ℕ) :
    ((es.zipIdx k).find? fun p => f p.1).map Prod.fst = es.find? f := by
  induction es generalizing k with
  | nil => rfl
  | cons a es ih =>
    rw [List.zipIdx_cons, List.find?_cons, List.find?_cons]
    cases f a
    · exact ih (k + 1)
    · rfl

/-- `findName` finds the entry `lookup` reads. -/
theorem findName_map_fst (es : List Dirent) (name : List Char) :
    (findName es name).map Prod.fst = es.find? (Dirent.named name) :=
  find?_zipIdx_map_fst (Dirent.named name) es 0

theorem lookup_eq_none {es : List Dirent} {name : List Char} :
    lookup es name = none ↔ ∀ e ∈ es, Dirent.named name e = false := by
  simp [lookup, List.find?_eq_none]

theorem findName_eq_none {es : List Dirent} {name : List Char} :
    findName es name = none ↔ lookup es name = none := by
  rw [lookup, ← findName_map_fst, Option.map_map]
  simp

theorem lookup_of_findName {es : List Dirent} {name : List Char} {e : Dirent} {off : ℕ}
    (h : findName es name = some (e, off)) : lookup es name = some e.inum := by
  have := findName_map_fst es name
  rw [h, Option.map_some] at this
  rw [lookup, ← this, Option.map_some]

theorem firstFree_le (es : List Dirent) : firstFree es ≤ es.length := by
  unfold firstFree
  cases h : es.findIdx? (fun e => e.inum == 0) with
  | none => rfl
  | some k =>
    obtain ⟨hk, -⟩ := List.findIdx?_eq_some_iff_getElem.mp h
    exact hk.le

theorem firstFree_free {es : List Dirent} {e : Dirent} (h : es[firstFree es]? = some e) :
    e.inum = 0 := by
  unfold firstFree at h
  cases hf : es.findIdx? (fun e => e.inum == 0) with
  | none => simp [hf] at h
  | some k =>
    obtain ⟨hk, hfree, -⟩ := List.findIdx?_eq_some_iff_getElem.mp hf
    rw [hf, Option.getD_some, List.getElem?_eq_getElem hk, Option.some_inj] at h
    simpa [← h] using hfree

theorem writeEntry_nil (x : Dirent) : writeEntry [] 0 x = [x] := rfl

theorem writeEntry_cons_zero (a : Dirent) (es : List Dirent) (x : Dirent) :
    writeEntry (a :: es) 0 x = x :: es := by
  simp [writeEntry]

theorem writeEntry_cons_succ (a : Dirent) (es : List Dirent) (k : ℕ) (x : Dirent) :
    writeEntry (a :: es) (k + 1) x = a :: writeEntry es k x := by
  unfold writeEntry
  by_cases hk : k < es.length
  · rw [if_pos (by simpa using hk), if_pos hk, List.set_cons_succ]
  · rw [if_neg (by simpa using hk), if_neg hk, List.cons_append]

theorem lookup_cons (a : Dirent) (es : List Dirent) (name : List Char) :
    lookup (a :: es) name = if Dirent.named name a then some a.inum else lookup es name := by
  unfold lookup
  rw [List.find?_cons]
  cases Dirent.named name a <;> rfl

/-- An entry for a name that is not in the directory, written into a free slot or past the
end, adds that name to the map and leaves every other name's inode as it was. -/
theorem lookup_writeEntry {x : Dirent} (name' : List Char) :
    ∀ {es : List Dirent} {off : ℕ}, off ≤ es.length →
      (∀ e, es[off]? = some e → e.inum = 0) →
      (∀ e ∈ es, e.inum ≠ 0 → namecmp x.name e.name = false) →
      lookup (writeEntry es off x) name' =
        if Dirent.named name' x then some x.inum else lookup es name'
  | [], off, hoff, _, _ => by
    rw [Nat.le_zero.mp hoff, writeEntry_nil, lookup_cons]
  | a :: es, 0, _, hfree, _ => by
    have ha : Dirent.named name' a = false := by
      simp [Dirent.named, hfree a rfl]
    rw [writeEntry_cons_zero, lookup_cons, lookup_cons, ha]
    rfl
  | a :: es, k + 1, hoff, hfree, hnew => by
    rw [writeEntry_cons_succ, lookup_cons, lookup_cons,
      lookup_writeEntry name' (by simpa using hoff) (by simpa using hfree)
        (fun e he => hnew e (List.mem_cons_of_mem a he))]
    cases ha : Dirent.named name' a
    · rfl
    · -- `a` is in use under `name'`, so `name'` cannot be `x`'s name
      have hx : Dirent.named name' x = false := by
        simp only [Dirent.named, Bool.and_eq_true, bne_iff_ne] at ha
        have hxa := hnew a List.mem_cons_self ha.1
        cases hx : Dirent.named name' x
        · rfl
        · simp only [Dirent.named, Bool.and_eq_true] at hx
          rw [namecmp_trans (namecmp_comm _ _ ▸ hx.2) ha.2] at hxa
          cases hxa
      rw [hx]
      rfl

/-! ## `dirlookup` and `dirlink` -/

theorem iget_spec {s s' : Sys} {inum : ℕ} {ip : Fin NINODE} (h : iget s inum = some (ip, s')) :
    (s'.itable ip).inum = inum ∧ s'.node = s.node ∧
      ((s.itable ip).inum = inum ∧ 0 < (s.itable ip).ref ∧
          s'.itable ip = { s.itable ip with ref := (s.itable ip).ref + 1 } ∨
        s'.itable ip = ⟨inum, 1, false⟩) := by
  unfold iget at h
  split at h
  · rename_i i hi
    cases h
    have := List.find?_some hi
    simp only [Bool.and_eq_true, decide_eq_true_eq, beq_iff_eq] at this
    refine ⟨by simp [Sys.setEntry, this.2], rfl, Or.inl ⟨this.2, this.1, by simp [Sys.setEntry]⟩⟩
  · split at h
    · cases h
      exact ⟨by simp [Sys.setEntry], rfl, Or.inr (by simp [Sys.setEntry])⟩
    · cases h

/-- `iget` leaves every entry in use holding its inode: a new one takes an entry with no
reference. -/
theorem iget_inum_of_ref {s s' : Sys} {inum : ℕ} {ip : Fin NINODE} (h : iget s inum = some (ip, s'))
    {j : Fin NINODE} (hj : 0 < (s.itable j).ref) : (s'.itable j).inum = (s.itable j).inum := by
  unfold iget at h
  split at h
  · rename_i i hi
    cases h
    by_cases hji : j = ip
    · subst hji
      simp [Sys.setEntry]
    · simp [Sys.setEntry, hji]
  · split at h
    · rename_i i hi
      cases h
      have hfree := List.find?_some hi
      have hji : j ≠ ip := by
        rintro rfl
        simp only [beq_iff_eq] at hfree
        omega
      simp [Sys.setEntry, hji]
    · cases h

/-- `iput` right after an `iget` frees nothing: the entry has another reference, or is not
valid. -/
theorem iput_iget_node {s s' : Sys} {inum : ℕ} {ip : Fin NINODE} (h : iget s inum = some (ip, s')) :
    (iput s' ip).node = s.node := by
  obtain ⟨-, hnode, hentry⟩ := iget_spec h
  unfold iput
  rw [if_neg]
  · exact hnode
  · rintro ⟨h1, h2, -⟩
    rcases hentry with ⟨-, hr, he⟩ | he <;> rw [he] at h1 h2
    · simp at h1
      omega
    · cases h2

theorem dirlookup_absent {s : Sys} {dp : Fin NINODE} (hdir : (s.ino dp).type = some .dir)
    {name : List Char} (hf : findName (s.ino dp).entries name = none) :
    dirlookup s dp name = some (none, s) := by
  simp [dirlookup, hdir, hf]

theorem dirlookup_found {s : Sys} {dp : Fin NINODE} (hdir : (s.ino dp).type = some .dir)
    {name : List Char} {e : Dirent} {off : ℕ} (hf : findName (s.ino dp).entries name = some (e, off)) :
    dirlookup s dp name = (iget s e.inum).map fun (ip, s) => (some (ip, off), s) := by
  simp [dirlookup, hdir, hf]

theorem exists_findName {es : List Dirent} {name : List Char} {i : ℕ} (hl : lookup es name = some i) :
    ∃ e off, findName es name = some (e, off) ∧ e.inum = i := by
  cases hf : findName es name with
  | none =>
    rw [findName_eq_none.mp hf] at hl
    cases hl
  | some p =>
    rw [lookup_of_findName hf, Option.some_inj] at hl
    exact ⟨p.1, p.2, rfl, hl⟩

/-- `dirlookup` in a directory reads the map: the entry of the inode table it returns holds the
inode `lookup` gives, and it panics only where `iget` does. -/
theorem dirlookup_map {s : Sys} {dp : Fin NINODE} (hdir : (s.ino dp).type = some .dir)
    (name : List Char) :
    (∀ r s', dirlookup s dp name = some (r, s') →
      r.map (fun x => (s'.itable x.1).inum) = lookup (s.ino dp).entries name ∧ s'.node = s.node ∧
        (r = none → s' = s)) ∧
    (dirlookup s dp name = none ↔
      ∃ inum, lookup (s.ino dp).entries name = some inum ∧ iget s inum = none) := by
  cases hl : lookup (s.ino dp).entries name with
  | none =>
    rw [dirlookup_absent hdir (findName_eq_none.mpr hl)]
    refine ⟨fun r s' h => ?_, by simp⟩
    cases h
    exact ⟨rfl, rfl, fun _ => rfl⟩
  | some i =>
    obtain ⟨e, off, hf, hei⟩ := exists_findName hl
    rw [dirlookup_found hdir hf]
    refine ⟨fun r s' h => ?_, ?_⟩
    · obtain ⟨⟨ip, s₁⟩, hi, he⟩ := Option.map_eq_some_iff.mp h
      cases he
      obtain ⟨hinum, hnode, -⟩ := iget_spec hi
      exact ⟨by rw [Option.map_some, hinum, hei], hnode, fun h => by cases h⟩
    · rw [Option.map_eq_none_iff, hei]
      simp

theorem dirlink_of_found {s : Sys} {dp : Fin NINODE} (hdir : (s.ino dp).type = some .dir)
    {name : List Char} {inum : ℕ} {e : Dirent} {off : ℕ}
    (hf : findName (s.ino dp).entries name = some (e, off)) :
    dirlink s dp name inum = (iget s e.inum).map fun (ip, s) => (false, iput s ip) := by
  simp only [dirlink, dirlookup_found hdir hf]
  cases iget s e.inum <;> rfl

theorem dirlink_of_absent {s : Sys} {dp : Fin NINODE} (hdir : (s.ino dp).type = some .dir)
    {name : List Char} {inum : ℕ} (hl : lookup (s.ino dp).entries name = none) :
    dirlink s dp name inum =
      if MAXFILE * BSIZE < (firstFree (s.ino dp).entries + 1) * DIRENT_SIZE then none
      else if firstFree (s.ino dp).entries = (s.ino dp).entries.length ∧
          firstFree (s.ino dp).entries * DIRENT_SIZE % BSIZE = 0 ∧ s.room = false then none
      else some (true, s.setNode (s.itable dp).inum { s.ino dp with
        entries := writeEntry (s.ino dp).entries (firstFree (s.ino dp).entries)
          ⟨inum % 2 ^ 16, name.take DIRSIZ⟩ }) := by
  simp only [dirlink, dirlookup_absent hdir (findName_eq_none.mpr hl)]
  rfl

/-- What `dirlink` does: `false` with the inodes unchanged when the name is in the map;
otherwise the entry goes into the first free slot or past the end; `none` when `iget` panics,
when `writei` cannot grow the directory, or when it needs a new block and the disk has none. -/
theorem dirlink_cases {s : Sys} {dp : Fin NINODE} (hdir : (s.ino dp).type = some .dir)
    (name : List Char) (inum : ℕ) :
    (lookup (s.ino dp).entries name ≠ none →
      ∀ r, dirlink s dp name inum = some r → r.1 = false ∧ r.2.node = s.node) ∧
    (dirlink s dp name inum = none ↔
      (∃ i, lookup (s.ino dp).entries name = some i ∧ iget s i = none) ∨
        (lookup (s.ino dp).entries name = none ∧
          (MAXFILE * BSIZE < (firstFree (s.ino dp).entries + 1) * DIRENT_SIZE ∨
            firstFree (s.ino dp).entries = (s.ino dp).entries.length ∧
              firstFree (s.ino dp).entries * DIRENT_SIZE % BSIZE = 0 ∧ s.room = false))) := by
  cases hl : lookup (s.ino dp).entries name with
  | none =>
    rw [dirlink_of_absent hdir hl]
    refine ⟨fun h => absurd rfl h, ?_⟩
    split_ifs with h h'
    · exact iff_of_true rfl (.inr ⟨rfl, .inl h⟩)
    · exact iff_of_true rfl (.inr ⟨rfl, .inr h'⟩)
    · refine iff_of_false (by simp) ?_
      rintro (⟨i, hi, -⟩ | ⟨-, hbig | hnew⟩)
      · cases hi
      · exact h hbig
      · exact h' hnew
  | some i =>
    obtain ⟨e, off, hf, hei⟩ := exists_findName hl
    rw [dirlink_of_found hdir hf]
    refine ⟨fun _ r hr => ?_, ?_⟩
    · obtain ⟨⟨ip, s₁⟩, hi, rfl⟩ := Option.map_eq_some_iff.mp hr
      exact ⟨rfl, iput_iget_node hi⟩
    · rw [Option.map_eq_none_iff, hei]
      simp

theorem lookup_replicate_eq_none {n : ℕ} {e : Dirent} {name : List Char}
    (he : Dirent.named name e = false) : lookup (List.replicate n e) name = none := by
  rw [lookup_eq_none]
  intro e' he'
  rw [List.eq_of_mem_replicate he']
  exact he

theorem firstFree_replicate {n : ℕ} {e : Dirent} (he : e.inum ≠ 0) :
    firstFree (List.replicate n e) = n := by
  have hnone : (List.replicate n e).findIdx? (fun e => e.inum == 0) = none := by
    rw [List.findIdx?_eq_none_iff]
    intro e' he'
    rw [List.eq_of_mem_replicate he']
    simpa using he
  rw [firstFree, hnone, Option.getD_none, List.length_replicate]

/-! ## The directory as a map -/

/-- A directory behaves as a map from names, compared on their first `DIRSIZ` bytes, to inode
numbers. `namecmp` on a stored name is `strncmp` on the field `strncpy` filled. `dirlookup`
returns the inode the map gives, and panics only where `iget` does. `dirlink` of an inode number
that fits a dirent returns `false` with the inodes unchanged only on a name the map has, and
`true` only on a name it lacks, having written it into the first free entry or at the end and
added it to the map; it panics where `iget` does, where the directory would grow past
`MAXFILE` blocks, or where an entry that starts a new block finds no free block. -/
theorem dir_as_map {s : Sys} {dp : Fin NINODE} (hdir : (s.ino dp).type = some .dir)
    (name : List Char) :
    (∀ a b : List Char, NUL ∉ a → NUL ∉ b → ∀ rest : ℕ → Char,
      namecmp a (b.take DIRSIZ) = true ↔
        CString.strncmp NUL charCode (CString.cstr NUL a)
          (CString.field (CString.strncpy NUL (CString.cstr NUL b) DIRSIZ) rest) DIRSIZ = 0) ∧
    (∀ r s', dirlookup s dp name = some (r, s') →
      r.map (fun x => (s'.itable x.1).inum) = lookup (s.ino dp).entries name) ∧
    (dirlookup s dp name = none ↔
      ∃ inum, lookup (s.ino dp).entries name = some inum ∧ iget s inum = none) ∧
    ∀ inum, 0 < inum → inum < 2 ^ 16 →
      (∀ s', dirlink s dp name inum = some (false, s') →
        lookup (s.ino dp).entries name ≠ none ∧ s'.node = s.node) ∧
      (∀ s', dirlink s dp name inum = some (true, s') →
        lookup (s.ino dp).entries name = none ∧
        s'.node = Function.update s.node (s.itable dp).inum { s.ino dp with
          entries := writeEntry (s.ino dp).entries (firstFree (s.ino dp).entries)
            ⟨inum, name.take DIRSIZ⟩ } ∧
        ∀ name', lookup (s'.node (s.itable dp).inum).entries name' =
          if namecmp name name' then some inum else lookup (s.ino dp).entries name') ∧
      (dirlink s dp name inum = none ↔
        (∃ i, lookup (s.ino dp).entries name = some i ∧ iget s i = none) ∨
          (lookup (s.ino dp).entries name = none ∧
            (MAXFILE * BSIZE < (firstFree (s.ino dp).entries + 1) * DIRENT_SIZE ∨
              firstFree (s.ino dp).entries = (s.ino dp).entries.length ∧
                firstFree (s.ino dp).entries * DIRENT_SIZE % BSIZE = 0 ∧ s.room = false))) := by
  obtain ⟨hfound, hpanic⟩ := dirlookup_map hdir name
  refine ⟨fun a b ha hb rest => namecmp_take_iff_strncmp ha hb rest,
    fun r s' h => (hfound r s' h).1, hpanic, fun inum h0 h1 => ?_⟩
  have hcases := dirlink_cases hdir name inum
  refine ⟨fun s' h => ?_, fun s' h => ?_, hcases.2⟩
  · by_cases hl : lookup (s.ino dp).entries name = none
    · rw [dirlink_of_absent hdir hl] at h
      split_ifs at h
      cases h
    · exact ⟨hl, (hcases.1 hl _ h).2⟩
  · by_cases hl : lookup (s.ino dp).entries name = none
    · rw [dirlink_of_absent hdir hl, Nat.mod_eq_of_lt h1] at h
      split_ifs at h
      cases h
      refine ⟨hl, rfl, fun name' => ?_⟩
      -- the name is new, so its entry is the map's only change
      have hnew : ∀ e ∈ (s.ino dp).entries, e.inum ≠ 0 →
          namecmp (name.take DIRSIZ) e.name = false := by
        intro e he he0
        have := lookup_eq_none.mp hl e he
        simp only [Dirent.named, Bool.and_eq_false_iff, bne_eq_false_iff_eq] at this
        rw [namecmp_comm, namecmp_take, namecmp_comm]
        exact this.resolve_left he0
      have hnamed : Dirent.named name' ⟨inum, name.take DIRSIZ⟩ = namecmp name name' := by
        simp only [Dirent.named, namecmp_take, namecmp_comm name' name]
        simp [Nat.pos_iff_ne_zero.mp h0]
      simp only [Sys.setNode, Function.update_self]
      rw [lookup_writeEntry name' (firstFree_le _) (fun e he => firstFree_free he) hnew,
        hnamed]
    · cases (hcases.1 hl _ h).1

theorem dir_as_map_root :
    ((boot [['x']]).ino ⟨0, by decide⟩).type = some .dir ∧
    (∀ a b : List Char, NUL ∉ a → NUL ∉ b → ∀ rest : ℕ → Char,
      namecmp a (b.take DIRSIZ) = true ↔
        CString.strncmp NUL charCode (CString.cstr NUL a)
          (CString.field (CString.strncpy NUL (CString.cstr NUL b) DIRSIZ) rest) DIRSIZ = 0) ∧
    (∀ r s', dirlookup (boot [['x']]) ⟨0, by decide⟩ ['x'] = some (r, s') →
      r.map (fun x => (s'.itable x.1).inum) =
        lookup ((boot [['x']]).ino ⟨0, by decide⟩).entries ['x']) ∧
    (dirlookup (boot [['x']]) ⟨0, by decide⟩ ['x'] = none ↔
      ∃ inum, lookup ((boot [['x']]).ino ⟨0, by decide⟩).entries ['x'] = some inum ∧
        iget (boot [['x']]) inum = none) ∧
    ∀ inum, 0 < inum → inum < 2 ^ 16 →
      (∀ s', dirlink (boot [['x']]) ⟨0, by decide⟩ ['x'] inum = some (false, s') →
        lookup ((boot [['x']]).ino ⟨0, by decide⟩).entries ['x'] ≠ none ∧
          s'.node = (boot [['x']]).node) ∧
      (∀ s', dirlink (boot [['x']]) ⟨0, by decide⟩ ['x'] inum = some (true, s') →
        lookup ((boot [['x']]).ino ⟨0, by decide⟩).entries ['x'] = none ∧
        s'.node = Function.update (boot [['x']]).node ((boot [['x']]).itable ⟨0, by decide⟩).inum
          { (boot [['x']]).ino ⟨0, by decide⟩ with
            entries := writeEntry ((boot [['x']]).ino ⟨0, by decide⟩).entries
              (firstFree ((boot [['x']]).ino ⟨0, by decide⟩).entries) ⟨inum, ['x'].take DIRSIZ⟩ } ∧
        ∀ name', lookup (s'.node ((boot [['x']]).itable ⟨0, by decide⟩).inum).entries name' =
          if namecmp ['x'] name' then some inum
          else lookup ((boot [['x']]).ino ⟨0, by decide⟩).entries name') ∧
      (dirlink (boot [['x']]) ⟨0, by decide⟩ ['x'] inum = none ↔
        (∃ i, lookup ((boot [['x']]).ino ⟨0, by decide⟩).entries ['x'] = some i ∧
            iget (boot [['x']]) i = none) ∨
          (lookup ((boot [['x']]).ino ⟨0, by decide⟩).entries ['x'] = none ∧
            (MAXFILE * BSIZE <
                (firstFree ((boot [['x']]).ino ⟨0, by decide⟩).entries + 1) * DIRENT_SIZE ∨
              firstFree ((boot [['x']]).ino ⟨0, by decide⟩).entries =
                  ((boot [['x']]).ino ⟨0, by decide⟩).entries.length ∧
                firstFree ((boot [['x']]).ino ⟨0, by decide⟩).entries * DIRENT_SIZE % BSIZE = 0 ∧
                (boot [['x']]).room = false))) :=
  ⟨rfl, dir_as_map rfl ['x']⟩

/-- Where the map reading stops. An inode number is stored as a `ushort`: `dirlink` of `65536`
writes an entry with inode `0`, which is free, so the name is still not found. A directory of
`MAXFILE * BSIZE / sizeof(struct dirent)` entries in use has no room: `writei` fails and
`dirlink` panics. And a name that is present makes `dirlink` panic in `iget` when the inode
table is full. -/
theorem dir_as_map_counterexample :
    (∃ s', dirlink (boot []) ⟨0, by decide⟩ ['a'] 65536 = some (true, s') ∧
      lookup (s'.ino ⟨0, by decide⟩).entries ['a'] = none) ∧
    dirlink { boot [] with node := (Function.update (boot []).node ROOTINO
        ⟨some .dir, 0, 0, 1, List.replicate 17152 ⟨1, ['a']⟩⟩) } ⟨0, by decide⟩ ['b'] 2 = none ∧
    (lookup ((boot [['x']]).ino ⟨0, by decide⟩).entries ['x'] = some 2 ∧
      dirlink { boot [['x']] with itable := fun i =>
          if i.val = 0 then ⟨ROOTINO, 1, false⟩ else ⟨100 + i.val, 1, false⟩ }
        ⟨0, by decide⟩ ['x'] 3 = none) := by
  refine ⟨?_, ?_, by decide +kernel, ?_⟩
  · have hl : lookup ((boot []).ino ⟨0, by decide⟩).entries ['a'] = none := by decide +kernel
    exact ⟨_, ((dirlink_of_absent rfl hl).trans (if_neg (by decide +kernel))).trans
      (if_neg (by decide +kernel)), by decide +kernel⟩
  · -- every entry is in use under another name, and there is no free one
    have hl : lookup (List.replicate 17152 ⟨1, ['a']⟩) ['b'] = none :=
      lookup_replicate_eq_none (by decide)
    have hf := firstFree_replicate (n := 17152) (e := ⟨1, ['a']⟩) (by decide)
    refine ((dirlink_cases rfl ['b'] 2).2).mpr (Or.inr ⟨hl, Or.inl ?_⟩)
    rw [show ({ boot [] with node := (Function.update (boot []).node ROOTINO
        ⟨some .dir, 0, 0, 1, List.replicate 17152 ⟨1, ['a']⟩⟩) } : Sys).ino ⟨0, by decide⟩ =
        ⟨some .dir, 0, 0, 1, List.replicate 17152 ⟨1, ['a']⟩⟩ from rfl, hf]
    decide
  · exact ((dirlink_cases rfl ['x'] 3).2).mpr (Or.inl ⟨2, by decide +kernel, by decide +kernel⟩)

/-! ## Unique names under interleaved critical sections -/

/-- No two entries in use of a directory have names that agree in their first `DIRSIZ` bytes. -/
def UniqueNames (es : List Dirent) : Prop :=
  ∀ (i j : ℕ) (a b : Dirent), i ≠ j → es[i]? = some a → es[j]? = some b → a.inum ≠ 0 → b.inum ≠ 0 →
    namecmp a.name b.name = false

/-- Every directory of the system has unique names. -/
def Sys.NamesUnique (s : Sys) : Prop := ∀ inum, UniqueNames (s.node inum).entries

theorem UniqueNames.nil : UniqueNames [] := by
  unfold UniqueNames
  intro i j a b _ hi
  simp at hi

theorem writeEntry_getElem? {es : List Dirent} {off : ℕ} (hoff : off ≤ es.length) (x : Dirent)
    (i : ℕ) : (writeEntry es off x)[i]? = if i = off then some x else es[i]? := by
  unfold writeEntry
  split_ifs with h₁ h₂ h₂
  · subst h₂
    simp [h₁]
  · rw [List.getElem?_set, if_neg (Ne.symm h₂)]
  · have : off = es.length := by omega
    subst h₂
    simp [this]
  · rw [List.getElem?_append]
    split_ifs with h₃
    · rfl
    · have h₄ : 1 ≤ i - es.length := by omega
      rw [List.getElem?_eq_none (by simpa using h₄), List.getElem?_eq_none (by omega)]

/-- An entry whose name is in use nowhere else keeps the names unique. -/
theorem UniqueNames.writeEntry {es : List Dirent} (hu : UniqueNames es) {off : ℕ}
    (hoff : off ≤ es.length) {x : Dirent}
    (hnew : ∀ e ∈ es, e.inum ≠ 0 → namecmp x.name e.name = false) :
    UniqueNames (Names.writeEntry es off x) := by
  unfold UniqueNames
  intro i j a b hij ha hb ha0 hb0
  rw [writeEntry_getElem? hoff] at ha hb
  split_ifs at ha hb with hi hj hj
  · exact absurd (hi.trans hj.symm) hij
  · cases ha
    exact hnew b (List.mem_of_getElem? hb) hb0
  · cases hb
    rw [namecmp_comm]
    exact hnew a (List.mem_of_getElem? ha) ha0
  · exact hu i j a b hij ha hb ha0 hb0

/-- Zeroing an entry, as `sys_unlink` does, keeps the names unique. -/
theorem UniqueNames.set_free {es : List Dirent} (hu : UniqueNames es) (off : ℕ) :
    UniqueNames (es.set off ⟨0, []⟩) := by
  -- an entry in use after the write was there before
  have hold : ∀ (k : ℕ) (c : Dirent), (es.set off ⟨0, []⟩)[k]? = some c → c.inum ≠ 0 →
      es[k]? = some c := by
    intro k c hc hc0
    rw [List.getElem?_set] at hc
    split_ifs at hc
    · cases hc
      exact absurd rfl hc0
    · exact hc
  unfold UniqueNames
  intro i j a b hij ha hb ha0 hb0
  exact hu i j a b hij (hold i a ha ha0) (hold j b hb hb0) ha0 hb0

/-- `s'` writes no directory entry of `s`: each inode keeps its entries, or is freed. -/
def Quiet (s s' : Sys) : Prop :=
  ∀ inum, (s'.node inum).entries = (s.node inum).entries ∨ (s'.node inum).entries = []

theorem Quiet.refl (s : Sys) : Quiet s s := fun _ => Or.inl rfl

theorem Quiet.of_node {s s' : Sys} (h : s'.node = s.node) : Quiet s s' := fun _ => Or.inl (by rw [h])

theorem Quiet.trans {s₁ s₂ s₃ : Sys} (h₁ : Quiet s₁ s₂) (h₂ : Quiet s₂ s₃) : Quiet s₁ s₃ := by
  intro inum
  rcases h₂ inum with h | h
  · rw [h]
    exact h₁ inum
  · exact Or.inr h

theorem Sys.NamesUnique.quiet {s s' : Sys} (hu : s.NamesUnique) (hq : Quiet s s') :
    s'.NamesUnique := by
  intro inum
  rcases hq inum with h | h <;> rw [h]
  · exact hu inum
  · exact UniqueNames.nil

theorem Sys.NamesUnique.setNode {s : Sys} (hu : s.NamesUnique) {inum : ℕ} {n : Node}
    (hn : UniqueNames n.entries) : (s.setNode inum n).NamesUnique := by
  intro inum'
  by_cases h : inum' = inum
  · subst h
    simpa [Sys.setNode] using hn
  · simpa [Sys.setNode, h] using hu inum'

theorem Quiet.setNode (s : Sys) (inum : ℕ) {n : Node} (hn : n.entries = (s.node inum).entries) :
    Quiet s (s.setNode inum n) := by
  intro inum'
  by_cases h : inum' = inum
  · subst h
    simp [Sys.setNode, hn]
  · simp [Sys.setNode, h]

theorem ilock_spec {s s' : Sys} {i : Fin NINODE} (h : ilock s i = some s') :
    s'.node = s.node ∧ ∀ j, (s'.itable j).inum = (s.itable j).inum := by
  unfold ilock at h
  split_ifs at h <;> cases h
  · exact ⟨rfl, fun _ => rfl⟩
  · refine ⟨rfl, fun j => ?_⟩
    by_cases hj : j = i
    · subst hj
      simp [Sys.setEntry]
    · simp [Sys.setEntry, hj]

/-- A locked entry holds a reference. -/
theorem ilock_ref {s s' : Sys} {i : Fin NINODE} (h : ilock s i = some s') : 0 < (s'.itable i).ref := by
  unfold ilock at h
  split_ifs at h with h₁ <;> cases h
  · omega
  · simp only [Sys.setEntry, Function.update_self]
    omega

/-- `iput` changes no entry's inode, and at most frees the inode of its own entry. -/
theorem iput_spec (s : Sys) (i : Fin NINODE) :
    (∀ j, ((iput s i).itable j).inum = (s.itable j).inum) ∧
      ∀ n, (iput s i).node n = s.node n ∨
        (n = (s.itable i).inum ∧ (iput s i).node n = { s.node n with type := none, entries := [] }) := by
  unfold iput
  split_ifs with h
  · refine ⟨fun j => ?_, fun n => ?_⟩
    · by_cases hj : j = i
      · subst hj
        simp [Sys.setEntry]
      · simp [Sys.setEntry, Sys.setNode, hj]
    · by_cases hn : n = (s.itable i).inum
      · subst hn
        exact Or.inr ⟨rfl, by simp [Sys.setEntry, Sys.setNode, Sys.ino]⟩
      · exact Or.inl (by simp [Sys.setEntry, Sys.setNode, hn])
  · refine ⟨fun j => ?_, fun n => Or.inl rfl⟩
    by_cases hj : j = i
    · subst hj
      simp [Sys.setEntry]
    · simp [Sys.setEntry, hj]

theorem iput_quiet (s : Sys) (i : Fin NINODE) : Quiet s (iput s i) := by
  intro n
  rcases (iput_spec s i).2 n with h | ⟨-, h⟩ <;> rw [h]
  · exact Or.inl rfl
  · exact Or.inr rfl

/-- `iput` allocates no inode. -/
theorem iput_type_none (s : Sys) (i : Fin NINODE) {n : ℕ} (h : (s.node n).type = none) :
    ((iput s i).node n).type = none := by
  rcases (iput_spec s i).2 n with he | ⟨-, he⟩ <;> rw [he]
  exact h

/-- `dirlookup` returns only in a directory. -/
theorem dirlookup_dir {s s' : Sys} {dp : Fin NINODE} {name : List Char}
    {r : Option (Fin NINODE × ℕ)} (h : dirlookup s dp name = some (r, s')) :
    (s.ino dp).type = some .dir := by
  by_contra hdir
  simp [dirlookup, hdir] at h

theorem dirlookup_node {s s' : Sys} {dp : Fin NINODE} {name : List Char}
    {r : Option (Fin NINODE × ℕ)} (h : dirlookup s dp name = some (r, s')) : s'.node = s.node :=
  ((dirlookup_map (dirlookup_dir h) name).1 r s' h).2.1

theorem dirlookup_inum_of_ref {s s' : Sys} {dp : Fin NINODE} {name : List Char}
    {r : Option (Fin NINODE × ℕ)} (h : dirlookup s dp name = some (r, s')) {j : Fin NINODE}
    (hj : 0 < (s.itable j).ref) : (s'.itable j).inum = (s.itable j).inum := by
  unfold dirlookup at h
  split_ifs at h
  split at h
  · obtain ⟨⟨ip, s₁⟩, h₁, he⟩ := Option.map_eq_some_iff.mp h
    cases he
    exact iget_inum_of_ref h₁ hj
  · cases h
    rfl

/-- `dirlink` keeps the names unique: it writes only a name the directory lacks. -/
theorem dirlink_unique {s s' : Sys} {dp : Fin NINODE} {name : List Char} {inum : ℕ} {ok : Bool}
    (hu : s.NamesUnique) (h : dirlink s dp name inum = some (ok, s')) : s'.NamesUnique := by
  by_cases hdir : (s.ino dp).type = some .dir
  · by_cases hl : lookup (s.ino dp).entries name = none
    · rw [dirlink_of_absent hdir hl] at h
      split_ifs at h
      cases h
      apply hu.setNode
      apply UniqueNames.writeEntry (hu _) (firstFree_le _)
      intro e he he0
      have := lookup_eq_none.mp hl e he
      simp only [Dirent.named, Bool.and_eq_false_iff, bne_eq_false_iff_eq] at this
      rw [namecmp_comm, namecmp_take, namecmp_comm]
      exact this.resolve_left he0
    · exact hu.quiet (Quiet.of_node ((dirlink_cases hdir name inum).1 hl _ h).2)
  · simp [dirlink, dirlookup, hdir] at h

theorem ialloc_quiet {ninodes : ℕ} {s s' : Sys} {type : FileType} {ip : Fin NINODE}
    (h : ialloc ninodes s type = some (ip, s')) : Quiet s s' := by
  unfold ialloc at h
  split at h
  · rename_i inum _
    -- the new inode has no entries, and `iget` writes none
    have hq : Quiet s (s.setNode inum ⟨some type, 0, 0, 0, []⟩) := by
      intro n
      by_cases hn : n = inum
      · subst hn
        simp [Sys.setNode]
      · simp [Sys.setNode, hn]
    exact hq.trans (Quiet.of_node (iget_spec h).2.1)
  · cases h

theorem mkdots_unique {s s' : Sys} {dp ip : Fin NINODE} (hu : s.NamesUnique)
    (h : mkdots s dp ip = some s') : s'.NamesUnique := by
  unfold mkdots at h
  dsimp only at h
  -- `dp->nlink++` writes no entry
  have hu₁ := hu.quiet (Quiet.setNode s (s.itable dp).inum (n :=
    { s.node (s.itable dp).inum with nlink := (s.node (s.itable dp).inum).nlink + 1 }) rfl)
  split at h
  · rename_i s₁ h₁
    split at h
    · rename_i s₂ h₂
      cases h
      exact dirlink_unique (dirlink_unique hu₁ h₁) h₂
    · cases h
  · cases h

variable (ninodes : ℕ)

/-- The critical section of `create` on the parent `dp`, from `ilock(dp)` to `iunlockput(dp)`:
`create` after `nameiparent`. -/
def createIn (s : Sys) (dp : Fin NINODE) (name : List Char) (type : FileType) (major minor : ℤ) :
    Option (Option (Fin NINODE) × Sys) :=
  match ilock s dp with
  | none => none
  | some s =>
    match dirlookup s dp name with
    | none => none
    | some (some (ip, _), s) =>
      match ilock (iput s dp) ip with
      | none => none
      | some s =>
        if type = .file ∧ ((s.ino ip).type = some .file ∨ (s.ino ip).type = some .device) then
          some (some ip, s)
        else some (none, iput s ip)
    | some (none, s) =>
      match ialloc ninodes s type with
      | none => none
      | some (ip, s) =>
        match ilock s ip with
        | none => none
        | some s =>
          let inum := (s.itable ip).inum
          let s := s.setNode inum
            { s.node inum with major := toShort major, minor := toShort minor, nlink := 1 }
          match (if type = .dir then mkdots s dp ip else some s) with
          | none => none
          | some s =>
            match dirlink s dp name inum with
            | some (true, s) => some (some ip, iput s dp)
            | _ => none

theorem create_eq (s : Sys) (p : Fin NPROC) (path : List Char) (type : FileType) (major minor : ℤ) :
    create ninodes s p path type major minor =
      match nameiparent s p path with
      | none => none
      | some (none, s) => some (none, s)
      | some (some (dp, name), s) => createIn ninodes s dp name type major minor := rfl

/-- The critical section of `sys_link` on the new parent `dp`: `ilock(dp)`, `dirlink`,
`iunlockput(dp)`. -/
def linkIn (s : Sys) (dp : Fin NINODE) (name : List Char) (inum : ℕ) : Option (Bool × Sys) :=
  match ilock s dp with
  | none => none
  | some s => (dirlink s dp name inum).map fun (ok, s) => (ok, iput s dp)

/-- The critical section of `sys_unlink` on the parent `dp`: `sys_unlink` after
`nameiparent`. -/
def unlinkIn (s : Sys) (dp : Fin NINODE) (name : List Char) : Option (ℤ × Sys) :=
  match ilock s dp with
  | none => none
  | some s =>
    if namecmp name ['.'] ∨ namecmp name ['.', '.'] then some (-1, iput s dp)
    else
      match dirlookup s dp name with
      | none => none
      | some (none, s) => some (-1, iput s dp)
      | some (some (ip, off), s) =>
        match ilock s ip with
        | none => none
        | some s =>
          if (s.ino ip).nlink < 1 then none
          else if (s.ino ip).type = some .dir ∧ isdirempty (s.ino ip) = false then
            some (-1, iput (iput s ip) dp)
          else
            let dinum := (s.itable dp).inum
            let s := s.setNode dinum
              { s.node dinum with entries := (s.node dinum).entries.set off ⟨0, []⟩ }
            let s := if (s.ino ip).type = some .dir then
                s.setNode dinum { s.node dinum with nlink := (s.node dinum).nlink - 1 }
              else s
            let s := iput s dp
            let inum := (s.itable ip).inum
            some (0, iput (s.setNode inum { s.node inum with nlink := (s.node inum).nlink - 1 }) ip)

theorem sysUnlink_eq (s : Sys) (p : Fin NPROC) (path : List Char) :
    sysUnlink s p path =
      match nameiparent s p path with
      | none => none
      | some (none, s) => some (-1, s)
      | some (some (dp, name), s) => unlinkIn s dp name := rfl

variable {ninodes}

theorem createIn_unique {s s' : Sys} {dp : Fin NINODE} {name : List Char} {type : FileType}
    {major minor : ℤ} {r : Option (Fin NINODE)} (hu : s.NamesUnique)
    (h : createIn ninodes s dp name type major minor = some (r, s')) : s'.NamesUnique := by
  unfold createIn at h
  split at h
  · cases h
  rename_i s₁ h₁
  have hu₁ := hu.quiet (Quiet.of_node (ilock_spec h₁).1)
  split at h
  · cases h
  · -- the name is there: only locks and `iput`s follow
    rename_i ip off s₂ h₂
    have hu₂ := hu₁.quiet (Quiet.of_node (dirlookup_node h₂))
    split at h
    · cases h
    rename_i s₃ h₃
    have hu₃ := (hu₂.quiet (iput_quiet s₂ dp)).quiet (Quiet.of_node (ilock_spec h₃).1)
    split_ifs at h <;> cases h
    · exact hu₃
    · exact hu₃.quiet (iput_quiet s₃ ip)
  · -- a new inode, its dots, then its entry in `dp`
    rename_i s₂ h₂
    have hu₂ := hu₁.quiet (Quiet.of_node (dirlookup_node h₂))
    split at h
    · cases h
    rename_i ip s₃ h₃
    have hu₃ := hu₂.quiet (ialloc_quiet h₃)
    split at h
    · cases h
    rename_i s₄ h₄
    dsimp only at h
    have hu₄ := (hu₃.quiet (Quiet.of_node (ilock_spec h₄).1)).quiet
      (Quiet.setNode s₄ (s₄.itable ip).inum (n := { s₄.node (s₄.itable ip).inum with
        major := toShort major, minor := toShort minor, nlink := 1 }) rfl)
    split at h
    · cases h
    rename_i s₅ h₅
    have hu₅ : s₅.NamesUnique := by
      split_ifs at h₅
      · exact mkdots_unique hu₄ h₅
      · cases h₅
        exact hu₄
    split at h
    · rename_i s₆ h₆
      cases h
      exact (dirlink_unique hu₅ h₆).quiet (iput_quiet s₆ dp)
    · cases h

theorem linkIn_unique {s s' : Sys} {dp : Fin NINODE} {name : List Char} {inum : ℕ} {ok : Bool}
    (hu : s.NamesUnique) (h : linkIn s dp name inum = some (ok, s')) : s'.NamesUnique := by
  unfold linkIn at h
  split at h
  · cases h
  rename_i s₁ h₁
  obtain ⟨⟨ok', s₂⟩, h₂, he⟩ := Option.map_eq_some_iff.mp h
  cases he
  exact (dirlink_unique (hu.quiet (Quiet.of_node (ilock_spec h₁).1)) h₂).quiet (iput_quiet s₂ dp)

theorem unlinkIn_unique {s s' : Sys} {dp : Fin NINODE} {name : List Char} {r : ℤ}
    (hu : s.NamesUnique) (h : unlinkIn s dp name = some (r, s')) : s'.NamesUnique := by
  unfold unlinkIn at h
  split at h
  · cases h
  rename_i s₁ h₁
  have hu₁ := hu.quiet (Quiet.of_node (ilock_spec h₁).1)
  split_ifs at h
  · cases h
    exact hu₁.quiet (iput_quiet s₁ dp)
  split at h
  · cases h
  · rename_i s₂ h₂
    cases h
    exact (hu₁.quiet (Quiet.of_node (dirlookup_node h₂))).quiet (iput_quiet s₂ dp)
  rename_i ip off s₂ h₂
  have hu₂ := hu₁.quiet (Quiet.of_node (dirlookup_node h₂))
  split at h
  · cases h
  rename_i s₃ h₃
  have hu₃ := hu₂.quiet (Quiet.of_node (ilock_spec h₃).1)
  -- the entry is zeroed; the rest are link counts and `iput`s
  have hz : (s₃.setNode (s₃.itable dp).inum { s₃.node (s₃.itable dp).inum with
      entries := (s₃.node (s₃.itable dp).inum).entries.set off ⟨0, []⟩ }).NamesUnique :=
    hu₃.setNode (UniqueNames.set_free (hu₃ _) off)
  have hlast : ∀ t : Sys, t.NamesUnique → ∀ (inum k : ℕ),
      (iput ((iput t dp).setNode inum { (iput t dp).node inum with nlink := k }) ip).NamesUnique :=
    fun t ht inum k =>
      ((ht.quiet (iput_quiet t dp)).quiet
        (Quiet.setNode _ inum (n := { (iput t dp).node inum with nlink := k }) rfl)).quiet
        (iput_quiet _ ip)
  by_cases hn : (s₃.ino ip).nlink < 1
  · rw [if_pos hn] at h
    cases h
  rw [if_neg hn] at h
  by_cases hd : (s₃.ino ip).type = some .dir ∧ isdirempty (s₃.ino ip) = false
  · rw [if_pos hd] at h
    obtain ⟨-, rfl⟩ := Prod.mk.inj (Option.some.inj h)
    exact (hu₃.quiet (iput_quiet s₃ ip)).quiet (iput_quiet _ dp)
  rw [if_neg hd] at h
  dsimp only at h
  obtain ⟨-, rfl⟩ := Prod.mk.inj (Option.some.inj h)
  apply hlast
  split_ifs
  · exact hz.quiet (Quiet.setNode _ _ rfl)
  · exact hz

/-- `create` of a file whose name the parent binds to a file or a device returns, when it
returns, that inode, and allocates none: every free inode is still free. -/
theorem createIn_existing {s s' : Sys} {dp : Fin NINODE} {name : List Char} {major minor : ℤ}
    {inum : ℕ} {r : Option (Fin NINODE)} (hl : lookup (s.ino dp).entries name = some inum)
    (hf : (s.node inum).type = some .file ∨ (s.node inum).type = some .device)
    (h : createIn ninodes s dp name .file major minor = some (r, s')) :
    (∃ ip, r = some ip ∧ (s'.itable ip).inum = inum) ∧
      ∀ n, (s.node n).type = none → (s'.node n).type = none := by
  unfold createIn at h
  split at h
  · cases h
  rename_i s₁ h₁
  obtain ⟨hn₁, hi₁⟩ := ilock_spec h₁
  have hdp₁ : s₁.ino dp = s.ino dp := by simp only [Sys.ino, hn₁, hi₁]
  split at h
  · cases h
  · -- the name is bound: `dirlookup` returns an entry holding `inum`
    rename_i ip off s₂ h₂
    have hdir := dirlookup_dir h₂
    have hip₂ : (s₂.itable ip).inum = inum := by
      have hmap := ((dirlookup_map hdir name).1 _ _ h₂).1
      simpa [hdp₁, hl] using hmap
    -- `iput(dp)` frees at most the parent's inode, a directory, so not `inum`
    have hne : inum ≠ (s₂.itable dp).inum := by
      rw [dirlookup_inum_of_ref h₂ (ilock_ref h₁), hi₁]
      rintro rfl
      rw [hdp₁] at hdir
      rcases hf with hf | hf <;> simp [Sys.ino, hf] at hdir
    split at h
    · cases h
    rename_i s₃ h₃
    obtain ⟨hn₃, hi₃⟩ := ilock_spec h₃
    obtain ⟨hi₂, hn₂⟩ := iput_spec s₂ dp
    have hnode : (iput s₂ dp).node inum = s.node inum := by
      rcases hn₂ inum with he | ⟨hc, -⟩
      · rw [he, dirlookup_node h₂, hn₁]
      · exact absurd hc hne
    have hip : (s₃.itable ip).inum = inum := by rw [hi₃, hi₂, hip₂]
    have htype : (s₃.ino ip).type = (s.node inum).type := by rw [Sys.ino, hip, hn₃, hnode]
    rw [if_pos ⟨rfl, by rw [htype]; exact hf⟩] at h
    cases h
    refine ⟨⟨ip, rfl, hip⟩, fun n hn => ?_⟩
    rw [hn₃]
    apply iput_type_none
    rw [dirlookup_node h₂, hn₁]
    exact hn
  · -- `dirlookup` cannot miss a bound name
    rename_i s₂ h₂
    have hmap := ((dirlookup_map (dirlookup_dir h₂) name).1 _ _ h₂).1
    simp [hdp₁, hl] at hmap

/-! ### Path lookups write no entry -/

theorem namexLoop_quiet (parent : Bool) :
    ∀ (fuel : ℕ) (s : Sys) (ip : Fin NINODE) (path name : List Char) r s',
      namexLoop s parent ip fuel path name = some (r, s') → Quiet s s' := by
  intro fuel
  induction fuel with
  | zero =>
    intro s ip path name r s' h
    unfold namexLoop at h
    cases hsk : skipelem path with
    | none =>
      rw [hsk] at h
      split_ifs at h <;> cases h
      · exact iput_quiet s ip
      · exact Quiet.refl s
    | some p =>
      rw [hsk] at h
      cases h
  | succ fuel ih =>
    intro s ip path name r s' h
    unfold namexLoop at h
    cases hsk : skipelem path with
    | none =>
      rw [hsk] at h
      split_ifs at h <;> cases h
      · exact iput_quiet s ip
      · exact Quiet.refl s
    | some p =>
      obtain ⟨elem, rest⟩ := p
      rw [hsk] at h
      dsimp only at h
      split at h
      · cases h
      rename_i s₁ h₁
      have hq₁ := Quiet.of_node (ilock_spec h₁).1
      split_ifs at h
      · cases h
        exact hq₁.trans (iput_quiet s₁ ip)
      · cases h
        exact hq₁
      -- one element further down, by the loop's next pass
      split at h
      · cases h
      · rename_i s₂ h₂
        cases h
        exact (hq₁.trans (Quiet.of_node (dirlookup_node h₂))).trans (iput_quiet s₂ ip)
      · rename_i next off s₂ h₂
        exact ((hq₁.trans (Quiet.of_node (dirlookup_node h₂))).trans (iput_quiet s₂ ip)).trans
          (ih _ _ _ _ _ _ h)

theorem namex_quiet {s s' : Sys} {p : Fin NPROC} {path : List Char} {parent : Bool}
    {r : Option (Fin NINODE × List Char)} (h : namex s p path parent = some (r, s')) : Quiet s s' := by
  unfold namex at h
  dsimp only at h
  split at h
  · cases h
  rename_i ip s₁ h₁
  have hq : Quiet s s₁ := by
    split_ifs at h₁ with hroot
    · exact Quiet.of_node (iget_spec h₁).2.1
    · cases h₁
      exact Quiet.of_node rfl
  exact hq.trans (namexLoop_quiet parent _ _ _ _ _ _ _ h)

theorem namei_quiet {s s' : Sys} {p : Fin NPROC} {path : List Char} {r : Option (Fin NINODE)}
    (h : namei s p path = some (r, s')) : Quiet s s' := by
  obtain ⟨⟨r', s₁⟩, h₁, he⟩ := Option.map_eq_some_iff.mp h
  cases he
  exact namex_quiet h₁

/-! ### Interleavings -/

variable (ninodes)

/-- One atomic step of the processes working on names, at the grain of the kernel's locks: the
critical section of `create`, `sys_link` or `sys_unlink` on a parent `dp` with a name that an
earlier, separate path lookup produced; or a step that writes no directory entry (path lookups,
link counts, the file and process tables), which at most frees inodes. -/
inductive Section : Sys → Sys → Prop
  | create {s s' : Sys} {dp : Fin NINODE} {name : List Char} {type : FileType} {major minor : ℤ}
      {r : Option (Fin NINODE)} :
      createIn ninodes s dp name type major minor = some (r, s') → Section s s'
  | link {s s' : Sys} {dp : Fin NINODE} {name : List Char} {inum : ℕ} {ok : Bool} :
      linkIn s dp name inum = some (ok, s') → Section s s'
  | unlink {s s' : Sys} {dp : Fin NINODE} {name : List Char} {r : ℤ} :
      unlinkIn s dp name = some (r, s') → Section s s'
  | quiet {s s' : Sys} : Quiet s s' → Section s s'

variable {ninodes}

theorem Section.unique {s s' : Sys} (h : Section ninodes s s') (hu : s.NamesUnique) :
    s'.NamesUnique := by
  cases h with
  | create h => exact createIn_unique hu h
  | link h => exact linkIn_unique hu h
  | unlink h => exact unlinkIn_unique hu h
  | quiet h => exact hu.quiet h

/-- `create` is a path lookup, then its critical section. -/
theorem create_sections {s s' : Sys} {p : Fin NPROC} {path : List Char} {type : FileType}
    {major minor : ℤ} {r : Option (Fin NINODE)}
    (h : create ninodes s p path type major minor = some (r, s')) :
    Relation.ReflTransGen (Section ninodes) s s' := by
  rw [create_eq] at h
  split at h
  · cases h
  · rename_i s₁ h₁
    cases h
    exact Relation.ReflTransGen.single (Section.quiet (namex_quiet h₁))
  · rename_i dp name s₁ h₁
    exact (Relation.ReflTransGen.single (Section.quiet (namex_quiet h₁))).tail (Section.create h)

/-- `sys_unlink` is a path lookup, then its critical section. -/
theorem sysUnlink_sections {s s' : Sys} {p : Fin NPROC} {path : List Char} {r : ℤ}
    (h : sysUnlink s p path = some (r, s')) : Relation.ReflTransGen (Section ninodes) s s' := by
  rw [sysUnlink_eq] at h
  split at h
  · cases h
  · rename_i s₁ h₁
    cases h
    exact Relation.ReflTransGen.single (Section.quiet (namex_quiet h₁))
  · rename_i dp name s₁ h₁
    exact (Relation.ReflTransGen.single (Section.quiet (namex_quiet h₁))).tail (Section.unlink h)

/-- `sys_link` is a path lookup and a section on the old inode's link count, a path lookup, its
critical section on the new parent, and a last section on the link count. -/
theorem sysLink_sections {s s' : Sys} {p : Fin NPROC} {old new : List Char} {r : ℤ}
    (h : sysLink s p old new = some (r, s')) : Relation.ReflTransGen (Section ninodes) s s' := by
  unfold sysLink at h
  split at h
  · cases h
  · rename_i s₁ h₁
    cases h
    exact Relation.ReflTransGen.single (Section.quiet (namei_quiet h₁))
  rename_i ip s₁ h₁
  have hq₁ := namei_quiet h₁
  split at h
  · cases h
  rename_i s₂ h₂
  have hq₂ := hq₁.trans (Quiet.of_node (ilock_spec h₂).1)
  split_ifs at h
  · cases h
    exact Relation.ReflTransGen.single (Section.quiet (hq₂.trans (iput_quiet s₂ ip)))
  dsimp only at h
  -- raising the link count writes no entry; nor does lowering it again on failure
  have hq₃ := hq₂.trans (Quiet.setNode s₂ (s₂.itable ip).inum (n := { s₂.node (s₂.itable ip).inum
    with nlink := (s₂.node (s₂.itable ip).inum).nlink + 1 }) rfl)
  have hbad : ∀ t t' : Sys, ∀ r, ((ilock t ip).map fun t => (-1, iput (t.setNode
      (s₂.itable ip).inum { t.node (s₂.itable ip).inum with
        nlink := (t.node (s₂.itable ip).inum).nlink - 1 }) ip)) = some (r, t') → Quiet t t' := by
    intro t t' r hb
    obtain ⟨t₁, h₁, he⟩ := Option.map_eq_some_iff.mp hb
    cases he
    exact ((Quiet.of_node (ilock_spec h₁).1).trans (Quiet.setNode t₁ (s₂.itable ip).inum
      (n := { t₁.node (s₂.itable ip).inum with
        nlink := (t₁.node (s₂.itable ip).inum).nlink - 1 }) rfl)).trans (iput_quiet _ ip)
  split at h
  · cases h
  · rename_i s₃ h₃
    exact Relation.ReflTransGen.single (Section.quiet (hq₃.trans ((namex_quiet h₃).trans
      (hbad _ _ _ h))))
  rename_i dp name s₃ h₃
  have hpre := Relation.ReflTransGen.single (r := Section ninodes)
    (Section.quiet (hq₃.trans (namex_quiet h₃)))
  split at h
  · cases h
  rename_i s₄ h₄
  split at h
  · cases h
  · rename_i s₅ h₅
    cases h
    have hl : linkIn s₃ dp name (s₂.itable ip).inum = some (true, iput s₅ dp) := by
      simp [linkIn, h₄, h₅]
    exact (hpre.tail (Section.link hl)).tail (Section.quiet (iput_quiet _ ip))
  · rename_i s₅ h₅
    have hl : linkIn s₃ dp name (s₂.itable ip).inum = some (false, iput s₅ dp) := by
      simp [linkIn, h₄, h₅]
    exact (hpre.tail (Section.link hl)).tail (Section.quiet (hbad _ _ _ h))

/-! ### The other calls write no entry -/

theorem filealloc_node {s s' : Sys} {f : Fin NFILE} (h : filealloc s = some (f, s')) :
    s'.node = s.node := by
  obtain ⟨g, -, he⟩ := Option.map_eq_some_iff.mp h
  cases he
  rfl

theorem fdalloc_node {s s' : Sys} {p : Fin NPROC} {f : Fin NFILE} {fd : Fin NOFILE}
    (h : fdalloc s p f = some (fd, s')) : s'.node = s.node := by
  obtain ⟨g, -, he⟩ := Option.map_eq_some_iff.mp h
  cases he
  rfl

theorem fileclose_quiet {s s' : Sys} {f : Fin NFILE} (h : fileclose s f = some s') : Quiet s s' := by
  unfold fileclose at h
  split_ifs at h
  · cases h
    exact Quiet.of_node rfl
  -- the last reference: the inode goes back through `iput`
  dsimp only at h
  split_ifs at h <;> cases h
  · exact (Quiet.of_node rfl).trans (iput_quiet _ _)
  · exact Quiet.of_node rfl

theorem closeAll_quiet (p : Fin NPROC) (fds : List (Fin NOFILE)) :
    ∀ s s', closeAll p fds s = some s' → Quiet s s' := by
  induction fds with
  | nil =>
    intro s s' h
    cases h
    exact Quiet.refl s
  | cons fd fds ih =>
    intro s s' h
    rw [closeAll] at h
    split at h
    · exact ih s s' h
    split at h
    · cases h
    rename_i s₁ h₁
    have h₂ := ih _ s' h
    exact (fileclose_quiet h₁).trans ((Quiet.of_node rfl).trans h₂)

theorem exit_quiet {s s' : Sys} {p : Fin NPROC} (h : exit s p = some s') : Quiet s s' := by
  unfold exit at h
  split_ifs at h
  split at h
  · cases h
  rename_i s₁ h₁
  cases h
  exact ((closeAll_quiet p _ s s₁ h₁).trans (iput_quiet _ _)).trans (Quiet.of_node rfl)

/-- A loop over the descriptors that changes no inode changes none in all. -/
theorem foldl_node {g : Sys → Fin NOFILE → Sys} (hg : ∀ s fd, (g s fd).node = s.node)
    (l : List (Fin NOFILE)) : ∀ s, (l.foldl g s).node = s.node := by
  induction l with
  | nil => exact fun s => rfl
  | cons fd l ih => exact fun s => (ih (g s fd)).trans (hg s fd)

theorem fork_node {s s' : Sys} {p : Fin NPROC} {mem : Bool} {r : ℤ}
    (h : fork s p mem = some (r, s')) : s'.node = s.node := by
  unfold fork at h
  split at h
  · cases h
    rfl
  split_ifs at h <;> cases h
  · -- sharing the files raises only their reference counts
    exact foldl_node (fun t fd => by split <;> rfl) _ s
  · rfl

theorem sysChdir_quiet {s s' : Sys} {p : Fin NPROC} {path : List Char} {r : ℤ}
    (h : sysChdir s p path = some (r, s')) : Quiet s s' := by
  unfold sysChdir at h
  split at h
  · cases h
  · rename_i s₁ h₁
    cases h
    exact namei_quiet h₁
  rename_i ip s₁ h₁
  split at h
  · cases h
  rename_i s₂ h₂
  have hq := (namei_quiet h₁).trans (Quiet.of_node (ilock_spec h₂).1)
  split_ifs at h <;> cases h
  · exact hq.trans (iput_quiet s₂ ip)
  · exact (hq.trans (iput_quiet _ _)).trans (Quiet.of_node rfl)

theorem sysClose_quiet {s s' : Sys} {p : Fin NPROC} {fd : ℕ} {r : ℤ}
    (h : sysClose s p fd = some (r, s')) : Quiet s s' := by
  unfold sysClose at h
  split_ifs at h with hfd
  · split at h
    · cases h
      exact Quiet.refl s
    obtain ⟨s₁, h₁, he⟩ := Option.map_eq_some_iff.mp h
    cases he
    have h₂ := fileclose_quiet h₁
    exact (Quiet.of_node rfl).trans h₂
  · cases h
    exact Quiet.refl s

/-! ### Every call is a run of sections -/

theorem openInode_sections {s s' : Sys} {p : Fin NPROC} {path : List Char} {omode : ℕ}
    {r : Option (Fin NINODE)} (h : openInode ninodes s p path omode = some (r, s')) :
    Relation.ReflTransGen (Section ninodes) s s' := by
  unfold openInode at h
  split_ifs at h
  · exact create_sections h
  apply Relation.ReflTransGen.single
  apply Section.quiet
  split at h
  · cases h
  · rename_i s₁ h₁
    cases h
    exact namei_quiet h₁
  rename_i ip s₁ h₁
  split at h
  · cases h
  rename_i s₂ h₂
  have hq := (namei_quiet h₁).trans (Quiet.of_node (ilock_spec h₂).1)
  split_ifs at h <;> cases h
  · exact hq.trans (iput_quiet s₂ ip)
  · exact hq

theorem sysOpen_sections {s s' : Sys} {p : Fin NPROC} {path : List Char} {omode : ℕ} {r : ℤ}
    (h : sysOpen ninodes s p path omode = some (r, s')) :
    Relation.ReflTransGen (Section ninodes) s s' := by
  unfold sysOpen at h
  split at h
  · cases h
  · rename_i s₁ h₁
    cases h
    exact openInode_sections h₁
  rename_i ip s₁ h₁
  -- after the lookup, only the file table, the descriptors and `iput`
  refine (openInode_sections h₁).tail (Section.quiet ?_)
  split_ifs at h
  · cases h
    exact iput_quiet s₁ ip
  split at h
  · cases h
    exact iput_quiet s₁ ip
  rename_i f s₂ h₂
  have hq₂ := Quiet.of_node (filealloc_node h₂)
  split at h
  · obtain ⟨s₃, h₃, he⟩ := Option.map_eq_some_iff.mp h
    cases he
    exact (hq₂.trans (fileclose_quiet h₃)).trans (iput_quiet s₃ ip)
  · rename_i fd s₃ h₃
    cases h
    exact (hq₂.trans (Quiet.of_node (fdalloc_node h₃))).trans (Quiet.of_node rfl)

theorem sysMkdir_sections {s s' : Sys} {p : Fin NPROC} {path : List Char} {r : ℤ}
    (h : sysMkdir ninodes s p path = some (r, s')) :
    Relation.ReflTransGen (Section ninodes) s s' := by
  unfold sysMkdir at h
  split at h
  · cases h
  · rename_i s₁ h₁
    cases h
    exact create_sections h₁
  · rename_i ip s₁ h₁
    cases h
    exact (create_sections h₁).tail (Section.quiet (iput_quiet s₁ ip))

theorem sysMknod_sections {s s' : Sys} {p : Fin NPROC} {path : List Char} {major minor r : ℤ}
    (h : sysMknod ninodes s p path major minor = some (r, s')) :
    Relation.ReflTransGen (Section ninodes) s s' := by
  unfold sysMknod at h
  split at h
  · cases h
  · rename_i s₁ h₁
    cases h
    exact create_sections h₁
  · rename_i ip s₁ h₁
    cases h
    exact (create_sections h₁).tail (Section.quiet (iput_quiet s₁ ip))

theorem step_sections {s s' : Sys} {p : Fin NPROC} {c : Call} {r : ℤ}
    (h : step ninodes s p c = some (r, s')) : Relation.ReflTransGen (Section ninodes) s s' := by
  match c, h with
  | .open _ _, h => exact sysOpen_sections h
  | .mkdir _, h => exact sysMkdir_sections h
  | .mknod _ _ _, h => exact sysMknod_sections h
  | .link _ _, h => exact sysLink_sections h
  | .unlink _, h => exact sysUnlink_sections h
  | .chdir _, h => exact .single (.quiet (sysChdir_quiet h))
  | .close _, h => exact .single (.quiet (sysClose_quiet h))
  | .exit, h =>
    obtain ⟨s₁, h₁, he⟩ := Option.map_eq_some_iff.mp h
    cases he
    exact .single (.quiet (exit_quiet h₁))
  | .fork _, h => exact .single (.quiet (Quiet.of_node (fork_node h)))

/-- A run of calls, at the grain of whole calls, is one interleaving of their sections. -/
theorem run_sections (calls : List (Fin NPROC × Call)) :
    ∀ s s', run ninodes s calls = some s' → Relation.ReflTransGen (Section ninodes) s s' := by
  induction calls with
  | nil =>
    intro s s' h
    cases h
    exact .refl
  | cons pc calls ih =>
    intro s s' h
    obtain ⟨p, c⟩ := pc
    rw [run] at h
    split_ifs at h
    · obtain ⟨⟨r, s₁⟩, h₁, h₂⟩ := Option.bind_eq_some_iff.mp h
      exact (step_sections h₁).trans (ih s₁ s' h₂)

/-! ### Unique names over every interleaving -/

theorem uniqueNames_iff (es : List Dirent) : UniqueNames es ↔
    ∀ i (hi : i < es.length) j (hj : j < es.length), i ≠ j → es[i].inum ≠ 0 → es[j].inum ≠ 0 →
      namecmp es[i].name es[j].name = false := by
  constructor
  · intro hu i hi j hj hij ha hb
    exact hu i j _ _ hij (List.getElem?_eq_getElem hi) (List.getElem?_eq_getElem hj) ha hb
  · intro h i j a b hij ha hb ha0 hb0
    obtain ⟨hi, rfl⟩ := List.getElem?_eq_some_iff.mp ha
    obtain ⟨hj, rfl⟩ := List.getElem?_eq_some_iff.mp hb
    exact h i hi j hj hij ha0 hb0

instance (es : List Dirent) : Decidable (UniqueNames es) :=
  decidable_of_iff _ (uniqueNames_iff es).symm

/-- After boot, only the root directory has entries. -/
theorem boot_namesUnique {names : List (List Char)} (h : UniqueNames (rootEntries names)) :
    (boot names).NamesUnique := by
  intro inum
  simp only [boot]
  split_ifs
  · exact h
  · exact UniqueNames.nil
  · exact UniqueNames.nil

variable (ninodes)

theorem dir_names_unique {s₀ : Sys} (h₀ : s₀.NamesUnique) :
    (∀ s, Relation.ReflTransGen (Section ninodes) s₀ s → s.NamesUnique) ∧
    (∀ calls s, run ninodes s₀ calls = some s → s.NamesUnique) ∧
    ∀ (s s' : Sys) (dp : Fin NINODE) (name : List Char) (major minor : ℤ) (inum : ℕ)
      (r : Option (Fin NINODE)), lookup (s.ino dp).entries name = some inum →
      ((s.node inum).type = some .file ∨ (s.node inum).type = some .device) →
      createIn ninodes s dp name .file major minor = some (r, s') →
      (∃ ip, r = some ip ∧ (s'.itable ip).inum = inum) ∧
        ∀ n, (s.node n).type = none → (s'.node n).type = none := by
  -- the invariant over any chain of sections, by induction on the chain
  have hchain : ∀ s, Relation.ReflTransGen (Section ninodes) s₀ s → s.NamesUnique := by
    intro s hs
    induction hs with
    | refl => exact h₀
    | tail _ hstep ih => exact hstep.unique ih
  refine ⟨hchain, fun calls s h => hchain s (run_sections calls s₀ s h), ?_⟩
  intro s s' dp name major minor inum r hl hf h
  exact createIn_existing hl hf h

theorem dir_names_unique_boot :
    (boot [['x']]).NamesUnique ∧
    (∀ s, Relation.ReflTransGen (Section 200) (boot [['x']]) s → s.NamesUnique) ∧
    (∀ calls s, run 200 (boot [['x']]) calls = some s → s.NamesUnique) ∧
    ∀ (s s' : Sys) (dp : Fin NINODE) (name : List Char) (major minor : ℤ) (inum : ℕ)
      (r : Option (Fin NINODE)), lookup (s.ino dp).entries name = some inum →
      ((s.node inum).type = some .file ∨ (s.node inum).type = some .device) →
      createIn 200 s dp name .file major minor = some (r, s') →
      (∃ ip, r = some ip ∧ (s'.itable ip).inum = inum) ∧
        ∀ n, (s.node n).type = none → (s'.node n).type = none := by
  have h₀ : (boot [['x']]).NamesUnique := boot_namesUnique (by decide +kernel)
  exact ⟨h₀, dir_names_unique 200 h₀⟩

end Xv6.Names
