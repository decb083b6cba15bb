import Xv6.Vm.Sv39

/-!
# Page tables (kernel/vm.c): walk, walkaddr, mappages, uvmunmap

The kernel's state for these functions is physical memory and the free list of the page
allocator (`VmState`); `kalloc` takes the first free page and fills it with junk, `kfree` fills a page
with junk and puts it first (the free list of `Xv6.Kalloc`, whose `Inv.kalloc` and `Inv.kfree`
say that it behaves so). A panic is `none`.

A page table at `root` is well formed (`Wf`) when no two paths reach one page-table page
(`Radix.Tree`) and the free pages are pages that are not page-table pages. It then stands for the
map `translate` from virtual pages to leaf PTEs, and each function is a change of that map:

* `walk_false`: `walk(pagetable, va, 0)` is the slot of `va` in its level-0 page, or 0;
* `walk_true`: `walk(pagetable, va, 1)` links fresh zeroed pages where the path of `va` is
  missing, which changes no translation, and returns the slot, or 0 when the free list runs out;
* `mappages_spec`: after `mappages` returns 0, the pages from `PGROUNDDOWN(va)` to
  `PGROUNDDOWN(va + size - 1)` hold the new PTEs and no other translation has changed
  (`Mapped`);
* `uvmunmap_spec`: after `uvmunmap`, its pages translate to 0 and no other has changed
  (`Unmapped`), and with `do_free` the pages they mapped are on the free list, when they are
  distinct and neither page-table pages nor free (`Freeable`);
* `walkaddr_eq`: `walkaddr` reads the translation.
-/

namespace Xv6.Vm

/-- The state `kernel/vm.c` works on: physical memory, and the pages on the allocator's free
list, the one `kalloc` returns next first. -/
structure VmState where
  mem : Memory
  free : List (BitVec 64)

/-- `kalloc()`: the first free page, filled with junk; 0 when there is none. -/
def kalloc (s : VmState) : VmState × BitVec 64 :=
  match s.free with
  | [] => (s, 0)
  | r :: free => (⟨memset s.mem r 5 PGSIZE, free⟩, r)

/-- `kfree(pa)` in a kernel whose image ends at `endk`: it panics on an address that is not a page
of RAM above the kernel, fills the page with junk and puts it first on the list. -/
def kfree (endk : BitVec 64) (s : VmState) (pa : BitVec 64) : Option VmState :=
  if pa % (PGSIZE : BitVec 64) ≠ 0 ∨ pa < endk ∨ pa ≥ (PHYSTOP : BitVec 64) then none
  else some ⟨memset s.mem pa 1 PGSIZE, pa :: s.free⟩

/-- The loop of `walk`, at `level` in the page-table page `pagetable`: the address of the PTE of
`va`, or 0. -/
def walkLoop (va : BitVec 64) (alloc : Bool) : ℕ → BitVec 64 → VmState → VmState × BitVec 64
  | 0, pagetable, s => (s, pagetable + 8 * PX 0 va)
  | level + 1, pagetable, s =>
    let pte := pagetable + 8 * PX (level + 1) va
    if loadPte s.mem pte &&& PTE_V ≠ 0 then
      walkLoop va alloc level (PTE2PA (loadPte s.mem pte)) s
    else if !alloc then (s, 0)
    else
      let (s, pagetable) := kalloc s
      if pagetable = 0 then (s, 0)
      else
        -- `memset(pagetable, 0, PGSIZE); *pte = PA2PTE(pagetable) | PTE_V;`
        walkLoop va alloc level pagetable
          ⟨storePte (memset s.mem pagetable 0 PGSIZE) pte (PA2PTE pagetable ||| PTE_V), s.free⟩

/-- `walk(pagetable, va, alloc)`. -/
def walk (s : VmState) (pagetable va : BitVec 64) (alloc : Bool) : Option (VmState × BitVec 64) :=
  if va ≥ MAXVA then none else some (walkLoop va alloc 2 pagetable s)

/-- `walkaddr(pagetable, va)`: past its own check, `walk(pagetable, va, 0)` cannot panic. -/
def walkaddr (s : VmState) (pagetable va : BitVec 64) : BitVec 64 :=
  if va ≥ MAXVA then 0
  else
    let pte := (walkLoop va false 2 pagetable s).2
    if pte = 0 then 0
    else if loadPte s.mem pte &&& PTE_V = 0 then 0
    else if loadPte s.mem pte &&& PTE_U = 0 then 0
    else PTE2PA (loadPte s.mem pte)

theorem lt_MAXVA_of_walk {s : VmState} {pagetable va : BitVec 64} {alloc : Bool} {r : VmState × BitVec 64}
    (h : walk s pagetable va alloc = some r) : va.toNat < 2 ^ 38 := by
  unfold walk at h
  split_ifs at h with hva
  rw [← toNat_MAXVA]
  exact BitVec.lt_def.1 (BitVec.not_le.1 hva)

/-- The loop of `mappages`, `for(;;)` from the page `a`, mapped to `pa`, through the page
`last`: 0, or -1 when `walk` cannot allocate. It ends at `MAXVA` at the latest, where `walk`
panics. -/
def mappagesLoop (pagetable last : BitVec 64) (perm : BitVec 32) (a pa : BitVec 64) (s : VmState) :
    Option (VmState × ℤ) :=
  match h : walk s pagetable a true with
  | none => none
  | some (s, pte) =>
    if pte = 0 then some (s, -1)
    else if loadPte s.mem pte &&& PTE_V ≠ 0 then none
    else
      let s : VmState := ⟨storePte s.mem pte (PA2PTE pa ||| perm.signExtend 64 ||| PTE_V), s.free⟩
      if a = last then some (s, 0)
      else mappagesLoop pagetable last perm (a + PGSIZE) (pa + PGSIZE) s
termination_by 2 ^ 38 - a.toNat
decreasing_by
  have ha := lt_MAXVA_of_walk h
  have : (a + (PGSIZE : BitVec 64)).toNat = a.toNat + 4096 := by
    rw [BitVec.toNat_add, show (PGSIZE : BitVec 64).toNat = 4096 from rfl]
    omega
  omega

/-- `mappages(pagetable, va, size, pa, perm)`. -/
def mappages (s : VmState) (pagetable va size pa : BitVec 64) (perm : BitVec 32) : Option (VmState × ℤ) :=
  if size = 0 then none
  else mappagesLoop pagetable (PGROUNDDOWN (va + size - 1)) perm (PGROUNDDOWN va) pa s

/-- The loop of `uvmunmap`, `for(a = va; a < va + npages*PGSIZE; a += PGSIZE)`, with the bound
`stop`. -/
def uvmunmapLoop (endk pagetable stop : BitVec 64) (do_free : Bool) (a : BitVec 64) (s : VmState) :
    Option VmState :=
  if a < stop then
    match h : walk s pagetable a false with
    | none => none
    | some (s, pte) =>
      if pte = 0 then none
      else if loadPte s.mem pte &&& PTE_V = 0 then none
      else if PTE_FLAGS (loadPte s.mem pte) = PTE_V then none
      else
        match (if do_free then kfree endk s (PTE2PA (loadPte s.mem pte)) else some s) with
        | none => none
        | some s =>
          uvmunmapLoop endk pagetable stop do_free (a + PGSIZE) ⟨storePte s.mem pte 0, s.free⟩
  else some s
termination_by 2 ^ 38 - a.toNat
decreasing_by
  have ha := lt_MAXVA_of_walk h
  have : (a + (PGSIZE : BitVec 64)).toNat = a.toNat + 4096 := by
    rw [BitVec.toNat_add, show (PGSIZE : BitVec 64).toNat = 4096 from rfl]
    omega
  omega

/-- `uvmunmap(pagetable, va, npages, do_free)`. -/
def uvmunmap (endk : BitVec 64) (s : VmState) (pagetable va npages : BitVec 64) (do_free : Bool) :
    Option VmState :=
  if va % (PGSIZE : BitVec 64) ≠ 0 then none
  else uvmunmapLoop endk pagetable (va + npages * PGSIZE) do_free va s

/-! ## Well-formed page tables -/

/-- A page table: from an aligned root, no two paths reach one page-table page, and none of
them is at address 0. -/
structure PageTable (mem : Memory) (root : BitVec 64) : Prop where
  aligned : Aligned root
  tree : Radix.Tree child (entry mem) root 2
  ne_zero : ∀ t, Table mem root t → t ≠ 0

/-- Every valid entry of the page-table pages above level 0 passes `freewalk`'s test for a link
to a page-table page: it has none of the permission bits `PTE_R`, `PTE_W`, `PTE_X`. -/
def Links (mem : Memory) (root : BitVec 64) : Prop :=
  Radix.Inner child (fun pte => pte &&& PTE_V ≠ 0 → pte &&& (PTE_R ||| PTE_W ||| PTE_X) = 0)
    (entry mem) root 2

/-- A page table whose pages above level 0 hold links only and which maps nothing from `MAXVA`
on, and a free list of distinct pages, none of them at 0 or a page-table page. -/
structure Wf (s : VmState) (root : BitVec 64) : Prop extends PageTable s.mem root where
  links : Links s.mem root
  /-- the entries of the root from 256 on, for the addresses from `MAXVA` to `2 ^ 39`, which
  `walk` refuses, are invalid -/
  high : ∀ i : Fin 512, 256 ≤ i.val → entry s.mem root i &&& PTE_V = 0
  nodup : s.free.Nodup
  free_page : ∀ a ∈ s.free, a ≠ 0 ∧ Aligned a
  fresh : ∀ a ∈ s.free, ¬ Table s.mem root a

section Zero

variable {mem : Memory} {root : BitVec 64} (hz : ∀ i, entry mem root i = 0)
include hz

/-- In a page of zeros only the empty path reaches a page-table page. -/
theorem node_of_zero {p : List (Fin 512)} {u : BitVec 64}
    (h : Radix.node child (entry mem) root p = some u) : p = [] ∧ u = root := by
  cases p with
  | nil => exact ⟨rfl, (Option.some.inj h).symm⟩
  | cons i p =>
    rw [Radix.node_cons, hz i, child_eq_none.2 (by decide)] at h
    exact absurd h (by simp)

theorem table_of_zero {t : BitVec 64} (h : Table mem root t) : t = root := by
  obtain ⟨p, -, hp⟩ := h
  exact (node_of_zero hz hp).2

/-- A page of zeros maps nothing. -/
theorem translate_of_zero (va : BitVec 64) : translate mem root va = 0 := by
  cases hl : level0 mem root va with
  | none => exact Radix.lookup_of_node_none hl _
  | some t => exact absurd (node_of_zero hz hl).1 (by simp)

/-- A page of zeros is a page table without entries. -/
theorem pageTable_of_zero (hr : Aligned root) (hr0 : root ≠ 0) : PageTable mem root := by
  refine ⟨hr, fun p q u _ _ hp hq => (node_of_zero hz hp).1.trans (node_of_zero hz hq).1.symm,
    fun t ht => ?_⟩
  rw [table_of_zero hz ht]
  exact hr0

/-- A page of zeros, with a free list of other pages, is well formed. -/
theorem wf_of_zero (hr : Aligned root) (hr0 : root ≠ 0) {free : List (BitVec 64)}
    (hnd : free.Nodup) (hfree : ∀ a ∈ free, a ≠ 0 ∧ Aligned a) (hroot : root ∉ free) :
    Wf ⟨mem, free⟩ root :=
  ⟨pageTable_of_zero hz hr hr0, fun p u _ hu i hv => by
    rw [(node_of_zero hz hu).2, hz i] at hv
    exact absurd rfl hv, fun i _ => by rw [hz i]; rfl, hnd, hfree,
    fun a ha ht => hroot (table_of_zero hz ht ▸ ha)⟩

end Zero

theorem PageTable.aligned_of_table {mem : Memory} {root t : BitVec 64} (h : PageTable mem root)
    (ht : Table mem root t) : Aligned t :=
  let ⟨p, _, hp⟩ := ht
  aligned_of_node p h.aligned hp

theorem table_of_node {mem : Memory} {root t : BitVec 64} {p : List (Fin 512)}
    (hp : p.length ≤ 2) (h : Radix.node child (entry mem) root p = some t) : Table mem root t :=
  ⟨p, hp, h⟩

/-- The slot of an entry of a page-table page is not the null pointer. -/
theorem PageTable.slot_ne_zero {mem : Memory} {root t : BitVec 64} (h : PageTable mem root)
    (ht : Table mem root t) (i : Fin 512) : t + 8 * BitVec.ofNat 64 i ≠ 0 := by
  intro h0
  have hslot := toNat_slot (h.aligned_of_table ht) i
  have hne : t.toNat ≠ 0 := fun e => h.ne_zero t ht (BitVec.eq_of_toNat_eq e)
  rw [h0] at hslot
  simp at hslot
  omega

/-- `mem'` agrees with `mem` on every page-table page of `root`. -/
def Agree (mem mem' : Memory) (root : BitVec 64) : Prop :=
  ∀ t, Table mem root t → entry mem' t = entry mem t

section Agree

variable {mem mem' : Memory} {root : BitVec 64} (h : Agree mem mem' root)
include h

theorem Agree.node : ∀ p : List (Fin 512), p.length ≤ 2 →
    Radix.node child (entry mem') root p = Radix.node child (entry mem) root p :=
  Radix.node_congr fun p u hp hu => h u ⟨p, Nat.le_of_lt hp, hu⟩

theorem Agree.table (t : BitVec 64) : Table mem' root t ↔ Table mem root t :=
  Radix.mem_congr (fun p u hp hu => h u ⟨p, Nat.le_of_lt hp, hu⟩) t

theorem Agree.translate (va : BitVec 64) : translate mem' root va = translate mem root va :=
  Radix.lookup_congr (fun p u hp hu => h u ⟨p, hp, hu⟩) (by simp) _

theorem Agree.pageTable (hpt : PageTable mem root) : PageTable mem' root where
  aligned := hpt.aligned
  tree := (Radix.tree_congr fun p u hp hu => h u ⟨p, Nat.le_of_lt hp, hu⟩).2 hpt.tree
  ne_zero t ht := hpt.ne_zero t ((h.table t).1 ht)

theorem Agree.links (hl : Links mem root) : Links mem' root :=
  (Radix.inner_congr fun p u hp hu => h u ⟨p, Nat.le_of_lt hp, hu⟩).2 hl

theorem Agree.high (hh : ∀ i : Fin 512, 256 ≤ i.val → entry mem root i &&& PTE_V = 0) :
    ∀ i : Fin 512, 256 ≤ i.val → entry mem' root i &&& PTE_V = 0 := by
  intro i hi
  rw [h root ⟨[], Nat.zero_le _, rfl⟩]
  exact hh i hi

theorem Agree.trans {mem'' : Memory} (h' : Agree mem' mem'' root) : Agree mem mem'' root :=
  fun t ht => (h' t ((h.table t).2 ht)).trans (h t ht)

end Agree

theorem Agree.refl (mem : Memory) (root : BitVec 64) : Agree mem mem root := fun _ _ => rfl

/-- A store that changes no byte of a page-table page. -/
theorem agree_of_outside {mem mem' : Memory} {root : BitVec 64} (hpt : PageTable mem root)
    (h : ∀ b t, Table mem root t → t.toNat ≤ b.toNat → b.toNat < t.toNat + PGSIZE → mem' b = mem b) :
    Agree mem mem' root :=
  fun t ht => entry_congr (hpt.aligned_of_table ht) (h · t ht)

/-- `memset` of a page that is not a page-table page. -/
theorem agree_memset {mem : Memory} {root r : BitVec 64} (hpt : PageTable mem root) (hr : Aligned r)
    (hnot : ¬ Table mem root r) (c : UInt8) : Agree mem (memset mem r c PGSIZE) root :=
  fun _ ht => entry_memset_of_ne hr (hpt.aligned_of_table ht) (fun e => hnot (e ▸ ht)) c

/-! ## `walk` -/

/-- The indices of `va` from `level` down to 1: the path `walk` follows from a page-table page of
`level`. -/
def below (va : BitVec 64) : ℕ → List (Fin 512)
  | 0 => []
  | l + 1 => px (l + 1) va :: below va l

/-- Without allocation, the loop follows the path of `va` and changes nothing. -/
theorem walkLoop_false (va : BitVec 64) (s : VmState) : ∀ (l : ℕ) (u : BitVec 64),
    walkLoop va false l u s =
      (s, match Radix.node child (entry s.mem) u (below va l) with
        | some t => t + 8 * PX 0 va
        | none => 0)
  | 0, u => rfl
  | l + 1, u => by
    have hentry := entry_px s.mem u (l + 1) va
    rw [walkLoop, below, Radix.node_cons, hentry]
    by_cases hv : loadPte s.mem (u + 8 * PX (l + 1) va) &&& PTE_V ≠ 0
    · -- a valid entry: one level down
      rw [if_pos hv, walkLoop_false va s l, child, if_pos hv, Option.bind_some]
    · rw [if_neg hv, child, if_neg hv, Option.bind_none]
      rfl

/-- Where the page-table pages of `va` are there, `walk` with allocation allocates nothing. -/
theorem walkLoop_of_node (va : BitVec 64) (s : VmState) : ∀ (l : ℕ) (u t : BitVec 64),
    Radix.node child (entry s.mem) u (below va l) = some t →
      walkLoop va true l u s = (s, t + 8 * PX 0 va)
  | 0, u, t, h => by
    rw [below, Radix.node_nil] at h
    rw [← Option.some.inj h]
    rfl
  | l + 1, u, t, h => by
    rw [below, Radix.node_cons, Option.bind_eq_some_iff] at h
    obtain ⟨c, hc, h⟩ := h
    obtain ⟨hv, rfl⟩ := child_eq_some.1 hc
    rw [entry_px] at hv
    rw [walkLoop, if_pos hv]
    rw [entry_px] at h
    exact walkLoop_of_node va s l _ t h

/-- A valid leaf PTE sits in a level-0 page-table page. -/
theorem level0_of_valid {mem : Memory} {root va : BitVec 64}
    (hv : translate mem root va &&& PTE_V ≠ 0) : ∃ t, level0 mem root va = some t := by
  cases hl : level0 mem root va with
  | none =>
    have h0 : translate mem root va = 0 := Radix.lookup_of_node_none hl _
    rw [h0] at hv
    exact absurd rfl hv
  | some t => exact ⟨t, rfl⟩

/-- `walk(pagetable, va, 0)` is the slot of `va` in its level-0 page-table page, or 0 if a
page-table page on the way is missing. -/
theorem walk_false (s : VmState) (root : BitVec 64) {va : BitVec 64} (hva : va < MAXVA) :
    walk s root va false =
      some (s, match level0 s.mem root va with
        | some t => t + 8 * PX 0 va
        | none => 0) := by
  rw [walk, if_neg (BitVec.not_le.2 hva), walkLoop_false]
  rfl

/-- `walkaddr` reads the leaf PTE of `va`. -/
theorem walkaddr_eq {s : VmState} {root : BitVec 64} (hpt : PageTable s.mem root) (va : BitVec 64) :
    walkaddr s root va =
      if va ≥ MAXVA then 0
      else if translate s.mem root va &&& PTE_V = 0 then 0
      else if translate s.mem root va &&& PTE_U = 0 then 0
      else PTE2PA (translate s.mem root va) := by
  by_cases hva : va ≥ MAXVA
  · rw [walkaddr, if_pos hva, if_pos hva]
  rw [walkaddr, if_neg hva, if_neg hva, walkLoop_false]
  have hnode : Radix.node child (entry s.mem) root (below va 2) = level0 s.mem root va := rfl
  rw [hnode]
  cases hl : level0 s.mem root va with
  | none =>
    -- no level-0 page: `walk` returns 0, and the leaf PTE reads as 0
    have htr : translate s.mem root va = 0 := Radix.lookup_of_node_none hl _
    dsimp only
    rw [if_pos rfl, htr, if_pos (by decide : (0 : BitVec 64) &&& PTE_V = 0)]
  | some t =>
    have htr : translate s.mem root va = loadPte s.mem (t + 8 * PX 0 va) := by
      rw [translate, Radix.lookup_of_node hl, entry_px]
    have hne : t + 8 * PX 0 va ≠ 0 := by
      rw [← ofNat_px]
      exact hpt.slot_ne_zero (table_of_node (by simp) hl) _
    dsimp only
    rw [if_neg hne, htr]

/-! ## `walk` with allocation -/

theorem kalloc_nil {s : VmState} (h : s.free = []) : kalloc s = (s, 0) := by
  rw [kalloc, h]

theorem kalloc_cons {s : VmState} {r : BitVec 64} {rest : List (BitVec 64)} (h : s.free = r :: rest) :
    kalloc s = (⟨memset s.mem r 5 PGSIZE, rest⟩, r) := by
  rw [kalloc, h]

/-- `walk` links the first free page `r` below the invalid entry `i` of the page-table page `u`,
which `p₀` reaches: `r` becomes the page-table page of `p₀ ++ [i]`, the rest of the free list
stays fresh, and no translation changes. -/
theorem Wf.link {s : VmState} {root : BitVec 64} (hwf : Wf s root) {p₀ : List (Fin 512)}
    {u : BitVec 64} (hu : Radix.node child (entry s.mem) root p₀ = some u) (hp₀ : p₀.length < 2)
    {i : Fin 512} (hi : entry s.mem u i &&& PTE_V = 0) (hlow : p₀ = [] → i.val < 256) {r : BitVec 64}
    {rest : List (BitVec 64)} (hfree : s.free = r :: rest) (c : UInt8) :
    let s' : VmState := ⟨storePte (memset (memset s.mem r c PGSIZE) r 0 PGSIZE)
      (u + 8 * BitVec.ofNat 64 i) (PA2PTE r ||| PTE_V), rest⟩
    Wf s' root ∧ Radix.node child (entry s'.mem) root (p₀ ++ [i]) = some r ∧
      (∀ va, translate s'.mem root va = translate s.mem root va) ∧
      (∀ t, Table s'.mem root t ↔ Table s.mem root t ∨ t = r) := by
  intro s'
  have hut : Table s.mem root u := table_of_node (by omega) hu
  have hua : Aligned u := hwf.aligned_of_table hut
  have hrmem : r ∈ s.free := hfree ▸ List.mem_cons_self
  have hr : r ≠ 0 ∧ Aligned r := hwf.free_page r hrmem
  have hrfresh : ¬ Table s.mem root r := hwf.fresh r hrmem
  have hur : u ≠ r := fun (e : u = r) => hrfresh (e ▸ hut)
  have hentry : ∀ t j, Aligned t → entry s'.mem t j =
      if t = u ∧ j = i then PA2PTE r ||| PTE_V else if t = r then 0 else entry s.mem t j :=
    fun t j ht => entry_link hua hr.2 ht i j _ c
  -- what `Radix.Tree.node_graft` asks of the store
  have hzero : child 0 = none := child_eq_none.2 (by decide)
  have hi' : child (entry s.mem u i) = none := child_eq_none.2 hi
  have hlink : child (entry s'.mem u i) = some r := by
    rw [hentry u i hua, if_pos ⟨rfl, rfl⟩]
    exact child_link hr.2
  have hrow : ∀ j, j ≠ i → entry s'.mem u j = entry s.mem u j := fun j hj => by
    rw [hentry u j hua, if_neg fun h => hj h.2, if_neg hur]
  have hempty : ∀ j, entry s'.mem r j = 0 := fun j => by
    rw [hentry r j hr.2, if_neg fun h => hur h.1.symm, if_pos rfl]
  have hother : ∀ p v, p.length ≤ 2 → Radix.node child (entry s.mem) root p = some v → v ≠ u →
      entry s'.mem v = entry s.mem v := by
    intro p v hp hv hvu
    have hvt : Table s.mem root v := table_of_node hp hv
    funext j
    rw [hentry v j (hwf.aligned_of_table hvt), if_neg fun h => hvu h.1,
      if_neg fun (e : v = r) => hrfresh (e ▸ hvt)]
  have hnode := hwf.tree.node_graft hzero hu hp₀ hi' hlink hrow hempty hother
  have hmem := hwf.tree.mem_graft hzero hu hp₀ hi' hlink hrow hempty hother
  refine ⟨?_, ?_, fun va => hwf.tree.lookup_graft hzero hu hp₀ hi' hlink hrow hempty hother
    (by simp) _, hmem⟩
  · -- `r` leaves the free list for the tree
    have hnd := hwf.nodup
    rw [hfree, List.nodup_cons] at hnd
    have hlinks : Links s'.mem root := by
      refine hwf.tree.inner_graft hzero hu hp₀ hi' hlink hrow hempty hother ?_ ?_ hwf.links
      · rw [hentry u i hua, if_pos ⟨rfl, rfl⟩]
        exact fun _ => PA2PTE_or_PTE_V_and_RWX r
      · exact fun h => absurd rfl h
    -- the link is below `MAXVA`: not one of the root's entries from 256 on
    have hhigh : ∀ j : Fin 512, 256 ≤ j.val → entry s'.mem root j &&& PTE_V = 0 := by
      intro j hj
      have hroot : Table s.mem root root := ⟨[], Nat.zero_le _, rfl⟩
      rw [hentry root j hwf.aligned, if_neg fun (e : root = r) => hrfresh (e ▸ hroot)]
      split_ifs with hui
      · obtain ⟨hru, rfl⟩ := hui
        have := hlow (hwf.tree p₀ [] root (by omega) (Nat.zero_le _)
          (hu.trans (congrArg some hru.symm)) rfl)
        omega
      · exact hwf.high j hj
    refine ⟨⟨hwf.aligned, hwf.tree.graft hzero hu hp₀ hi' hlink hrow hempty hother hrfresh, ?_⟩,
      hlinks, hhigh, hnd.2, fun a ha => hwf.free_page a (hfree ▸ List.mem_cons_of_mem _ ha), ?_⟩
    · intro t ht
      rcases (hmem t).1 ht with ht | rfl
      · exact hwf.ne_zero t ht
      · exact hr.1
    · intro a ha hat
      rcases (hmem a).1 hat with hat | rfl
      · exact hwf.fresh a (hfree ▸ List.mem_cons_of_mem _ ha) hat
      · exact hnd.1 ha
  · rw [hnode _ (by simp; omega), if_pos rfl]

/-- What `walk(pagetable, va, 1)` does when it goes from `s` to `s'` and returns `r`, with `p`
the path of `va` to its level-0 page-table page: the invariant holds, no translation changes,
the pages it takes from the front of the free list become page-table pages, and it returns the
slot of `va`, or 0 with the free list empty. -/
structure Walked (root va : BitVec 64) (p : List (Fin 512)) (s s' : VmState) (r : BitVec 64) :
    Prop where
  wf : Wf s' root
  translate_eq : ∀ va', translate s'.mem root va' = translate s.mem root va'
  taken : ∃ taken, s.free = taken ++ s'.free ∧
    ∀ t, Table s'.mem root t ↔ Table s.mem root t ∨ t ∈ taken
  result : r = 0 ∧ s'.free = [] ∨
    ∃ t, Radix.node child (entry s'.mem) root p = some t ∧ r = t + 8 * PX 0 va

theorem Walked.refl {root va : BitVec 64} {p : List (Fin 512)} {s : VmState} {r : BitVec 64}
    (hwf : Wf s root)
    (hr : r = 0 ∧ s.free = [] ∨ ∃ t, Radix.node child (entry s.mem) root p = some t ∧ r = t + 8 * PX 0 va) :
    Walked root va p s s r :=
  ⟨hwf, fun _ => rfl, ⟨[], rfl, fun t => by simp⟩, hr⟩

/-- Below `MAXVA` the root's index is below 256: the link `walk` makes from the root is one. -/
theorem px_lt_256 {va : BitVec 64} (hva : va.toNat < 2 ^ 38) {p₀ : List (Fin 512)} {l : ℕ}
    (hlen : p₀.length + (l + 1) = 2) : p₀ = [] → (px (l + 1) va).val < 256 := by
  rintro rfl
  obtain rfl : l = 1 := by simpa using hlen
  rw [px_val]
  omega

/-- The loop of `walk` with allocation, from the page-table page `u` that `p₀` reaches, by
induction on the levels left. -/
theorem walkLoop_true {root : BitVec 64} {va : BitVec 64} (hva : va.toNat < 2 ^ 38) (l : ℕ) :
    ∀ (s : VmState) (p₀ : List (Fin 512)) (u : BitVec 64), Wf s root →
    Radix.node child (entry s.mem) root p₀ = some u → p₀.length + l = 2 →
    Walked root va (p₀ ++ below va l) s (walkLoop va true l u s).1 (walkLoop va true l u s).2 := by
  induction l with
  | zero =>
    intro s p₀ u hwf hu _
    exact Walked.refl hwf (.inr ⟨u, by rw [below, List.append_nil, hu], rfl⟩)
  | succ l ih =>
    intro s p₀ u hwf hu hlen
    have hentry := entry_px s.mem u (l + 1) va
    have hpath : p₀ ++ below va (l + 1) = (p₀ ++ [px (l + 1) va]) ++ below va l := by
      rw [below, List.append_assoc, List.singleton_append]
    rw [walkLoop, hpath]
    by_cases hv : loadPte s.mem (u + 8 * PX (l + 1) va) &&& PTE_V ≠ 0
    · -- a valid entry: one level down
      rw [if_pos hv]
      have hnode : Radix.node child (entry s.mem) root (p₀ ++ [px (l + 1) va]) =
          some (PTE2PA (loadPte s.mem (u + 8 * PX (l + 1) va))) := by
        rw [Radix.node_concat, hu, Option.bind_some, hentry, child, if_pos hv]
      exact ih s _ _ hwf hnode (by simp; omega)
    · rw [if_neg hv, if_neg (by decide)]
      cases hfree : s.free with
      | nil =>
        -- `kalloc` fails
        rw [kalloc_nil hfree]
        exact Walked.refl hwf (.inl ⟨rfl, hfree⟩)
      | cons r rest =>
        -- `kalloc` returns `r`, which `walk` zeroes and links
        have hr : r ≠ 0 := (hwf.free_page r (by rw [hfree]; exact List.mem_cons_self)).1
        rw [kalloc_cons hfree]
        dsimp only
        rw [if_neg hr]
        have hi : entry s.mem u (px (l + 1) va) &&& PTE_V = 0 := by
          rw [hentry]
          exact not_not.1 hv
        obtain ⟨hwf', hnode', htr', htab'⟩ := hwf.link hu (by omega) hi (px_lt_256 hva hlen) hfree 5
        rw [ofNat_px] at hwf' hnode' htr' htab'
        have hnext := ih _ _ _ hwf' hnode' (by simp; omega)
        obtain ⟨taken, hfree', htab⟩ := hnext.taken
        refine ⟨hnext.wf, fun va' => (hnext.translate_eq va').trans (htr' va'),
          ⟨r :: taken, by rw [hfree]; exact congrArg (List.cons r) hfree', fun t => ?_⟩,
          hnext.result⟩
        rw [htab, htab', List.mem_cons, or_assoc]

/-- `walk(pagetable, va, 1)` in a well-formed page table. -/
theorem walk_true {s s' : VmState} {root va r : BitVec 64} (hwf : Wf s root)
    (hw : walk s root va true = some (s', r)) : Walked root va [px 2 va, px 1 va] s s' r := by
  have hva := lt_MAXVA_of_walk hw
  unfold walk at hw
  split_ifs at hw
  have hloop := walkLoop_true hva 2 s [] root hwf rfl rfl
  rw [Option.some.inj hw] at hloop
  exact hloop

/-- The loop of `walk` with allocation, from the page-table page `u` that `p₀` reaches, with a
free page for each level left: `kalloc` does not run out, and the loop returns a slot. -/
theorem walkLoop_true_ne_zero {root : BitVec 64} {va : BitVec 64} (hva : va.toNat < 2 ^ 38) (l : ℕ) :
    ∀ (s : VmState) (p₀ : List (Fin 512)) (u : BitVec 64), Wf s root →
    Radix.node child (entry s.mem) root p₀ = some u → p₀.length + l = 2 → l ≤ s.free.length →
    (walkLoop va true l u s).2 ≠ 0 := by
  induction l with
  | zero =>
    -- level 0: the slot of `va` in `u`
    intro s p₀ u hwf hu _ _
    rw [walkLoop, ← ofNat_px]
    exact hwf.slot_ne_zero (table_of_node (by omega) hu) _
  | succ l ih =>
    intro s p₀ u hwf hu hlen hroom
    rw [walkLoop]
    by_cases hv : loadPte s.mem (u + 8 * PX (l + 1) va) &&& PTE_V ≠ 0
    · -- a valid entry: one level down
      rw [if_pos hv]
      have hnode : Radix.node child (entry s.mem) root (p₀ ++ [px (l + 1) va]) =
          some (PTE2PA (loadPte s.mem (u + 8 * PX (l + 1) va))) := by
        rw [Radix.node_concat, hu, Option.bind_some, entry_px, child, if_pos hv]
      exact ih s _ _ hwf hnode (by simp; omega) (by omega)
    · -- an invalid entry: `kalloc` has a page to give, which `walk` links
      rw [if_neg hv, if_neg (by decide)]
      obtain ⟨r, rest, hfree⟩ : ∃ r rest, s.free = r :: rest := by
        cases h : s.free with
        | nil =>
          rw [h] at hroom
          simp at hroom
        | cons r rest => exact ⟨r, rest, rfl⟩
      have hr : r ≠ 0 := (hwf.free_page r (by rw [hfree]; exact List.mem_cons_self)).1
      rw [kalloc_cons hfree]
      dsimp only
      rw [if_neg hr]
      have hi : entry s.mem u (px (l + 1) va) &&& PTE_V = 0 := by
        rw [entry_px]
        exact not_not.1 hv
      obtain ⟨hwf', hnode', -, -⟩ := hwf.link hu (by omega) hi (px_lt_256 hva hlen) hfree 5
      rw [ofNat_px] at hwf' hnode'
      rw [hfree, List.length_cons] at hroom
      exact ih _ _ _ hwf' hnode' (by simp; omega) (by dsimp only; omega)

/-! ## Writing a leaf PTE -/

/-- A store into the slot of `va` in its level-0 page-table page changes the translation of
the page of `va` and of no other page. -/
theorem Wf.store {s : VmState} {root va t : BitVec 64} (hwf : Wf s root)
    (ht : level0 s.mem root va = some t) (v : BitVec 64) :
    let s' : VmState := ⟨storePte s.mem (t + 8 * PX 0 va) v, s.free⟩
    Wf s' root ∧ (∀ t', Table s'.mem root t' ↔ Table s.mem root t') ∧
      ∀ va', translate s'.mem root va' =
        if px 2 va' = px 2 va ∧ px 1 va' = px 1 va ∧ px 0 va' = px 0 va then v
        else translate s.mem root va' := by
  intro s'
  have htt : Table s.mem root t := table_of_node (by simp) ht
  have hta : Aligned t := hwf.aligned_of_table htt
  have hentry : ∀ t' j, Aligned t' →
      entry s'.mem t' j = if t' = t ∧ j = px 0 va then v else entry s.mem t' j := by
    intro t' j ht'
    show entry (storePte s.mem (t + 8 * PX 0 va) v) t' j = _
    rw [← ofNat_px]
    exact entry_storePte hta ht' _ v j
  have hother : ∀ p w, p.length ≤ 2 → Radix.node child (entry s.mem) root p = some w → w ≠ t →
      entry s'.mem w = entry s.mem w := by
    intro p w hp hw hwt
    funext j
    rw [hentry w j (hwf.aligned_of_table (table_of_node hp hw)), if_neg fun h => hwt h.1]
  have hrow : ∀ j, j ≠ px 0 va → entry s'.mem t j = entry s.mem t j := fun j hj => by
    rw [hentry t j hta, if_neg fun h => hj h.2]
  have hsame : ∀ p, p.length ≤ 2 →
      Radix.node child (entry s'.mem) root p = Radix.node child (entry s.mem) root p :=
    hwf.tree.node_set ht (by simp) hother
  have htable : ∀ t', Table s'.mem root t' ↔ Table s.mem root t' := fun t' =>
    ⟨fun ⟨p, hp, h⟩ => ⟨p, hp, (hsame p hp).symm.trans h⟩,
      fun ⟨p, hp, h⟩ => ⟨p, hp, (hsame p hp).trans h⟩⟩
  -- the level-0 page written is not the root
  have hroot : entry s'.mem root = entry s.mem root :=
    hother [] root (Nat.zero_le _) rfl (hwf.tree.ne_leaf ht (by simp)
      (show Radix.node child (entry s.mem) root [] = some root from rfl) (by simp))
  refine ⟨⟨⟨hwf.aligned, hwf.tree.tree_set ht (by simp) hother,
    fun t' ht' => hwf.ne_zero t' ((htable t').1 ht')⟩, hwf.tree.inner_set ht (by simp) hother hwf.links,
    fun i hi => by rw [hroot]; exact hwf.high i hi, hwf.nodup, hwf.free_page,
    fun a ha hat => hwf.fresh a ha ((htable a).1 hat)⟩, htable, fun va' => ?_⟩
  rw [translate, hwf.tree.lookup_set ht (by simp) hother hrow (by simp), hentry t (px 0 va) hta,
    if_pos (⟨rfl, rfl⟩ : t = t ∧ px 0 va = px 0 va)]
  simp only [List.cons.injEq, and_true, and_assoc]
  rfl

/-- The slot that `walk` returns holds the leaf PTE of `va`. -/
theorem loadPte_slot {mem : Memory} {root va t : BitVec 64} (ht : level0 mem root va = some t) :
    loadPte mem (t + 8 * PX 0 va) = translate mem root va := by
  rw [translate, Radix.lookup_of_node ht, entry_px]

/-- A page starts at the rounded-down address of each of its bytes. -/
theorem PGROUNDDOWN_eq {a va : BitVec 64} (ha : Aligned a) (h : va.toNat / PGSIZE = a.toNat / PGSIZE) :
    PGROUNDDOWN va = a := by
  apply BitVec.eq_of_toNat_eq
  rw [toNat_PGROUNDDOWN]
  unfold Aligned PGSIZE at *
  omega

theorem toNat_add_PGSIZE {a : BitVec 64} (ha : a.toNat < 2 ^ 38) :
    (a + (PGSIZE : BitVec 64)).toNat = a.toNat + PGSIZE := by
  rw [BitVec.toNat_add, show (PGSIZE : BitVec 64).toNat = PGSIZE from rfl]
  unfold PGSIZE
  omega

/-- A byte of the page of `a` lies below the next page. -/
theorem lt_next_of_page {a va : BitVec 64} (ha38 : a.toNat < 2 ^ 38)
    (hpage : va.toNat / PGSIZE = a.toNat / PGSIZE) : va.toNat < (a + (PGSIZE : BitVec 64)).toNat := by
  rw [toNat_add_PGSIZE ha38]
  unfold PGSIZE at *
  omega

/-- A byte from the page `a` on that is not in it lies from the next page on. -/
theorem next_le_of_page_ne {a va : BitVec 64} (ha : Aligned a) (ha38 : a.toNat < 2 ^ 38)
    (h : a.toNat ≤ va.toNat) (hpage : va.toNat / PGSIZE ≠ a.toNat / PGSIZE) :
    (a + (PGSIZE : BitVec 64)).toNat ≤ va.toNat := by
  rw [toNat_add_PGSIZE ha38]
  unfold Aligned PGSIZE at *
  omega

theorem aligned_add_PGSIZE {a : BitVec 64} (ha : Aligned a) (ha38 : a.toNat < 2 ^ 38) :
    Aligned (a + (PGSIZE : BitVec 64)) := by
  unfold Aligned at ha ⊢
  rw [toNat_add_PGSIZE ha38]
  unfold PGSIZE at ha ⊢
  omega

theorem aligned_PGROUNDDOWN (va : BitVec 64) : Aligned (PGROUNDDOWN va) := by
  unfold Aligned PGSIZE
  rw [toNat_PGROUNDDOWN]
  exact Nat.mul_mod_left _ _

/-- The check `va % PGSIZE == 0` of the C code. -/
theorem aligned_of_umod {a : BitVec 64} (h : a % (PGSIZE : BitVec 64) = 0) : Aligned a := by
  have := congrArg BitVec.toNat h
  rwa [BitVec.toNat_umod, show (PGSIZE : BitVec 64).toNat = PGSIZE from rfl,
    show (0 : BitVec 64).toNat = 0 from rfl] at this

theorem umod_of_aligned {a : BitVec 64} (h : Aligned a) : a % (PGSIZE : BitVec 64) = 0 := by
  apply BitVec.eq_of_toNat_eq
  rw [BitVec.toNat_umod]
  exact h

/-! ## What is written -/

/-- Every byte outside the pages `P` is as it was: what a function may write, by page. -/
def PageFrame (mem mem' : Memory) (P : BitVec 64 → Prop) : Prop :=
  ∀ b, ¬ P (PGROUNDDOWN b) → mem' b = mem b

theorem PageFrame.refl (mem : Memory) (P : BitVec 64 → Prop) : PageFrame mem mem P :=
  fun _ _ => rfl

theorem PageFrame.mono {mem mem' : Memory} {P Q : BitVec 64 → Prop} (h : PageFrame mem mem' P)
    (hPQ : ∀ p, P p → Q p) : PageFrame mem mem' Q :=
  fun b hb => h b (mt (hPQ _) hb)

theorem PageFrame.trans {mem mem₁ mem₂ : Memory} {P Q : BitVec 64 → Prop}
    (h₁ : PageFrame mem mem₁ P) (h₂ : PageFrame mem₁ mem₂ Q) :
    PageFrame mem mem₂ fun p => P p ∨ Q p :=
  fun b hb => (h₂ b fun h => hb (.inr h)).trans (h₁ b fun h => hb (.inl h))

/-- A change that writes no page-table page keeps every entry. -/
theorem PageFrame.agree {mem mem' : Memory} {root : BitVec 64} {P : BitVec 64 → Prop}
    (hpt : PageTable mem root) (h : PageFrame mem mem' P) (hP : ∀ t, Table mem root t → ¬ P t) :
    Agree mem mem' root :=
  agree_of_outside hpt fun b t ht h₁ h₂ => by
    have hta := hpt.aligned_of_table ht
    refine h b ?_
    rw [PGROUNDDOWN_eq hta (by unfold Aligned PGSIZE at *; omega)]
    exact hP t ht

/-- `memset` of a page writes that page. -/
theorem pageFrame_memset {mem : Memory} {r : BitVec 64} (hr : Aligned r) (c : UInt8) :
    PageFrame mem (memset mem r c PGSIZE) (· = r) := by
  intro b hb
  rw [memset_page hr, if_neg]
  intro h
  exact hb (PGROUNDDOWN_eq hr (by unfold Aligned PGSIZE at *; omega))

/-- A store into an entry of a page-table page writes that page. -/
theorem pageFrame_storePte {mem : Memory} {u : BitVec 64} (hu : Aligned u) (i : Fin 512)
    (v : BitVec 64) : PageFrame mem (storePte mem (u + 8 * BitVec.ofNat 64 i) v) (· = u) := by
  intro b hb
  have hslot := toNat_slot hu i
  have hi := i.isLt
  have hne : b.toNat / PGSIZE ≠ u.toNat / PGSIZE := fun h => hb (PGROUNDDOWN_eq hu h)
  rw [storePte, LittleEndian.set_apply_of_not_mem (by unfold Aligned PGSIZE at *; omega), view,
    BitVec.ofNat_toNat, BitVec.setWidth_eq]

/-- The loop of `walk` with allocation writes only page-table pages and free pages. -/
theorem walkLoop_true_frame {root : BitVec 64} {va : BitVec 64} (hva : va.toNat < 2 ^ 38) (l : ℕ) :
    ∀ (s : VmState) (p₀ : List (Fin 512)) (u : BitVec 64), Wf s root →
    Radix.node child (entry s.mem) root p₀ = some u → p₀.length + l = 2 →
    PageFrame s.mem (walkLoop va true l u s).1.mem fun p => Table s.mem root p ∨ p ∈ s.free := by
  induction l with
  | zero => exact fun s _ _ _ _ _ => PageFrame.refl _ _
  | succ l ih =>
    intro s p₀ u hwf hu hlen
    have hentry := entry_px s.mem u (l + 1) va
    rw [walkLoop]
    by_cases hv : loadPte s.mem (u + 8 * PX (l + 1) va) &&& PTE_V ≠ 0
    · rw [if_pos hv]
      have hnode : Radix.node child (entry s.mem) root (p₀ ++ [px (l + 1) va]) =
          some (PTE2PA (loadPte s.mem (u + 8 * PX (l + 1) va))) := by
        rw [Radix.node_concat, hu, Option.bind_some, hentry, child, if_pos hv]
      exact ih s _ _ hwf hnode (by simp; omega)
    rw [if_neg hv, if_neg (by decide)]
    cases hfree : s.free with
    | nil =>
      rw [kalloc_nil hfree]
      exact PageFrame.refl _ _
    | cons r rest =>
      have hr := hwf.free_page r (by rw [hfree]; exact List.mem_cons_self)
      have hut : Table s.mem root u := table_of_node (by omega) hu
      rw [kalloc_cons hfree]
      dsimp only
      rw [if_neg hr.1]
      have hi : entry s.mem u (px (l + 1) va) &&& PTE_V = 0 := by
        rw [hentry]
        exact not_not.1 hv
      obtain ⟨hwf', hnode', -, htab'⟩ := hwf.link hu (by omega) hi (px_lt_256 hva hlen) hfree 5
      rw [ofNat_px] at hwf' hnode' htab'
      -- the link writes the fresh page and the entry in `u`; the rest of the walk goes on below
      have hstore : PageFrame (memset (memset s.mem r 5 PGSIZE) r 0 PGSIZE)
          (storePte (memset (memset s.mem r 5 PGSIZE) r 0 PGSIZE) (u + 8 * PX (l + 1) va)
            (PA2PTE r ||| PTE_V)) (· = u) := by
        rw [← ofNat_px]
        exact pageFrame_storePte (hwf.aligned_of_table hut) _ _
      have hlink := ((pageFrame_memset hr.2 5 : PageFrame s.mem _ _).trans
        (pageFrame_memset hr.2 0)).trans hstore
      refine (hlink.trans (ih _ _ _ hwf' hnode' (by simp; omega))).mono fun p hp => ?_
      rcases hp with ((rfl | rfl) | rfl) | ht | hf
      · exact .inr List.mem_cons_self
      · exact .inr List.mem_cons_self
      · exact .inl hut
      · rcases (htab' p).1 ht with ht | rfl
        exacts [.inl ht, .inr List.mem_cons_self]
      · exact .inr (List.mem_cons_of_mem _ hf)

/-- `walk(pagetable, va, 1)` writes only page-table pages and free pages. -/
theorem walk_true_frame {s s' : VmState} {root va r : BitVec 64} (hwf : Wf s root)
    (hw : walk s root va true = some (s', r)) :
    PageFrame s.mem s'.mem fun p => Table s.mem root p ∨ p ∈ s.free := by
  have hva := lt_MAXVA_of_walk hw
  unfold walk at hw
  split_ifs at hw
  have hloop := walkLoop_true_frame hva 2 s [] root hwf rfl rfl
  rw [Option.some.inj hw] at hloop
  exact hloop

/-! ## `mappages` -/

/-- One round of the loop of `mappages`: `walk` finds or makes the slot of `a`, whose page was
not mapped, and the PTE `v` goes there, which changes the translation of the page of `a` and of
no other page. -/
theorem mappages_round {s s₁ : VmState} {root a r : BitVec 64} (hwf : Wf s root)
    (hw : walk s root a true = some (s₁, r)) (hr : r ≠ 0) (hv : ¬loadPte s₁.mem r &&& PTE_V ≠ 0)
    (v : BitVec 64) :
    Wf ⟨storePte s₁.mem r v, s₁.free⟩ root ∧ translate s.mem root a &&& PTE_V = 0 ∧
      ∀ va', va'.toNat < 2 ^ 38 → translate (storePte s₁.mem r v) root va' =
        if va'.toNat / PGSIZE = a.toNat / PGSIZE then v else translate s.mem root va' := by
  have ha := lt_MAXVA_of_walk hw
  have hwalk := walk_true hwf hw
  obtain ⟨h0, -⟩ | ⟨t, ht, rfl⟩ := hwalk.result
  · exact absurd h0 hr
  have hslot : translate s.mem root a = loadPte s₁.mem (t + 8 * PX 0 a) := by
    rw [loadPte_slot ht, hwalk.translate_eq]
  obtain ⟨hwf', -, htr⟩ := hwalk.wf.store ht v
  refine ⟨hwf', by rw [hslot]; exact not_not.1 hv, fun va' hva' => ?_⟩
  rw [htr va', hwalk.translate_eq]
  -- the three indices of a page below `MAXVA` are its number
  exact if_congr (px_eq_iff (by omega) (by omega)) rfl rfl

/-- What `mappages` does to the pages from `a` through the page of `last`, when it returns 0:
each was unmapped before and now holds the PTE of its own physical page, counted from `pa`, and
every other page below `MAXVA` translates as before. -/
structure Mapped (mem mem' : Memory) (root a last pa : BitVec 64) (perm : BitVec 32) : Prop where
  fresh : ∀ va', va'.toNat < 2 ^ 38 → a.toNat ≤ va'.toNat → va'.toNat / PGSIZE ≤ last.toNat / PGSIZE →
    translate mem root va' &&& PTE_V = 0
  pte : ∀ va', va'.toNat < 2 ^ 38 → a.toNat ≤ va'.toNat → va'.toNat / PGSIZE ≤ last.toNat / PGSIZE →
    translate mem' root va' = PA2PTE (pa + (PGROUNDDOWN va' - a)) ||| perm.signExtend 64 ||| PTE_V
  frame : ∀ va', va'.toNat < 2 ^ 38 → va'.toNat < a.toNat ∨ last.toNat / PGSIZE < va'.toNat / PGSIZE →
    translate mem' root va' = translate mem root va'

section Mapped

variable {mem mem₁ mem' : Memory} {root a last pa : BitVec 64} {perm : BitVec 32}

/-- The last round maps the single page `a`. -/
theorem Mapped.single (ha : Aligned a) (hbefore : translate mem root a &&& PTE_V = 0)
    (htr : ∀ va', va'.toNat < 2 ^ 38 → translate mem' root va' =
      if va'.toNat / PGSIZE = a.toNat / PGSIZE then
        PA2PTE pa ||| perm.signExtend 64 ||| PTE_V
      else translate mem root va') :
    Mapped mem mem' root a a pa perm := by
  have ha' : a.toNat % 4096 = 0 := ha
  have hP : PGSIZE = 4096 := rfl
  refine ⟨fun va' _ h₁ h₂ => ?_, fun va' hva' h₁ h₂ => ?_, fun va' hva' hout => ?_⟩
  · -- the only page of the range is the page of `a`
    have hpage : va'.toNat / PGSIZE = a.toNat / PGSIZE := by
      rw [hP] at h₂ ⊢
      omega
    rwa [translate_eq_of_div hpage]
  · have hpage : va'.toNat / PGSIZE = a.toNat / PGSIZE := by
      rw [hP] at h₂ ⊢
      omega
    rw [htr va' hva', if_pos hpage, PGROUNDDOWN_eq ha hpage, BitVec.sub_self, BitVec.add_zero]
  · have hpage : va'.toNat / PGSIZE ≠ a.toNat / PGSIZE := by
      rw [hP] at hout ⊢
      omega
    rw [htr va' hva', if_neg hpage]

/-- A round that maps the page `a` in front of a range mapped from the next page on. -/
theorem Mapped.cons (ha : Aligned a) (ha38 : a.toNat < 2 ^ 38) (hlast : a.toNat < last.toNat)
    (hbefore : translate mem root a &&& PTE_V = 0)
    (htr : ∀ va', va'.toNat < 2 ^ 38 → translate mem₁ root va' =
      if va'.toNat / PGSIZE = a.toNat / PGSIZE then
        PA2PTE pa ||| perm.signExtend 64 ||| PTE_V
      else translate mem root va')
    (hrest : Mapped mem₁ mem' root (a + (PGSIZE : BitVec 64)) last (pa + (PGSIZE : BitVec 64)) perm) :
    Mapped mem mem' root a last pa perm := by
  refine ⟨fun va' hva' h₁ h₂ => ?_, fun va' hva' h₁ h₂ => ?_, fun va' hva' hout => ?_⟩
  · by_cases hpage : va'.toNat / PGSIZE = a.toNat / PGSIZE
    · rw [translate_eq_of_div hpage]
      exact hbefore
    · -- a later page: `mem₁` still holds what `mem` held there
      rw [← (htr va' hva').trans (if_neg hpage)]
      exact hrest.fresh va' hva' (next_le_of_page_ne ha ha38 h₁ hpage) h₂
  · by_cases hpage : va'.toNat / PGSIZE = a.toNat / PGSIZE
    · -- the page of this round, below the rest of the range
      rw [hrest.frame va' hva' (Or.inl (lt_next_of_page ha38 hpage)), htr va' hva', if_pos hpage,
        PGROUNDDOWN_eq ha hpage, BitVec.sub_self, BitVec.add_zero]
    · rw [hrest.pte va' hva' (next_le_of_page_ne ha ha38 h₁ hpage) h₂, show pa + (PGSIZE : BitVec 64) +
        (PGROUNDDOWN va' - (a + (PGSIZE : BitVec 64))) = pa + (PGROUNDDOWN va' - a) by bv_omega]
  · have hpage : va'.toNat / PGSIZE ≠ a.toNat / PGSIZE := by
      have ha' : a.toNat % 4096 = 0 := ha
      have hP : PGSIZE = 4096 := rfl
      rw [hP] at hout ⊢
      omega
    have hout' : va'.toNat < (a + (PGSIZE : BitVec 64)).toNat ∨
        last.toNat / PGSIZE < va'.toNat / PGSIZE := by
      rw [toNat_add_PGSIZE ha38]
      exact hout.imp_left fun h => Nat.lt_add_right PGSIZE h
    rw [hrest.frame va' hva' hout', htr va' hva', if_neg hpage]

end Mapped

/-- The loop of `mappages` from the page `a` through the page `last`: when it returns 0, it
reached `last` from `a` below `MAXVA` and mapped the range. -/
theorem mappagesLoop_spec {root last : BitVec 64} {perm : BitVec 32} (a : BitVec 64) :
    ∀ (pa : BitVec 64) (s s' : VmState), Wf s root → Aligned a →
      mappagesLoop root last perm a pa s = some (s', 0) →
      Wf s' root ∧ a.toNat ≤ last.toNat ∧ last.toNat < 2 ^ 38 ∧
        Mapped s.mem s'.mem root a last pa perm := by
  -- induction on the distance to `MAXVA`, which each round shortens by a page
  induction hn : 2 ^ 38 - a.toNat using Nat.strongRecOn generalizing a with
  | _ n ih =>
  intro pa s s' hwf ha hres
  rw [mappagesLoop] at hres
  split at hres
  · cases hres
  · rename_i s₁ r hw
    have ha38 := lt_MAXVA_of_walk hw
    split_ifs at hres with h0 hv hlast
    · -- `walk` could not allocate: `mappages` returns -1
      exact absurd (congrArg Prod.snd (Option.some.inj hres)) (show ¬((-1 : ℤ) = 0) by decide)
    · -- the last page
      obtain ⟨hwf', hbefore, htr⟩ :=
        mappages_round hwf hw h0 hv (PA2PTE pa ||| perm.signExtend 64 ||| PTE_V)
      cases congrArg Prod.fst (Option.some.inj hres)
      subst hlast
      exact ⟨hwf', Nat.le_refl _, ha38, Mapped.single ha hbefore htr⟩
    · -- the next page, `PGSIZE` further
      obtain ⟨hwf', hbefore, htr⟩ :=
        mappages_round hwf hw h0 hv (PA2PTE pa ||| perm.signExtend 64 ||| PTE_V)
      have hnext := toNat_add_PGSIZE ha38
      have hlt : 2 ^ 38 - (a + (PGSIZE : BitVec 64)).toNat < n := by
        rw [hnext]
        unfold PGSIZE
        omega
      obtain ⟨hwf'', hle, hlast38, hrest⟩ :=
        ih _ hlt (a + (PGSIZE : BitVec 64)) rfl _ _ _ hwf' (aligned_add_PGSIZE ha ha38) hres
      have hle' : a.toNat < last.toNat := by
        rw [hnext] at hle
        omega
      exact ⟨hwf'', Nat.le_of_lt hle', hlast38, Mapped.cons ha ha38 hle' hbefore htr hrest⟩

/-- `mappages` returning 0 mapped the pages from `PGROUNDDOWN(va)` through
`PGROUNDDOWN(va + size - 1)`, none of which was mapped before, and kept the page table well
formed. -/
theorem mappages_spec {s s' : VmState} {root va size pa : BitVec 64} {perm : BitVec 32}
    (hwf : Wf s root) (h : mappages s root va size pa perm = some (s', 0)) :
    Wf s' root ∧ Mapped s.mem s'.mem root (PGROUNDDOWN va) (PGROUNDDOWN (va + size - 1)) pa perm := by
  unfold mappages at h
  split_ifs at h with hsize
  obtain ⟨hwf', -, -, hmapped⟩ := mappagesLoop_spec _ pa s s' hwf (aligned_PGROUNDDOWN va) h
  exact ⟨hwf', hmapped⟩

/-! ## `uvmunmap` -/

/-- `kfree` of a page that is neither a page-table page nor free: the page joins the free list,
and every page-table page keeps its entries. -/
theorem Wf.kfree {s s₁ : VmState} {root endk pa : BitVec 64} (hwf : Wf s root) (hendk : endk ≠ 0)
    (hnot : ¬ Table s.mem root pa) (hfree : pa ∉ s.free) (h : kfree endk s pa = some s₁) :
    Wf s₁ root ∧ Agree s.mem s₁.mem root ∧ s₁.free = pa :: s.free := by
  unfold Vm.kfree at h
  split_ifs at h with hchk
  cases h
  obtain ⟨hal, hge, -⟩ := not_or.1 hchk |>.imp_right not_or.1
  -- `kfree`'s own checks: a page, above the kernel and so not 0
  have hpa : Aligned pa := aligned_of_umod (not_not.1 hal)
  have hpa0 : pa ≠ 0 := by bv_omega
  have hag := agree_memset hwf.toPageTable hpa hnot 1
  refine ⟨⟨hag.pageTable hwf.toPageTable, hag.links hwf.links, hag.high hwf.high,
    List.nodup_cons.2 ⟨hfree, hwf.nodup⟩, ?_, ?_⟩, hag, rfl⟩
  · intro a ha
    rcases List.mem_cons.1 ha with rfl | ha
    · exact ⟨hpa0, hpa⟩
    · exact hwf.free_page a ha
  · intro a ha hat
    rw [hag.table] at hat
    rcases List.mem_cons.1 ha with rfl | ha
    · exact hnot hat
    · exact hwf.fresh a ha hat

/-- `kfree` writes the page it frees. -/
theorem kfree_frame {s s₁ : VmState} {endk pa : BitVec 64} (h : kfree endk s pa = some s₁) :
    PageFrame s.mem s₁.mem (· = pa) := by
  unfold Vm.kfree at h
  split_ifs at h with hchk
  cases h
  exact pageFrame_memset (aligned_of_umod (not_not.1 (not_or.1 hchk).1)) 1

/-- One round of the loop of `uvmunmap` at the page `a`, whose level-0 page-table page is `t`:
after `kfree` of the page its PTE names when `do_free` is set, the PTE goes, which changes the
translation of the page of `a` to 0 and of no other page. -/
theorem uvmunmap_round {s s₁ : VmState} {root endk a t : BitVec 64} {do_free : Bool}
    (hwf : Wf s root) (ht : level0 s.mem root a = some t) (ha38 : a.toNat < 2 ^ 38)
    (hfree : do_free = true → endk ≠ 0 ∧ ¬ Table s.mem root (PTE2PA (translate s.mem root a)) ∧
      PTE2PA (translate s.mem root a) ∉ s.free)
    (h : (if do_free then kfree endk s (PTE2PA (loadPte s.mem (t + 8 * PX 0 a))) else some s) =
      some s₁) :
    let s₂ : VmState := ⟨storePte s₁.mem (t + 8 * PX 0 a) 0, s₁.free⟩
    Wf s₂ root ∧ (∀ t', Table s₂.mem root t' ↔ Table s.mem root t') ∧
      (s₁.free = if do_free then PTE2PA (translate s.mem root a) :: s.free else s.free) ∧
      ∀ va, va.toNat < 2 ^ 38 → translate s₂.mem root va =
        if va.toNat / PGSIZE = a.toNat / PGSIZE then 0 else translate s.mem root va := by
  intro s₂
  -- `kfree`, or nothing, leaves every page-table page as it was
  have hfreed : Wf s₁ root ∧ Agree s.mem s₁.mem root ∧
      s₁.free = if do_free then PTE2PA (translate s.mem root a) :: s.free else s.free := by
    cases do_free with
    | false =>
      cases h
      exact ⟨hwf, fun _ _ => rfl, rfl⟩
    | true =>
      obtain ⟨hendk, hnot, hnf⟩ := hfree rfl
      rw [if_pos rfl, loadPte_slot ht] at h
      exact hwf.kfree hendk hnot hnf h
  obtain ⟨hwf₁, hag, hfree₁⟩ := hfreed
  have ht₁ : level0 s₁.mem root a = some t := (hag.node _ (by simp)).trans ht
  obtain ⟨hwf₂, htab, htr⟩ := hwf₁.store ht₁ 0
  refine ⟨hwf₂, fun t' => (htab t').trans (hag.table t'), hfree₁, fun va hva => ?_⟩
  rw [htr va, hag.translate]
  -- the three indices of a page below `MAXVA` are its number
  exact if_congr (px_eq_iff (by omega) (by omega)) rfl rfl

/-- The pages of the loop of `uvmunmap` from the page `a` up to `stop`: below `MAXVA`, from `a`
on, and starting below `stop`. -/
def InRange (a stop va : BitVec 64) : Prop :=
  va.toNat < 2 ^ 38 ∧ a.toNat ≤ va.toNat ∧ (PGROUNDDOWN va).toNat < stop.toNat

/-- The range from the page `a` on is the page of `a` and the range from the next page on. -/
theorem inRange_iff_next {a stop va : BitVec 64} (ha : Aligned a) (ha38 : a.toNat < 2 ^ 38)
    (hlt : a.toNat < stop.toNat) :
    InRange a stop va ↔ va.toNat < 2 ^ 38 ∧ va.toNat / PGSIZE = a.toNat / PGSIZE ∨
      InRange (a + (PGSIZE : BitVec 64)) stop va := by
  unfold InRange
  rw [toNat_add_PGSIZE ha38, toNat_PGROUNDDOWN]
  unfold Aligned PGSIZE at *
  omega

/-- From `stop` on the range is empty. -/
theorem not_inRange {a stop : BitVec 64} (ha : Aligned a) (h : stop.toNat ≤ a.toNat) (va : BitVec 64) :
    ¬ InRange a stop va := by
  unfold InRange
  rw [toNat_PGROUNDDOWN]
  unfold Aligned PGSIZE at ha
  omega

/-- What `kfree` asks of the pages `uvmunmap` frees when `do_free` is set: the leaf PTEs of the
range name distinct pages, none of them a page-table page or on the free list. -/
structure Freeable (s : VmState) (root a stop : BitVec 64) : Prop where
  not_table : ∀ va, InRange a stop va → ¬ Table s.mem root (PTE2PA (translate s.mem root va))
  not_free : ∀ va, InRange a stop va → PTE2PA (translate s.mem root va) ∉ s.free
  injective : ∀ va va', InRange a stop va → InRange a stop va' →
    PTE2PA (translate s.mem root va) = PTE2PA (translate s.mem root va') →
      va.toNat / PGSIZE = va'.toNat / PGSIZE

/-- After the round at `a`, the rest of the range is freeable: its translations and the
page-table pages are as they were, and the one page freed is none of its pages. -/
theorem Freeable.next {s s₂ : VmState} {root a stop : BitVec 64} (hf : Freeable s root a stop)
    (ha : Aligned a) (ha38 : a.toNat < 2 ^ 38) (hlt : a.toNat < stop.toNat)
    (htab : ∀ t', Table s₂.mem root t' ↔ Table s.mem root t')
    (hfree : s₂.free = PTE2PA (translate s.mem root a) :: s.free)
    (htr : ∀ va, InRange (a + (PGSIZE : BitVec 64)) stop va →
      translate s₂.mem root va = translate s.mem root va) :
    Freeable s₂ root (a + (PGSIZE : BitVec 64)) stop := by
  have hin : ∀ va, InRange (a + (PGSIZE : BitVec 64)) stop va → InRange a stop va :=
    fun va h => (inRange_iff_next ha ha38 hlt).2 (Or.inr h)
  have hself : InRange a stop a := (inRange_iff_next ha ha38 hlt).2 (Or.inl ⟨ha38, rfl⟩)
  refine ⟨fun va h => ?_, fun va h => ?_, fun va va' h h' hpa => ?_⟩
  · rw [htab, htr va h]
    exact hf.not_table va (hin va h)
  · rw [hfree, htr va h, List.mem_cons, not_or]
    refine ⟨fun hpa => ?_, hf.not_free va (hin va h)⟩
    -- the page freed in this round is the page of `a`, which is not in the rest of the range
    have hpage := hf.injective va a (hin va h) hself hpa
    exact absurd (lt_next_of_page ha38 hpage) (Nat.not_lt.2 h.2.1)
  · rw [htr va h, htr va' h'] at hpa
    exact hf.injective va va' (hin va h) (hin va' h') hpa

/-- What `uvmunmap` does to the pages from `a` up to `stop`, when it returns: each translates to
0, and every other page below `MAXVA` as before. -/
structure Unmapped (mem mem' : Memory) (root a stop : BitVec 64) : Prop where
  cleared : ∀ va, InRange a stop va → translate mem' root va = 0
  frame : ∀ va, va.toNat < 2 ^ 38 → ¬ InRange a stop va → translate mem' root va = translate mem root va

/-- A round that unmaps the page `a` in front of a range unmapped from the next page on. -/
theorem Unmapped.cons {mem mem₁ mem' : Memory} {root a stop : BitVec 64} (ha : Aligned a)
    (ha38 : a.toNat < 2 ^ 38) (hlt : a.toNat < stop.toNat)
    (htr : ∀ va, va.toNat < 2 ^ 38 → translate mem₁ root va =
      if va.toNat / PGSIZE = a.toNat / PGSIZE then 0 else translate mem root va)
    (hrest : Unmapped mem₁ mem' root (a + (PGSIZE : BitVec 64)) stop) :
    Unmapped mem mem' root a stop := by
  refine ⟨fun va hin => ?_, fun va hva hout => ?_⟩
  · rcases (inRange_iff_next ha ha38 hlt).1 hin with ⟨hva, hpage⟩ | hnext
    · -- the page of this round, below the rest of the range
      have hbelow : ¬ InRange (a + (PGSIZE : BitVec 64)) stop va :=
        fun h => absurd (lt_next_of_page ha38 hpage) (Nat.not_lt.2 h.2.1)
      rw [hrest.frame va hva hbelow, htr va hva, if_pos hpage]
    · exact hrest.cleared va hnext
  · have hout' := mt (inRange_iff_next ha ha38 hlt).2 hout
    rw [not_or] at hout'
    have hpage : va.toNat / PGSIZE ≠ a.toNat / PGSIZE := fun h => hout'.1 ⟨hva, h⟩
    rw [hrest.frame va hva hout'.2, htr va hva, if_neg hpage]

/-- The pages the loop frees from `a` on: the page the PTE of `a` names, then those it frees from
the next page on, which translate as before. -/
theorem mem_freed_cons {mem mem₂ : Memory} {root a stop : BitVec 64} {free₁ free₀ : List (BitVec 64)}
    {do_free : Bool} (ha : Aligned a) (ha38 : a.toNat < 2 ^ 38) (hlt : a.toNat < stop.toNat)
    (hfree₁ : free₁ = if do_free then PTE2PA (translate mem root a) :: free₀ else free₀)
    (hrest : ∀ va, InRange (a + (PGSIZE : BitVec 64)) stop va →
      translate mem₂ root va = translate mem root va) (x : BitVec 64) :
    (x ∈ free₁ ∨ do_free = true ∧
        ∃ va, InRange (a + (PGSIZE : BitVec 64)) stop va ∧ x = PTE2PA (translate mem₂ root va)) ↔
      x ∈ free₀ ∨ do_free = true ∧ ∃ va, InRange a stop va ∧ x = PTE2PA (translate mem root va) := by
  -- a page of the range is the page of `a`, whose PTE is that of `a`, or one of the rest
  have hrange : (∃ va, InRange a stop va ∧ x = PTE2PA (translate mem root va)) ↔
      x = PTE2PA (translate mem root a) ∨
        ∃ va, InRange (a + (PGSIZE : BitVec 64)) stop va ∧ x = PTE2PA (translate mem₂ root va) := by
    constructor
    · rintro ⟨va, hin, rfl⟩
      rcases (inRange_iff_next ha ha38 hlt).1 hin with ⟨-, hpage⟩ | hnext
      · exact .inl (by rw [translate_eq_of_div hpage])
      · exact .inr ⟨va, hnext, by rw [hrest va hnext]⟩
    · rintro (rfl | ⟨va, hnext, rfl⟩)
      · exact ⟨a, (inRange_iff_next ha ha38 hlt).2 (.inl ⟨ha38, rfl⟩), rfl⟩
      · exact ⟨va, (inRange_iff_next ha ha38 hlt).2 (.inr hnext), by rw [hrest va hnext]⟩
  rw [hrange]
  cases do_free with
  | false => simp [hfree₁]
  | true =>
    simp only [hfree₁, if_pos, List.mem_cons, true_and, or_assoc]
    exact or_left_comm

/-- The loop of `uvmunmap` from the page `a` up to `stop`, when it returns: the page table is
well formed with the same page-table pages, the range is unmapped, and with `do_free` the pages
its PTEs named are on the free list. -/
theorem uvmunmapLoop_spec {root endk stop : BitVec 64} {do_free : Bool} (a : BitVec 64) :
    ∀ s s' : VmState, Wf s root → Aligned a →
      (do_free = true → endk ≠ 0 ∧ Freeable s root a stop) →
      uvmunmapLoop endk root stop do_free a s = some s' →
      Wf s' root ∧ (∀ t, Table s'.mem root t ↔ Table s.mem root t) ∧
        Unmapped s.mem s'.mem root a stop ∧
        PageFrame s.mem s'.mem (fun p => Table s.mem root p ∨
          ∃ va, InRange a stop va ∧ p = PTE2PA (translate s.mem root va)) ∧
        ∀ x, x ∈ s'.free ↔ x ∈ s.free ∨
          do_free = true ∧ ∃ va, InRange a stop va ∧ x = PTE2PA (translate s.mem root va) := by
  -- induction on the distance to `MAXVA`, which each round shortens by a page
  induction hn : 2 ^ 38 - a.toNat using Nat.strongRecOn generalizing a with
  | _ n ih =>
  intro s s' hwf ha hfree hres
  rw [uvmunmapLoop] at hres
  by_cases hlt : a < stop
  swap
  · -- past `stop`: nothing to do
    rw [if_neg hlt] at hres
    cases hres
    have hempty := not_inRange ha (Nat.not_lt.1 fun h => hlt (BitVec.lt_def.2 h))
    refine ⟨hwf, fun _ => Iff.rfl, ⟨fun va hin => absurd hin (hempty va), fun _ _ _ => rfl⟩,
      PageFrame.refl _ _, fun x => ?_⟩
    simp [hempty]
  rw [if_pos hlt] at hres
  split at hres
  · cases hres
  rename_i s₀ r hw
  have ha38 := lt_MAXVA_of_walk hw
  have hlt' : a.toNat < stop.toNat := BitVec.lt_def.1 hlt
  -- without allocation `walk` changes nothing and returns the slot of `a`, or 0
  rw [walk_false s root (BitVec.lt_def.2 (by rw [toNat_MAXVA]; exact ha38))] at hw
  obtain ⟨rfl, rfl⟩ := Prod.mk.inj (Option.some.inj hw)
  cases ht : level0 s.mem root a with
  | none => simp [ht] at hres
  | some t =>
  have hslot : t + 8 * PX 0 a ≠ 0 := by
    rw [← ofNat_px]
    exact hwf.slot_ne_zero (table_of_node (by simp) ht) _
  simp only [ht, if_neg hslot] at hres
  -- the PTE is valid and a leaf, or `uvmunmap` panics
  by_cases hv : loadPte s.mem (t + 8 * PX 0 a) &&& PTE_V = 0
  · rw [if_pos hv] at hres
    cases hres
  rw [if_neg hv] at hres
  by_cases hleaf : PTE_FLAGS (loadPte s.mem (t + 8 * PX 0 a)) = PTE_V
  · rw [if_pos hleaf] at hres
    cases hres
  rw [if_neg hleaf] at hres
  split at hres
  · cases hres
  rename_i s₁ hk
  have hself : InRange a stop a := (inRange_iff_next ha ha38 hlt').2 (Or.inl ⟨ha38, rfl⟩)
  obtain ⟨hwf₂, htab, hfree₁, htr⟩ := uvmunmap_round hwf ht ha38
    (fun hd => ⟨(hfree hd).1, (hfree hd).2.not_table a hself, (hfree hd).2.not_free a hself⟩) hk
  -- the rest of the range translates in the new state as it did
  have hrest : ∀ va, InRange (a + (PGSIZE : BitVec 64)) stop va →
      translate (storePte s₁.mem (t + 8 * PX 0 a) 0) root va = translate s.mem root va := by
    intro va hin
    have hne : va.toNat / PGSIZE ≠ a.toNat / PGSIZE :=
      fun hpage => absurd (lt_next_of_page ha38 hpage) (Nat.not_lt.2 hin.2.1)
    rw [htr va hin.1, if_neg hne]
  have hfree₂ : do_free = true →
      endk ≠ 0 ∧ Freeable ⟨storePte s₁.mem (t + 8 * PX 0 a) 0, s₁.free⟩ root
        (a + (PGSIZE : BitVec 64)) stop := by
    intro hd
    refine ⟨(hfree hd).1, (hfree hd).2.next ha ha38 hlt' htab ?_ hrest⟩
    rw [hfree₁, if_pos hd]
  have hlt₂ : 2 ^ 38 - (a + (PGSIZE : BitVec 64)).toNat < n := by
    rw [toNat_add_PGSIZE ha38]
    unfold PGSIZE
    omega
  obtain ⟨hwf', htab', hun, hframe, hfl⟩ :=
    ih _ hlt₂ (a + (PGSIZE : BitVec 64)) rfl _ _ hwf₂ (aligned_add_PGSIZE ha ha38) hfree₂ hres
  -- the round writes the page it frees and the level-0 page-table page
  have hw₁ : PageFrame s.mem s₁.mem (· = PTE2PA (translate s.mem root a)) := by
    cases do_free with
    | false =>
      rw [if_neg (by decide)] at hk
      cases hk
      exact PageFrame.refl _ _
    | true =>
      rw [if_pos rfl, loadPte_slot ht] at hk
      exact kfree_frame hk
  have hw₂ : PageFrame s₁.mem (storePte s₁.mem (t + 8 * PX 0 a) 0) (· = t) := by
    rw [← ofNat_px]
    exact pageFrame_storePte (hwf.aligned_of_table (table_of_node (by simp) ht)) _ _
  refine ⟨hwf', fun t' => (htab' t').trans (htab t'), Unmapped.cons ha ha38 hlt' htr hun,
    ((hw₁.trans hw₂).trans hframe).mono fun p hp => ?_, fun x => ?_⟩
  · rcases hp with (rfl | rfl) | ht' | ⟨va, hin, rfl⟩
    · exact .inr ⟨a, hself, rfl⟩
    · exact .inl (table_of_node (by simp) ht)
    · exact .inl ((htab p).1 ht')
    · exact .inr ⟨va, (inRange_iff_next ha ha38 hlt').2 (.inr hin), by rw [hrest va hin]⟩
  · rw [hfl x]
    exact mem_freed_cons ha ha38 hlt' hfree₁ hrest x

/-- `uvmunmap(pagetable, va, npages, do_free)`, when it returns: the page table is well formed,
the pages from `va` up to `va + npages * PGSIZE` translate to 0 and every other page as before,
and with `do_free` the pages they mapped are on the free list, which `kfree` accepts when they
are distinct and neither page-table pages nor free. -/
theorem uvmunmap_spec {s s' : VmState} {root endk va npages : BitVec 64} {do_free : Bool}
    (hwf : Wf s root)
    (hfree : do_free = true → endk ≠ 0 ∧ Freeable s root va (va + npages * PGSIZE))
    (h : uvmunmap endk s root va npages do_free = some s') :
    Wf s' root ∧ Unmapped s.mem s'.mem root va (va + npages * PGSIZE) ∧
      ∀ x, x ∈ s'.free ↔ x ∈ s.free ∨ do_free = true ∧
        ∃ va', InRange va (va + npages * PGSIZE) va' ∧ x = PTE2PA (translate s.mem root va') := by
  unfold uvmunmap at h
  split_ifs at h with hal
  obtain ⟨hwf', -, hun, -, hfl⟩ := uvmunmapLoop_spec va s s' hwf (aligned_of_umod (not_not.1 hal)) hfree h
  exact ⟨hwf', hun, hfl⟩

end Xv6.Vm
