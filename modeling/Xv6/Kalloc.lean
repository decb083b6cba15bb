import Mathlib

/-!
# The physical page allocator (`kernel/kalloc.c`)

Free pages form a linked list threaded through the pages themselves: the first word of a free
page is its `run.next` pointer, and `kmem.freelist` points at the newest one. `kinit` frees
every page of RAM above the kernel, `kfree` pushes a page and `kalloc` pops one.

* `Kmem` (the list head and the words of RAM that hold `next` pointers), `kfree`, `kalloc`,
  `freerangeLoop`/`freerange`, `kinit`, and `count_free_memory`, which this kernel adds for
  `sysinfo`;
* `Chain`: the list of pages reached from a pointer by following `next` to the null pointer;
* `Inv`: the free list is a chain, and the free pages and the allocated ones are together the
  pages of RAM, each once; `kinit_inv`, `Inv.kfree`, `Inv.kalloc`, and over every run of
  `kalloc` and `kfree` (`kfree` of allocated pages only) `Kmem.Reachable.inv`; by
  `Kmem.Reachable.kalloc_fresh`, `kalloc` never returns a page already allocated, and the free
  list holds the pages not allocated;
* `count_free_memory_eq`: its loop `while(!r)` runs only on the null pointer, so it reports no
  free memory at all whenever the list is nonempty, and faults on `r->next` when it is empty.
-/

namespace Xv6

/-- Bytes per page (`PGSIZE`). -/
def PGSIZE : ℕ := 4096
/-- The first address of RAM (`KERNBASE`). -/
def KERNBASE : ℕ := 0x80000000
/-- The end of the RAM the kernel uses (`PHYSTOP`). -/
def PHYSTOP : ℕ := KERNBASE + 128 * 1024 * 1024

/-- `PGROUNDUP(sz)`, `((sz)+PGSIZE-1) & ~(PGSIZE-1)`: clearing the low twelve bits is rounding
down to a multiple of `PGSIZE`. -/
def PGROUNDUP (sz : ℕ) : ℕ := (sz + PGSIZE - 1) / PGSIZE * PGSIZE

/-- Pages of RAM: a bound on the length of any list of distinct pages. -/
def NPAGES : ℕ := (PHYSTOP - KERNBASE) / PGSIZE

/-- The allocator's state: `kmem.freelist` (0 is the null pointer) and the word at each address,
of which the first word of each free page is its `next` pointer. -/
structure Kmem where
  freelist : ℕ
  next : ℕ → ℕ

namespace Kmem

/-- What `memset(pa, 1, PGSIZE)` leaves in a word. -/
def junk1 : ℕ := 0x0101010101010101
/-- What `memset(r, 5, PGSIZE)` leaves in a word. -/
def junk5 : ℕ := 0x0505050505050505

/-- A load of the word at `r` through the kernel page table, which maps RAM from `KERNBASE` to
`PHYSTOP` and nothing at address 0: a load outside faults. -/
def load (m : Kmem) (r : ℕ) : Option ℕ :=
  if KERNBASE ≤ r ∧ r < PHYSTOP then some (m.next r) else none

end Kmem

/-- `kfree(pa)`: it panics on an address that is not a page of RAM above the kernel's end `endk`,
fills the page with junk and pushes it. -/
def kfree (endk : ℕ) (m : Kmem) (pa : ℕ) : Option Kmem :=
  if pa % PGSIZE ≠ 0 ∨ pa < endk ∨ PHYSTOP ≤ pa then none
  else some ⟨pa, Function.update (Function.update m.next pa Kmem.junk1) pa m.freelist⟩

/-- `kalloc()`: pop the head of the list, if any, and fill it with junk; 0 when the list is
empty. -/
def kalloc (m : Kmem) : Kmem × ℕ :=
  if m.freelist ≠ 0 then
    (⟨m.next m.freelist, Function.update m.next m.freelist Kmem.junk5⟩, m.freelist)
  else (m, 0)

/-- The loop of `freerange`, `for(; p + PGSIZE <= pa_end; p += PGSIZE) kfree(p)`. -/
def freerangeLoop (endk pa_end : ℕ) (p : ℕ) (m : Kmem) : Option Kmem :=
  if p + PGSIZE ≤ pa_end then (kfree endk m p).bind (freerangeLoop endk pa_end (p + PGSIZE))
  else some m
termination_by pa_end - p
decreasing_by all_goals (have : 0 < PGSIZE := by decide); omega

/-- `freerange(pa_start, pa_end)`. -/
def freerange (endk pa_start pa_end : ℕ) (m : Kmem) : Option Kmem :=
  freerangeLoop endk pa_end (PGROUNDUP pa_start) m

/-- `kinit()`, from the zeroed `kmem` of a kernel that ends at `endk`. -/
def kinit (endk : ℕ) : Option Kmem := freerange endk endk PHYSTOP ⟨0, fun _ => 0⟩

/-- The loop of `count_free_memory`, `while(!r){ count++; r = r->next; }`, for at most `fuel`
rounds; running out of fuel counts as not returning. -/
def countLoop (m : Kmem) : ℕ → ℕ → ℕ → Option ℕ
  | 0, _, _ => none
  | fuel + 1, count, r =>
    if r = 0 then (m.load r).bind (countLoop m fuel (count + 1)) else some count

/-- `count_free_memory()`. A list of distinct pages has at most `NPAGES` entries, so a walk of
the free list needs no more rounds than that. -/
def count_free_memory (m : Kmem) : Option ℕ :=
  (countLoop m (NPAGES + 1) 0 m.freelist).map (· * PGSIZE)

/-! ### The free list as a list of pages -/

/-- `l` is what following `next` from `r` visits before the null pointer. -/
def Chain (next : ℕ → ℕ) : ℕ → List ℕ → Prop
  | r, [] => r = 0
  | r, a :: l => r = a ∧ a ≠ 0 ∧ Chain next (next a) l

/-- Writing a word outside the pages of a chain leaves the chain. -/
theorem Chain.update {next : ℕ → ℕ} {a v : ℕ} :
    ∀ {r : ℕ} {l : List ℕ}, Chain next r l → a ∉ l → Chain (Function.update next a v) r l
  | _, [], h, _ => h
  | _, b :: l, ⟨hr, hb, hl⟩, ha => by
    have hab : b ≠ a := fun h => ha (h ▸ List.mem_cons_self ..)
    refine ⟨hr, hb, ?_⟩
    rw [Function.update_of_ne hab]
    exact hl.update (fun h => ha (List.mem_cons_of_mem _ h))

/-- The `n` pages from `p` on. -/
def pagesFrom (p n : ℕ) : List ℕ := (List.range n).map fun k => p + k * PGSIZE

/-- The pages of RAM that `kinit` frees for a kernel ending at `endk`. -/
def pages (endk : ℕ) : List ℕ :=
  pagesFrom (PGROUNDUP endk) ((PHYSTOP - PGROUNDUP endk) / PGSIZE)

theorem PGSIZE_pos : 0 < PGSIZE := by decide

theorem pagesFrom_succ (p n : ℕ) : pagesFrom p (n + 1) = p :: pagesFrom (p + PGSIZE) n := by
  rw [pagesFrom, List.range_succ_eq_map, List.map_cons, List.map_map, pagesFrom]
  simp only [Nat.zero_mul, Nat.add_zero, Function.comp_def, Nat.succ_mul]
  congr 1
  apply List.map_congr_left
  intro k _
  omega

theorem mem_pagesFrom {p n a : ℕ} : a ∈ pagesFrom p n ↔ ∃ k < n, a = p + k * PGSIZE := by
  simp [pagesFrom, eq_comm]

theorem nodup_pagesFrom (p n : ℕ) : (pagesFrom p n).Nodup := by
  apply List.Nodup.map _ List.nodup_range
  intro k k' h
  exact Nat.eq_of_mul_eq_mul_right PGSIZE_pos (Nat.add_left_cancel h)

theorem PGROUNDUP_ge (sz : ℕ) : sz ≤ PGROUNDUP sz := by
  have hdiv := Nat.div_add_mod' (sz + PGSIZE - 1) PGSIZE
  have hmod := Nat.mod_lt (sz + PGSIZE - 1) PGSIZE_pos
  unfold PGROUNDUP
  omega

theorem PGROUNDUP_mod (sz : ℕ) : PGROUNDUP sz % PGSIZE = 0 := by
  unfold PGROUNDUP
  exact Nat.mul_mod_left _ _

/-- Each page `kinit` frees is one `kfree` accepts. -/
theorem mem_pages {endk a : ℕ} (ha : a ∈ pages endk) :
    a % PGSIZE = 0 ∧ endk ≤ a ∧ a + PGSIZE ≤ PHYSTOP := by
  obtain ⟨k, hk, rfl⟩ := mem_pagesFrom.mp ha
  have hpos := PGSIZE_pos
  have hup := PGROUNDUP_ge endk
  have hmod := PGROUNDUP_mod endk
  have hfit : (k + 1) * PGSIZE ≤ PHYSTOP - PGROUNDUP endk :=
    (Nat.le_div_iff_mul_le (by decide)).mp hk
  refine ⟨?_, by omega, ?_⟩
  · simp [Nat.add_mod, hmod, Nat.mul_mod_left]
  · rw [Nat.succ_mul] at hfit
    omega

/-- `kfree` accepts an aligned address of RAM above the kernel. -/
theorem kfree_of_page {endk : ℕ} {m : Kmem} {pa : ℕ} (h₁ : pa % PGSIZE = 0) (h₂ : endk ≤ pa)
    (h₃ : pa < PHYSTOP) :
    kfree endk m pa =
      some ⟨pa, Function.update (Function.update m.next pa Kmem.junk1) pa m.freelist⟩ := by
  rw [kfree, if_neg (by omega)]

theorem kfree_of_mem_pages {endk : ℕ} {m : Kmem} {a : ℕ} (ha : a ∈ pages endk) :
    kfree endk m a =
      some ⟨a, Function.update (Function.update m.next a Kmem.junk1) a m.freelist⟩ := by
  obtain ⟨h₁, h₂, h₃⟩ := mem_pages ha
  exact kfree_of_page h₁ h₂ (by have := PGSIZE_pos; omega)

theorem ne_zero_of_mem_pages {endk : ℕ} (hend : KERNBASE ≤ endk) {a : ℕ} (ha : a ∈ pages endk) :
    a ≠ 0 := by
  have := (mem_pages ha).2.1
  unfold KERNBASE at hend
  omega

/-- `kfree` on a page of RAM pushes it: the new head points at the old one. -/
theorem Chain.kfree {m : Kmem} {pa : ℕ} {l : List ℕ} (hl : Chain m.next m.freelist l)
    (hpa : pa ≠ 0) (hnot : pa ∉ l) :
    Chain (Function.update (Function.update m.next pa Kmem.junk1) pa m.freelist) pa (pa :: l) := by
  refine ⟨rfl, hpa, ?_⟩
  rw [Function.update_self]
  exact (hl.update hnot).update hnot

theorem freerangeLoop_of_lt {endk pa_end p : ℕ} {m : Kmem} (h : pa_end < p + PGSIZE) :
    freerangeLoop endk pa_end p m = some m := by
  rw [freerangeLoop, if_neg (by omega)]

theorem freerangeLoop_of_le {endk pa_end p : ℕ} {m : Kmem} (h : p + PGSIZE ≤ pa_end) :
    freerangeLoop endk pa_end p m =
      (kfree endk m p).bind (freerangeLoop endk pa_end (p + PGSIZE)) := by
  rw [freerangeLoop, if_pos h]

/-- The loop of `freerange` over the last `n` pages below `pa_end`, from `p` on, pushes them in
order onto a list of lower pages. -/
theorem freerangeLoop_chain {endk pa_end : ℕ} (hend : KERNBASE ≤ endk) (htop : pa_end ≤ PHYSTOP)
    (n : ℕ) : ∀ (p : ℕ) (m : Kmem) {acc : List ℕ}, endk ≤ p → p % PGSIZE = 0 →
      n * PGSIZE ≤ pa_end - p → pa_end < p + (n + 1) * PGSIZE →
      Chain m.next m.freelist acc → (∀ a ∈ acc, a < p) →
      ∃ m', freerangeLoop endk pa_end p m = some m' ∧
        Chain m'.next m'.freelist ((pagesFrom p n).reverse ++ acc) := by
  induction n with
  | zero =>
    intro p m acc _ _ _ hlast hacc _
    exact ⟨m, freerangeLoop_of_lt (by omega), hacc⟩
  | succ n ih =>
    intro p m acc hp hal hfit hlast hacc hlt
    have hpos := PGSIZE_pos
    have hp0 : p ≠ 0 := by unfold KERNBASE at hend; omega
    rw [Nat.succ_mul] at hfit hlast
    have hpage : p + PGSIZE ≤ pa_end := by omega
    -- one `kfree`, then the loop from the next page
    have hfree : kfree endk m p = some ⟨p, Function.update (Function.update m.next p Kmem.junk1) p m.freelist⟩ :=
      kfree_of_page hal hp (by omega)
    obtain ⟨m', hloop, hchain⟩ := ih (p + PGSIZE)
      ⟨p, Function.update (Function.update m.next p Kmem.junk1) p m.freelist⟩
      (by omega) (by simp [hal]) (by omega) (by omega)
      (Chain.kfree hacc hp0 (fun h => absurd (hlt p h) (Nat.lt_irrefl p)))
      (fun a ha => by
        rcases List.mem_cons.mp ha with rfl | ha
        · omega
        · have := hlt a ha
          omega)
    refine ⟨m', ?_, ?_⟩
    · rw [freerangeLoop_of_le hpage, hfree, Option.bind_some]
      exact hloop
    · rw [pagesFrom_succ, List.reverse_cons, List.append_assoc, List.singleton_append]
      exact hchain

/-- The allocator's invariant: the free list is a chain of the pages `free`, and the free and
the allocated pages `held` are together the pages of RAM, each once. -/
structure Inv (endk : ℕ) (m : Kmem) (free held : List ℕ) : Prop where
  chain : Chain m.next m.freelist free
  perm : (free ++ held).Perm (pages endk)

section Alloc

variable {endk : ℕ} {m : Kmem} {free held : List ℕ}

theorem Inv.nodup (hs : Inv endk m free held) : (free ++ held).Nodup :=
  hs.perm.nodup_iff.mpr (nodup_pagesFrom ..)

theorem Inv.mem_pages (hs : Inv endk m free held) {a : ℕ} (ha : a ∈ free ++ held) :
    a ∈ pages endk :=
  hs.perm.subset ha

/-- After `kinit`, every page of RAM above the kernel is free, the newest first. -/
theorem kinit_inv (hend : KERNBASE ≤ endk) :
    ∃ m, kinit endk = some m ∧ Inv endk m (pages endk).reverse [] := by
  have hdiv := Nat.div_add_mod' (PHYSTOP - PGROUNDUP endk) PGSIZE
  have hmod := Nat.mod_lt (PHYSTOP - PGROUNDUP endk) PGSIZE_pos
  obtain ⟨m, hm, hchain⟩ := freerangeLoop_chain hend (Nat.le_refl _)
    ((PHYSTOP - PGROUNDUP endk) / PGSIZE) (PGROUNDUP endk) ⟨0, fun _ => 0⟩ (PGROUNDUP_ge endk)
    (PGROUNDUP_mod endk) (Nat.div_mul_le_self ..) (by rw [Nat.succ_mul]; omega)
    (show Chain _ 0 [] from rfl) (fun a ha => absurd ha List.not_mem_nil)
  refine ⟨m, hm, ?_, ?_⟩
  · rw [List.append_nil] at hchain
    exact hchain
  · rw [List.append_nil]
    exact List.reverse_perm _

/-- Freeing an allocated page pushes it on the list. -/
theorem Inv.kfree (hend : KERNBASE ≤ endk) (hs : Inv endk m free held) {pa : ℕ}
    (hpa : pa ∈ held) :
    ∃ m', Xv6.kfree endk m pa = some m' ∧ Inv endk m' (pa :: free) (held.erase pa) := by
  have hpage : pa ∈ pages endk := hs.mem_pages (List.mem_append_right _ hpa)
  have hnot : pa ∉ free := fun h => List.disjoint_of_nodup_append hs.nodup h hpa
  refine ⟨_, kfree_of_mem_pages hpage, Chain.kfree hs.chain (ne_zero_of_mem_pages hend hpage) hnot, ?_⟩
  -- the page moves from `held` to the front of `free`
  have hperm : (free ++ held).Perm (pa :: (free ++ held.erase pa)) :=
    (List.Perm.append_left free (List.perm_cons_erase hpa)).trans List.perm_middle
  exact hperm.symm.trans hs.perm

/-- `kalloc` pops the head of the list: a page that is not allocated. -/
theorem Inv.kalloc (hs : Inv endk m free held) :
    (free = [] ∧ Xv6.kalloc m = (m, 0)) ∨
      ∃ a free', free = a :: free' ∧ (Xv6.kalloc m).2 = a ∧ a ∉ held ∧
        Inv endk (Xv6.kalloc m).1 free' (a :: held) := by
  rcases free with _ | ⟨a, free'⟩
  · have h0 : m.freelist = 0 := hs.chain
    exact Or.inl ⟨rfl, by simp [Xv6.kalloc, h0]⟩
  · obtain ⟨hr, ha, hl⟩ := hs.chain
    have hnd := hs.nodup
    rw [List.cons_append, List.nodup_cons] at hnd
    have hnot : a ∉ free' := fun h => hnd.1 (List.mem_append_left _ h)
    have hk : Xv6.kalloc m = (⟨m.next a, Function.update m.next a Kmem.junk5⟩, a) := by
      rw [Xv6.kalloc, if_pos (hr ▸ ha), hr]
    refine Or.inr ⟨a, free', rfl, by rw [hk], fun h => hnd.1 (List.mem_append_right _ h), ?_, ?_⟩
    · rw [hk]
      exact hl.update hnot
    · exact List.perm_middle.trans hs.perm

end Alloc

/-- The allocator after `kinit` and any sequence of `kalloc` and `kfree` calls, with the pages
allocated and not yet freed; `kfree` is called on those only. -/
inductive Kmem.Reachable (endk : ℕ) : Kmem → List ℕ → Prop
  | kinit {m : Kmem} : kinit endk = some m → Reachable endk m []
  | kalloc {m : Kmem} {held : List ℕ} : Reachable endk m held →
      Reachable endk (kalloc m).1 (if (kalloc m).2 = 0 then held else (kalloc m).2 :: held)
  | kfree {m m' : Kmem} {held : List ℕ} {pa : ℕ} : Reachable endk m held → pa ∈ held →
      kfree endk m pa = some m' → Reachable endk m' (held.erase pa)

/-- Every reachable allocator keeps the invariant. -/
theorem Kmem.Reachable.inv {endk : ℕ} (hend : KERNBASE ≤ endk) {m : Kmem} {held : List ℕ}
    (h : Kmem.Reachable endk m held) : ∃ free, Inv endk m free held := by
  induction h with
  | kinit hm =>
    obtain ⟨m₀, hm₀, hinv⟩ := kinit_inv hend
    rw [hm] at hm₀
    cases hm₀
    exact ⟨_, hinv⟩
  | kalloc _ ih =>
    obtain ⟨free, hs⟩ := ih
    rcases hs.kalloc with ⟨rfl, hk⟩ | ⟨a, free', rfl, ha, -, hinv⟩
    · rw [hk]
      exact ⟨[], hs⟩
    · have ha0 : a ≠ 0 := hs.chain.2.1
      rw [ha, if_neg ha0]
      exact ⟨free', hinv⟩
  | kfree _ hpa hfree ih =>
    obtain ⟨free, hs⟩ := ih
    obtain ⟨m'', hm'', hinv⟩ := hs.kfree hend hpa
    rw [hfree] at hm''
    cases hm''
    exact ⟨_, hinv⟩

/-- Over every run, `kalloc` never returns a page already allocated, and the free list holds
exactly the pages not allocated. -/
theorem Kmem.Reachable.kalloc_fresh {endk : ℕ} (hend : KERNBASE ≤ endk) {m : Kmem} {held : List ℕ}
    (h : Kmem.Reachable endk m held) :
    (Xv6.kalloc m).2 ∉ held ∧ ∃ free, Chain m.next m.freelist free ∧
      free.length + held.length = (pages endk).length := by
  obtain ⟨free, hs⟩ := h.inv hend
  refine ⟨?_, free, hs.chain, by rw [← List.length_append, hs.perm.length_eq]⟩
  rcases hs.kalloc with ⟨-, hk⟩ | ⟨a, _, -, ha, hnot, -⟩
  · rw [hk]
    exact fun h0 => ne_zero_of_mem_pages hend (hs.mem_pages (List.mem_append_right _ h0)) rfl
  · rw [ha]
    exact hnot

/-! ### `count_free_memory` -/

/-- The loop condition `!r` holds only for the null pointer, so the body never runs on a
nonempty list, and on the empty one it loads `r->next` through address 0. -/
theorem count_free_memory_eq {m : Kmem} {free : List ℕ} (h : Chain m.next m.freelist free) :
    count_free_memory m = if free = [] then none else some 0 := by
  rcases free with _ | ⟨a, free⟩
  · have h0 : m.freelist = 0 := h
    have hload : m.load 0 = none := by
      rw [Kmem.load, if_neg (by unfold KERNBASE; omega)]
    simp [count_free_memory, countLoop, h0, hload]
  · obtain ⟨rfl, ha, -⟩ := h
    simp [count_free_memory, countLoop, ha]

end Xv6
