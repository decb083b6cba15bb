import Mathlib
import Xv6.Vm.User

/-!
# Freeing page tables (kernel/vm.c, kernel/proc.c): freewalk, uvmfree

`freewalk(pagetable)` frees the page-table pages of a page table that maps nothing, depth first:
for each entry in turn it follows a link, frees what is below and clears the entry, and last it
frees `pagetable` itself; a valid leaf is a panic. Its recursion has no bound in the source; the
model counts the levels it may still go down, and a tree of `h` levels below its root needs
`h + 1` of them.

* `Bare`: a tree of page-table pages with links above its last level and no valid entry in it;
* `freewalk_spec`: `freewalk` frees every page of a bare tree, and writes no other page;
* `freewalk_empty`: in particular a well-formed page table that maps nothing, from `uvmfree`.
-/

namespace Xv6.Vm

/-! ## `freewalk` -/

/-- One round of the loop of `freewalk(pagetable)`, at the entry `i`, with `rec` the recursive
call. -/
def freewalkEntry (rec : BitVec 64 → VmState → Option VmState) (pagetable : BitVec 64)
    (s : VmState) (i : Fin 512) : Option VmState :=
  let pte := entry s.mem pagetable i
  if pte &&& PTE_V ≠ 0 ∧ pte &&& (PTE_R ||| PTE_W ||| PTE_X) = 0 then
    -- `freewalk((pagetable_t)child); pagetable[i] = 0;`
    (rec (PTE2PA pte) s).map fun s =>
      ⟨storePte s.mem (pagetable + 8 * BitVec.ofNat 64 i) 0, s.free⟩
  else if pte &&& PTE_V ≠ 0 then none
  else some s

/-- `freewalk(pagetable)` in a kernel whose image ends at `endk`, with at most `depth` levels of
recursion: below those the model stops, as a panic. -/
def freewalk (endk : BitVec 64) : ℕ → BitVec 64 → VmState → Option VmState
  | 0, _, _ => none
  | depth + 1, pagetable, s =>
    ((List.finRange 512).foldlM (freewalkEntry (freewalk endk depth) pagetable) s).bind
      fun s => kfree endk s pagetable

/-- What `freewalk` frees: the tree of page-table pages at `u`, with `h` levels below `u`, whose
valid entries above the last level are links, whose last level holds no valid entry, and whose
pages are pages of RAM above the kernel, which `kfree` takes. -/
structure Bare (mem : Memory) (endk u : BitVec 64) (h : ℕ) : Prop where
  tree : Radix.Tree child (entry mem) u h
  links : Radix.Inner child
    (fun pte => pte &&& PTE_V ≠ 0 → pte &&& (PTE_R ||| PTE_W ||| PTE_X) = 0) (entry mem) u h
  empty : Radix.Leaves child (fun pte => pte &&& PTE_V = 0) (entry mem) u h
  page : ∀ t, Radix.Mem child (entry mem) u h t →
    Aligned t ∧ endk ≤ t ∧ t < (PHYSTOP : BitVec 64)

/-- `f` frees every bare tree of height `h`: it returns, with the pages of the tree, which were
not free, put on the free list, and it writes those pages only. -/
def Frees (endk : BitVec 64) (h : ℕ) (f : BitVec 64 → VmState → Option VmState) : Prop :=
  ∀ (u : BitVec 64) (s : VmState), Bare s.mem endk u h → s.free.Nodup →
    (∀ x ∈ s.free, ¬ Radix.Mem child (entry s.mem) u h x) →
    ∃ s', f u s = some s' ∧ s'.free.Nodup ∧
      (∀ x, x ∈ s'.free ↔ x ∈ s.free ∨ Radix.Mem child (entry s.mem) u h x) ∧
      PageFrame s.mem s'.mem (Radix.Mem child (entry s.mem) u h)

section Bare

variable {mem : Memory} {endk u : BitVec 64} {h : ℕ}

theorem Bare.aligned (hb : Bare mem endk u h) : Aligned u :=
  (hb.page u ⟨[], Nat.zero_le _, rfl⟩).1

theorem Bare.of_child (hb : Bare mem endk u (h + 1)) {i : Fin 512} {c : BitVec 64}
    (hc : child (entry mem u i) = some c) : Bare mem endk c h where
  tree := hb.tree.of_child hc
  links := hb.links.of_child hc
  empty := hb.empty.of_child hc
  page t ht := hb.page t (Radix.mem_succ.2 (.inr ⟨i, (Radix.below_of_child hc).2 ht⟩))

/-- A bare tree is decided by the bytes of its pages. -/
theorem Bare.congr {mem' : Memory} (hb : Bare mem endk u h)
    (hm : ∀ b, Radix.Mem child (entry mem) u h (PGROUNDDOWN b) → mem' b = mem b) :
    Bare mem' endk u h ∧
      ∀ x, Radix.Mem child (entry mem') u h x ↔ Radix.Mem child (entry mem) u h x := by
  have htbl : ∀ p t, p.length ≤ h → Radix.node child (entry mem) u p = some t →
      entry mem' t = entry mem t := by
    intro p t hp ht
    have hmem : Radix.Mem child (entry mem) u h t := ⟨p, hp, ht⟩
    have hta := (hb.page t hmem).1
    refine entry_congr hta fun b h₁ h₂ => hm b ?_
    rw [PGROUNDDOWN_eq hta (by unfold Aligned PGSIZE at *; omega)]
    exact hmem
  have hlt : ∀ p t, p.length < h → Radix.node child (entry mem) u p = some t →
      entry mem' t = entry mem t := fun p t hp => htbl p t (Nat.le_of_lt hp)
  have hiff := Radix.mem_congr hlt
  exact ⟨⟨(Radix.tree_congr hlt).2 hb.tree, (Radix.inner_congr hlt).2 hb.links,
    (Radix.leaves_congr htbl).2 hb.empty, fun t ht => hb.page t ((hiff t).1 ht)⟩, hiff⟩

end Bare

section Entry

variable {rec : BitVec 64 → VmState → Option VmState} {u : BitVec 64} {s : VmState}

theorem freewalkEntry_of_invalid {i : Fin 512} (hv : entry s.mem u i &&& PTE_V = 0) :
    freewalkEntry rec u s i = some s := by
  rw [freewalkEntry, if_neg fun h => h.1 hv, if_neg fun h => h hv]

theorem freewalkEntry_of_link {i : Fin 512} (hv : entry s.mem u i &&& PTE_V ≠ 0)
    (hl : entry s.mem u i &&& (PTE_R ||| PTE_W ||| PTE_X) = 0) :
    freewalkEntry rec u s i = (rec (PTE2PA (entry s.mem u i)) s).map fun s =>
      ⟨storePte s.mem (u + 8 * BitVec.ofNat 64 i) 0, s.free⟩ := by
  rw [freewalkEntry, if_pos ⟨hv, hl⟩]

/-- The loop over a page-table page of the last level, which holds no valid entry, does
nothing. -/
theorem foldlM_freewalkEntry_of_invalid (hv : ∀ i, entry s.mem u i &&& PTE_V = 0)
    (L : List (Fin 512)) : L.foldlM (freewalkEntry rec u) s = some s := by
  induction L with
  | nil => rfl
  | cons i L ih => rw [List.foldlM_cons, freewalkEntry_of_invalid (hv i), Option.bind_eq_bind, Option.bind_some, ih]

end Entry

section Loop

/- The loop of `freewalk` at `u`, whose tree in the memory `mem₀` it starts from is bare with
`h + 1` levels below `u`, and `rec` the recursive call, which frees bare trees of height `h`. -/
variable {endk u : BitVec 64} {h : ℕ} {rec : BitVec 64 → VmState → Option VmState}
  {mem₀ : Memory} (hrec : Frees endk h rec) (hb : Bare mem₀ endk u (h + 1))
include hrec hb

/-- The round of a link `j`: `rec` frees the tree below it, and the entry is cleared. -/
theorem freewalkEntry_link {j : Fin 512} {c : BitVec 64} (hc : child (entry mem₀ u j) = some c)
    {s : VmState} (hrow : entry s.mem u j = entry mem₀ u j)
    (hsub : ∀ b, Radix.Below child (entry mem₀) u h j (PGROUNDDOWN b) → s.mem b = mem₀ b)
    (hnd : s.free.Nodup) (hfresh : ∀ x ∈ s.free, ¬ Radix.Below child (entry mem₀) u h j x) :
    ∃ s₂, freewalkEntry rec u s j = some s₂ ∧ s₂.free.Nodup ∧
      (∀ x, x ∈ s₂.free ↔ x ∈ s.free ∨ Radix.Below child (entry mem₀) u h j x) ∧
      PageFrame s.mem s₂.mem (fun p => p = u ∨ Radix.Below child (entry mem₀) u h j p) ∧
      ∀ j', j' ≠ j → entry s₂.mem u j' = entry s.mem u j' := by
  have hbelow : ∀ x, Radix.Below child (entry mem₀) u h j x ↔
      Radix.Mem child (entry mem₀) c h x := fun x => Radix.below_of_child hc
  have hua := hb.aligned
  -- the tree below `j` is as it was in `mem₀`
  obtain ⟨hbc, hmem⟩ := (hb.of_child hc).congr fun b hb' => hsub b ((hbelow _).2 hb')
  have hv₀ : entry mem₀ u j &&& PTE_V ≠ 0 := (child_eq_some.1 hc).1
  have hv : entry s.mem u j &&& PTE_V ≠ 0 := by
    rw [hrow]
    exact hv₀
  have hl : entry s.mem u j &&& (PTE_R ||| PTE_W ||| PTE_X) = 0 := by
    rw [hrow]
    exact hb.links.root j hv₀
  have hpa : PTE2PA (entry s.mem u j) = c := by
    rw [hrow]
    exact (child_eq_some.1 hc).2
  obtain ⟨s₁, hs₁, hnd₁, hfree₁, hw₁⟩ :=
    hrec c s hbc hnd fun x hx hm => hfresh x hx ((hbelow x).2 ((hmem x).1 hm))
  -- `u` is not below its own entries, so `rec` keeps its entries
  have hrow₁ : entry s₁.mem u = entry s.mem u := by
    refine entry_congr hua fun b h₁ h₂ => hw₁ b ?_
    rw [PGROUNDDOWN_eq hua (by unfold Aligned PGSIZE at *; omega)]
    exact fun hm => hb.tree.not_below_root j ((hbelow u).2 ((hmem u).1 hm))
  refine ⟨⟨storePte s₁.mem (u + 8 * BitVec.ofNat 64 j) 0, s₁.free⟩, ?_, hnd₁, fun x => ?_,
    (hw₁.trans (pageFrame_storePte hua j 0)).mono fun p hp => ?_, fun j' hj' => ?_⟩
  · rw [freewalkEntry_of_link hv hl, hpa, hs₁]
    rfl
  · rw [hfree₁, hmem, hbelow]
  · rcases hp with hp | rfl
    exacts [.inr ((hbelow p).2 ((hmem p).1 hp)), .inl rfl]
  · rw [entry_storePte hua hua, if_neg fun e => hj' e.2, hrow₁]

/-- The loop over the entries `L`, from a state that has the entries of `L` and the trees below
them as `mem₀` has, and none of those pages free: it frees the trees and writes their pages and
`u`. -/
theorem freewalkLoop_spec : ∀ (L : List (Fin 512)), L.Nodup → ∀ s : VmState,
    (∀ j ∈ L, entry s.mem u j = entry mem₀ u j) →
    (∀ b, (∃ j ∈ L, Radix.Below child (entry mem₀) u h j (PGROUNDDOWN b)) → s.mem b = mem₀ b) →
    s.free.Nodup → (∀ x ∈ s.free, ∀ j ∈ L, ¬ Radix.Below child (entry mem₀) u h j x) →
    ∃ s', L.foldlM (freewalkEntry rec u) s = some s' ∧ s'.free.Nodup ∧
      (∀ x, x ∈ s'.free ↔ x ∈ s.free ∨ ∃ j ∈ L, Radix.Below child (entry mem₀) u h j x) ∧
      PageFrame s.mem s'.mem (fun p => p = u ∨ ∃ j ∈ L, Radix.Below child (entry mem₀) u h j p) := by
  intro L
  induction L with
  | nil =>
    intro _ s _ _ hnd _
    exact ⟨s, rfl, hnd, fun x => by simp, PageFrame.refl _ _⟩
  | cons j L ih =>
    intro hL s hrow hsub hnd hfresh
    have hjL : j ∉ L := (List.nodup_cons.1 hL).1
    have hrowL : ∀ j' ∈ L, entry s.mem u j' = entry mem₀ u j' :=
      fun j' hj' => hrow j' (List.mem_cons_of_mem _ hj')
    rw [List.foldlM_cons]
    cases hc : child (entry mem₀ u j) with
    | none =>
      -- an invalid entry: the round does nothing
      have hnone : ∀ x, ¬ Radix.Below child (entry mem₀) u h j x :=
        fun x => Radix.not_below_of_child hc
      have hv : entry s.mem u j &&& PTE_V = 0 := by
        rw [hrow j List.mem_cons_self]
        exact child_eq_none.1 hc
      rw [freewalkEntry_of_invalid hv, Option.bind_eq_bind, Option.bind_some]
      obtain ⟨s', hs', hnd', hfree', hw'⟩ := ih (List.nodup_cons.1 hL).2 s hrowL
        (fun b ⟨j', hj', hb'⟩ => hsub b ⟨j', List.mem_cons_of_mem _ hj', hb'⟩) hnd
        fun x hx j' hj' => hfresh x hx j' (List.mem_cons_of_mem _ hj')
      refine ⟨s', hs', hnd', fun x => ?_, hw'.mono fun p hp => ?_⟩
      · rw [hfree', List.exists_mem_cons_iff, or_iff_right (hnone x)]
      · rw [List.exists_mem_cons_iff, or_iff_right (hnone p)]
        exact hp
    | some c =>
      obtain ⟨s₂, hs₂, hnd₂, hfree₂, hw₂, hrow₂⟩ := freewalkEntry_link hrec hb hc
        (hrow j List.mem_cons_self) (fun b hb' => hsub b ⟨j, List.mem_cons_self, hb'⟩) hnd
        fun x hx => hfresh x hx j List.mem_cons_self
      rw [hs₂, Option.bind_eq_bind, Option.bind_some]
      -- the trees below the other entries are apart from the one freed, and from `u`
      have hdisj : ∀ j' ∈ L, ∀ x, Radix.Below child (entry mem₀) u h j' x →
          ¬ Radix.Below child (entry mem₀) u h j x :=
        fun j' hj' x h₁ h₂ => hjL (hb.tree.eq_of_below h₂ h₁ ▸ hj')
      have hne : ∀ j' x, Radix.Below child (entry mem₀) u h j' x → x ≠ u :=
        fun j' x hx e =>
          hb.tree.not_below_root j' ((congrArg (Radix.Below child (entry mem₀) u h j') e).mp hx)
      obtain ⟨s', hs', hnd', hfree', hw'⟩ := ih (List.nodup_cons.1 hL).2 s₂
        (fun j' hj' => by rw [hrow₂ j' fun e => hjL (e ▸ hj'), hrowL j' hj'])
        (fun b ⟨j', hj', hb'⟩ => by
          rw [hw₂ b (not_or.2 ⟨hne j' _ hb', hdisj j' hj' _ hb'⟩)]
          exact hsub b ⟨j', List.mem_cons_of_mem _ hj', hb'⟩)
        hnd₂ fun x hx j' hj' hb' => by
          rcases (hfree₂ x).1 hx with hx | hx
          exacts [hfresh x hx j' (List.mem_cons_of_mem _ hj') hb', hdisj j' hj' x hb' hx]
      refine ⟨s', hs', hnd', fun x => ?_, (hw₂.trans hw').mono fun p hp => ?_⟩
      · rw [hfree', hfree₂, List.exists_mem_cons_iff, or_assoc]
      · rw [List.exists_mem_cons_iff]
        rcases hp with (hp | hp) | (hp | hp)
        exacts [.inl hp, .inr (.inl hp), .inl hp, .inr (.inr hp)]

end Loop

/-- `freewalk` frees a bare tree of height `h` when its recursion may go `h + 1` levels deep. -/
theorem freewalk_spec (endk : BitVec 64) : ∀ (h depth : ℕ), h < depth →
    Frees endk h (freewalk endk depth) := by
  intro h
  induction h with
  | zero =>
    -- a page-table page of the last level: the loop does nothing, and `kfree` frees it
    intro depth hd u s hb hnd hfresh
    obtain ⟨d, rfl⟩ : ∃ d, depth = d + 1 := ⟨depth - 1, by omega⟩
    have hloop : (List.finRange 512).foldlM (freewalkEntry (freewalk endk d) u) s = some s :=
      foldlM_freewalkEntry_of_invalid hb.empty.root _
    obtain ⟨hua, hge, hlt⟩ := hb.page u (Radix.mem_zero.2 rfl)
    refine ⟨_, by rw [freewalk, hloop, Option.bind_some, kfree_of_ram endk s hua hge hlt],
      List.nodup_cons.2 ⟨fun hu => hfresh u hu (Radix.mem_zero.2 rfl), hnd⟩, fun x => ?_,
      (pageFrame_memset hua 1).mono fun p hp => Radix.mem_zero.2 hp⟩
    rw [List.mem_cons, Radix.mem_zero, or_comm]
  | succ k ih =>
    intro depth hd u s hb hnd hfresh
    obtain ⟨d, rfl⟩ : ∃ d, depth = d + 1 := ⟨depth - 1, by omega⟩
    obtain ⟨s₁, hs₁, hnd₁, hfree₁, hw₁⟩ := freewalkLoop_spec (ih d (by omega)) hb
      (List.finRange 512) (List.nodup_finRange 512) s (fun _ _ => rfl) (fun _ _ => rfl) hnd
      fun x hx j _ hj => hfresh x hx (Radix.mem_succ.2 (.inr ⟨j, hj⟩))
    obtain ⟨hua, hge, hlt⟩ := hb.page u (Radix.mem_succ.2 (.inl rfl))
    have hu : u ∉ s₁.free := by
      rw [hfree₁]
      rintro (hu | ⟨j, -, hj⟩)
      exacts [hfresh u hu (Radix.mem_succ.2 (.inl rfl)), hb.tree.not_below_root j hj]
    refine ⟨_, by rw [freewalk, hs₁, Option.bind_some, kfree_of_ram endk s₁ hua hge hlt],
      List.nodup_cons.2 ⟨hu, hnd₁⟩, fun x => ?_,
      (hw₁.trans (pageFrame_memset hua 1)).mono fun p hp => ?_⟩
    · rw [List.mem_cons, hfree₁, Radix.mem_succ]
      simp only [List.mem_finRange, true_and]
      exact or_left_comm
    · have hroot : Radix.Mem child (entry s.mem) u (k + 1) u := Radix.mem_succ.2 (.inl rfl)
      rcases hp with (hp | ⟨j, -, hj⟩) | hp
      exacts [(congrArg _ hp).mpr hroot, Radix.mem_succ.2 (.inr ⟨j, hj⟩), (congrArg _ hp).mpr hroot]

/-! ## A page table that maps nothing -/

/-- Each choice of the three indices below the root's half for `MAXVA` is the page of an address
below `MAXVA`. -/
theorem exists_va_of_px {i₂ i₁ i₀ : Fin 512} (h : i₂.val < 256) :
    ∃ va : BitVec 64, va.toNat < 2 ^ 38 ∧ px 2 va = i₂ ∧ px 1 va = i₁ ∧ px 0 va = i₀ := by
  have h₁ := i₁.isLt
  have h₀ := i₀.isLt
  have hva : (BitVec.ofNat 64 (((i₂.val * 512 + i₁.val) * 512 + i₀.val) * 4096)).toNat =
      ((i₂.val * 512 + i₁.val) * 512 + i₀.val) * 4096 := by
    rw [BitVec.toNat_ofNat]
    omega
  refine ⟨_, by rw [hva]; omega, ?_, ?_, ?_⟩ <;> rw [Fin.ext_iff, px_val, hva] <;> norm_num <;> omega

/-- A well-formed page table whose page-table pages are pages of RAM and which maps no address
below `MAXVA` is bare: it maps nothing at all. -/
theorem Wf.bare {s : VmState} {root endk : BitVec 64} (hwf : Wf s root)
    (htab : ∀ t, Table s.mem root t → endk ≤ t ∧ t < (PHYSTOP : BitVec 64))
    (hnone : ∀ va, va.toNat < 2 ^ 38 → translate s.mem root va &&& PTE_V = 0) :
    Bare s.mem endk root 2 := by
  refine ⟨hwf.tree, hwf.links, fun p u hp hu i => ?_, fun t ht =>
    ⟨hwf.aligned_of_table ht, htab t ht⟩⟩
  obtain ⟨i₂, i₁, rfl⟩ := List.length_eq_two.1 hp
  by_cases h₂ : i₂.val < 256
  · obtain ⟨va, hva, e₂, e₁, e₀⟩ := @exists_va_of_px i₂ i₁ i h₂
    have h := hnone va hva
    rwa [translate, e₂, e₁, e₀, Radix.lookup_of_node hu] at h
  · -- from `MAXVA` on the root's entries are invalid: no page-table page below them
    have hc : child (entry s.mem root i₂) = none := child_eq_none.2 (hwf.high i₂ (by omega))
    rw [Radix.node_cons, hc] at hu
    cases hu

/-- `freewalk` of a well-formed page table that maps nothing frees its page-table pages, and
writes no other page. -/
theorem freewalk_empty {s : VmState} {root endk : BitVec 64} (hwf : Wf s root)
    (htab : ∀ t, Table s.mem root t → endk ≤ t ∧ t < (PHYSTOP : BitVec 64))
    (hnone : ∀ va, va.toNat < 2 ^ 38 → translate s.mem root va &&& PTE_V = 0) :
    ∃ s', freewalk endk 3 root s = some s' ∧ s'.free.Nodup ∧
      (∀ x, x ∈ s'.free ↔ x ∈ s.free ∨ Table s.mem root x) ∧
      PageFrame s.mem s'.mem (Table s.mem root) :=
  freewalk_spec endk 2 3 (by norm_num) root s (hwf.bare htab hnone) hwf.nodup hwf.fresh

/-! ## `uvmfree` -/

/-- `uvmfree(pagetable, sz)`: the pages of the process's memory, then the page-table pages. -/
def uvmfree (endk : BitVec 64) (s : VmState) (pagetable sz : BitVec 64) : Option VmState :=
  (if sz > 0 then uvmunmap endk s pagetable 0 (PGROUNDUP sz / PGSIZE) true else some s).bind
    fun s => freewalk endk 3 pagetable s

/-- A range up to a size is the range up to the size rounded up to a page. -/
theorem inRange_PGROUNDUP {a sz va : BitVec 64} (hsz : sz.toNat ≤ 2 ^ 38) :
    InRange a (PGROUNDUP sz) va ↔ InRange a sz va := by
  unfold InRange
  rw [toNat_PGROUNDUP (by unfold PGSIZE; omega), toNat_PGROUNDDOWN]
  unfold PGSIZE
  omega

/-- The bound of the loop `uvmunmap` runs for `uvmfree` is `PGROUNDUP(sz)`. -/
theorem uvmfree_stop {sz : BitVec 64} (hsz : sz.toNat ≤ 2 ^ 38) :
    (0 : BitVec 64) + PGROUNDUP sz / (PGSIZE : BitVec 64) * PGSIZE = PGROUNDUP sz := by
  have ha := aligned_PGROUNDUP sz
  have hle := toNat_PGROUNDUP_le hsz
  apply BitVec.eq_of_toNat_eq
  rw [BitVec.toNat_add, BitVec.toNat_mul, BitVec.toNat_udiv,
    show (PGSIZE : BitVec 64).toNat = PGSIZE from rfl, show (0 : BitVec 64).toNat = 0 from rfl]
  unfold Aligned PGSIZE at *
  omega

/-- `uvmfree` of the page table of a process that owns the pages below `sz` and maps nothing
else below `MAXVA`: it gives back exactly the pages of its memory and of its page table, and
writes no other page. -/
theorem uvmfree_spec {s : VmState} {root endk sz : BitVec 64} (hendk : endk ≠ 0)
    (hwf : Wf s root) (hram : Ram endk s)
    (htab : ∀ t, Table s.mem root t → endk ≤ t ∧ t < (PHYSTOP : BitVec 64))
    (hsz : sz.toNat ≤ 2 ^ 38) (ho : Owned s root endk 0 sz)
    (hnone : ∀ va, va.toNat < 2 ^ 38 → ¬ InRange 0 sz va → translate s.mem root va &&& PTE_V = 0) :
    ∃ s', uvmfree endk s root sz = some s' ∧ s'.free.Nodup ∧ Ram endk s' ∧
      (∀ x, x ∈ s'.free ↔ Pool s root 0 sz x) ∧ PageFrame s.mem s'.mem (Pool s root 0 sz) := by
  have h0 : Aligned (0 : BitVec 64) := by decide
  have hup := toNat_PGROUNDUP_le hsz
  have hin : ∀ va, InRange 0 (PGROUNDUP sz) va ↔ InRange 0 sz va := fun va => inRange_PGROUNDUP hsz
  have hpool : ∀ s' x, Pool s' root 0 (PGROUNDUP sz) x ↔ Pool s' root 0 sz x := by
    intro s' x
    simp only [Pool, hin]
  -- `uvmunmap` gives back the process's pages, if there are any
  obtain ⟨s₁, hs₁, hwf₁, hram₁, hb⟩ : ∃ s₁, (if sz > 0 then
      uvmunmap endk s root 0 (PGROUNDUP sz / PGSIZE) true else some s) = some s₁ ∧ Wf s₁ root ∧
      Ram endk s₁ ∧ GaveBack s s₁ root 0 (PGROUNDUP sz) (PGROUNDUP sz) := by
    obtain ⟨s₁, hs₁, hrest⟩ := unmap_giveBack hendk hwf hram h0 (aligned_PGROUNDUP sz) hup
      (ho.mono fun va h => (hin va).1 h) (fun _ h => h)
      fun va h => absurd h (not_inRange_of_le (aligned_PGROUNDUP sz) le_rfl)
    refine ⟨s₁, ?_, hrest⟩
    split_ifs with hpos
    · rw [uvmunmap, if_neg (by decide), uvmfree_stop hsz, hs₁]
    · -- a size of 0: the loop of `uvmunmap` would not have run
      have hsz0 : sz = 0 := by bv_omega
      subst hsz0
      rw [uvmunmapLoop, if_neg (by decide)] at hs₁
      exact hs₁
  -- the page-table pages are what they were, and nothing is mapped any more
  have htab₁ : ∀ t, Table s₁.mem root t → endk ≤ t ∧ t < (PHYSTOP : BitVec 64) := by
    intro t ht
    rcases (hpool s t).1 ((hb.pool t).2 (.inr (.inl ht))) with hf | ht | ⟨va, hva, rfl⟩
    exacts [hram t hf, htab t ht, ho.ram va hva]
  have hnone₁ : ∀ va, va.toNat < 2 ^ 38 → translate s₁.mem root va &&& PTE_V = 0 := by
    intro va hva
    by_cases hr : InRange 0 (PGROUNDUP sz) va
    · rw [hb.cleared va hr]
      rfl
    · rw [hb.frame va hva hr]
      exact hnone va hva fun h => hr ((hin va).2 h)
  obtain ⟨s', hs', hnd', hfree', hw'⟩ := freewalk_empty hwf₁ htab₁ hnone₁
  have hback : ∀ x, x ∈ s'.free ↔ Pool s root 0 sz x := by
    intro x
    rw [hfree', ← pool_empty_range h0 le_rfl, ← hb.pool, hpool]
  refine ⟨s', by rw [uvmfree, hs₁, Option.bind_some, hs'], hnd', fun x hx => ?_, hback, ?_⟩
  · rcases (hback x).1 hx with hf | ht | ⟨va, hva, rfl⟩
    exacts [hram x hf, htab x ht, ho.ram va hva]
  · refine (hb.writes.trans hw').mono fun p hp => ?_
    rcases hp with hp | hp
    · exact (hpool s p).1 hp
    · exact (hpool s p).1 ((hb.pool p).2 ((pool_empty_range h0 le_rfl).2 (.inr hp)))

end Xv6.Vm
