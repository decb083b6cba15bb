import Mathlib
import Xv6.Vm.Free

/-!
# A process's page table (kernel/proc.c): proc_pagetable, proc_freepagetable

Every process has a page table of its own. `proc_pagetable` makes one with no user memory but
with the trampoline and the process's trapframe mapped at the top of the address space, and
`proc_freepagetable` unmaps those two and frees the rest with `uvmfree`.

* `Space`: the page table of a process of size `sz`, as `proc_pagetable` makes it;
* `proc_pagetable_spec`: `proc_pagetable` returns 0 and has given back every page it took, or
  a page table of size 0 whose pages are, with the free list, the pages that were free; the
  trapframe is always mapped once the trampoline is, so the second failure path of the source
  is never taken;
* `proc_freepagetable_spec`: `proc_freepagetable` gives back exactly the pages of the process's
  memory and of its page table, and writes no other page.
-/

namespace Xv6.Vm

/-- `TRAMPOLINE`: the highest page below `MAXVA`. -/
def TRAMPOLINE : BitVec 64 := MAXVA - PGSIZE

/-- `TRAPFRAME`: the page below the trampoline. -/
def TRAPFRAME : BitVec 64 := TRAMPOLINE - PGSIZE

/-- `proc_pagetable(p)` for a process whose trapframe is the page `trapframe`, in a kernel whose
trampoline code is at `trampoline`: the new page table, or 0. -/
def proc_pagetable (endk trampoline trapframe : BitVec 64) (s : VmState) :
    Option (VmState × BitVec 64) :=
  let (s, pagetable) := uvmcreate s
  if pagetable = 0 then some (s, 0)
  else
    match mappages s pagetable TRAMPOLINE PGSIZE trampoline ((PTE_R ||| PTE_X).setWidth 32) with
    | none => none
    | some (s, r) =>
      if r < 0 then (uvmfree endk s pagetable 0).map fun s => (s, 0)
      else
        match mappages s pagetable TRAPFRAME PGSIZE trapframe ((PTE_R ||| PTE_W).setWidth 32) with
        | none => none
        | some (s, r) =>
          if r < 0 then
            ((uvmunmap endk s pagetable TRAMPOLINE 1 false).bind fun s =>
              uvmfree endk s pagetable 0).map fun s => (s, 0)
          else some (s, pagetable)

/-- `proc_freepagetable(pagetable, sz)`. -/
def proc_freepagetable (endk : BitVec 64) (s : VmState) (pagetable sz : BitVec 64) :
    Option VmState :=
  (uvmunmap endk s pagetable TRAMPOLINE 1 false).bind fun s =>
    (uvmunmap endk s pagetable TRAPFRAME 1 false).bind fun s => uvmfree endk s pagetable sz

/-- `growproc(n)` for a process of size `psz` (`p->sz`) with the page table `pagetable`: the
state, the new `p->sz` and the result, 0 or -1. The size is a `uint` in the function, and
`sz + n` is computed in it. -/
def growproc (endk : BitVec 64) (s : VmState) (pagetable psz : BitVec 64) (n : BitVec 32) :
    Option (VmState × BitVec 64 × ℤ) :=
  let sz : BitVec 32 := psz.setWidth 32
  if 0 < n.toInt then
    (uvmalloc endk s pagetable (sz.setWidth 64) ((sz + n).setWidth 64)).map fun r =>
      if r.2.setWidth 32 = 0 then (r.1, psz, -1) else (r.1, (r.2.setWidth 32).setWidth 64, 0)
  else if n.toInt < 0 then
    (uvmdealloc endk s pagetable (sz.setWidth 64) ((sz + n).setWidth 64)).map fun r =>
      (r.1, (r.2.setWidth 32).setWidth 64, 0)
  else some (s, sz.setWidth 64, 0)

/-- The calls `growproc(n)` of a process, one for each `n` of `ns` in turn (its `sbrk` calls),
from the size `sz`: the state and the size after the last. -/
def growprocs (endk pagetable : BitVec 64) :
    List (BitVec 32) → VmState → BitVec 64 → Option (VmState × BitVec 64)
  | [], s, sz => some (s, sz)
  | n :: ns, s, sz =>
    (growproc endk s pagetable sz n).bind fun r => growprocs endk pagetable ns r.1 r.2.1

/-! ## The two pages at the top -/

theorem toNat_TRAMPOLINE : TRAMPOLINE.toNat = 2 ^ 38 - PGSIZE := by decide

theorem toNat_TRAPFRAME : TRAPFRAME.toNat = 2 ^ 38 - 2 * PGSIZE := by decide

theorem aligned_TRAMPOLINE : Aligned TRAMPOLINE := by decide

theorem aligned_TRAPFRAME : Aligned TRAPFRAME := by decide

/-- The trampoline and the trapframe share their page-table pages. -/
theorem level0_TRAPFRAME (mem : Memory) (root : BitVec 64) :
    level0 mem root TRAPFRAME = level0 mem root TRAMPOLINE := by
  have h₂ : px 2 TRAPFRAME = px 2 TRAMPOLINE := by decide
  have h₁ : px 1 TRAPFRAME = px 1 TRAMPOLINE := by decide
  rw [level0, level0, h₂, h₁]

/-- The permissions of the two pages, `PTE_R | PTE_X` and `PTE_R | PTE_W` through `int perm`. -/
theorem perm_TRAMPOLINE : ((PTE_R ||| PTE_X).setWidth 32).signExtend 64 = 0xA := by decide

theorem perm_TRAPFRAME : ((PTE_R ||| PTE_W).setWidth 32).signExtend 64 = 0x6 := by decide

/-- A leaf PTE with permissions is valid and not a link. -/
theorem leaf_fields (pa : BitVec 64) {f : BitVec 64} (hf : f.toNat < 1024)
    (hleaf : f ||| PTE_V ≠ PTE_V) :
    (PA2PTE pa ||| f ||| PTE_V) &&& PTE_V ≠ 0 ∧ PTE_FLAGS (PA2PTE pa ||| f ||| PTE_V) ≠ PTE_V := by
  refine ⟨or_PTE_V_and_PTE_V _, ?_⟩
  rw [BitVec.or_assoc, PTE_FLAGS_PA2PTE_or pa _ (toNat_or_PTE_V hf)]
  exact hleaf

/-- A range below the trapframe holds neither of the two pages. -/
theorem not_top_of_inRange {lo sz va : BitVec 64} (hsz : sz.toNat ≤ TRAPFRAME.toNat)
    (hin : InRange lo sz va) :
    va.toNat / PGSIZE ≠ TRAMPOLINE.toNat / PGSIZE ∧ va.toNat / PGSIZE ≠ TRAPFRAME.toNat / PGSIZE := by
  unfold InRange at hin
  rw [toNat_PGROUNDDOWN] at hin
  rw [toNat_TRAMPOLINE]
  rw [toNat_TRAPFRAME] at hsz ⊢
  unfold PGSIZE at *
  omega

theorem InRange.mono {a stop a' stop' va : BitVec 64} (h : InRange a stop va)
    (ha : a'.toNat ≤ a.toNat) (hstop : stop.toNat ≤ stop'.toNat) : InRange a' stop' va :=
  ⟨h.1, Nat.le_trans ha h.2.1, Nat.lt_of_lt_of_le h.2.2 hstop⟩

/-! ## One page -/

/-- `mappages` of one unmapped page whose level-0 page-table page is there returns 0: `walk`
takes no page. -/
theorem mappages_page_of_level0 {s : VmState} {root a t : BitVec 64} (pa : BitVec 64)
    (perm : BitVec 32) (hwf : Wf s root) (ha : Aligned a) (ha38 : a.toNat < 2 ^ 38)
    (ht : level0 s.mem root a = some t) (hv : translate s.mem root a &&& PTE_V = 0) :
    ∃ s', mappages s root a PGSIZE pa perm = some (s', 0) := by
  have hslot : t + 8 * PX 0 a ≠ 0 := by
    rw [← ofNat_px]
    exact hwf.slot_ne_zero (table_of_node (by simp) ht) _
  rw [mappages_page_eq pa perm hwf ha ha38 hv, walkLoop_of_node a s 2 root t ht]
  dsimp only
  rw [if_neg hslot]
  exact ⟨_, rfl⟩

/-- `uvmunmap(pagetable, a, 1, 0)` of a page mapped by a leaf: its translation goes to 0, and
only its entry is written. -/
theorem uvmunmap_page (endk : BitVec 64) {s : VmState} {root a : BitVec 64} (hwf : Wf s root)
    (ha : Aligned a) (ha38 : a.toNat < 2 ^ 38) (hv : translate s.mem root a &&& PTE_V ≠ 0)
    (hleaf : PTE_FLAGS (translate s.mem root a) ≠ PTE_V) :
    ∃ s', uvmunmap endk s root a 1 false = some s' ∧ Wf s' root ∧ s'.free = s.free ∧
      (∀ t, Table s'.mem root t ↔ Table s.mem root t) ∧
      (∀ va, va.toNat < 2 ^ 38 → translate s'.mem root va =
        if va.toNat / PGSIZE = a.toNat / PGSIZE then 0 else translate s.mem root va) ∧
      PageFrame s.mem s'.mem (Table s.mem root) := by
  obtain ⟨t, ht⟩ := level0_of_valid hv
  have htt : Table s.mem root t := table_of_node (by simp) ht
  have hslot : t + 8 * PX 0 a ≠ 0 := by
    rw [← ofNat_px]
    exact hwf.slot_ne_zero htt _
  have hlt : a < a + PGSIZE := BitVec.lt_def.2 (by rw [toNat_add_PGSIZE ha38]; unfold PGSIZE; omega)
  obtain ⟨hwf₂, htab, -, htr⟩ :=
    @uvmunmap_round s s root endk a t false hwf ht ha38 (fun h => absurd h (by decide)) rfl
  refine ⟨_, ?_, hwf₂, rfl, htab, htr, ?_⟩
  · rw [uvmunmap, if_neg (not_not.2 (umod_of_aligned ha)), one_mul, uvmunmapLoop, if_pos hlt,
      walk_false s root (BitVec.lt_def.2 (by rw [toNat_MAXVA]; exact ha38))]
    simp only [ht, if_neg hslot, loadPte_slot ht, if_neg hv, if_neg hleaf, Bool.false_eq_true,
      if_false]
    rw [uvmunmapLoop, if_neg (BitVec.lt_irrefl _)]
  · have hw : PageFrame s.mem (storePte s.mem (t + 8 * PX 0 a) 0) (· = t) := by
      rw [← ofNat_px]
      exact pageFrame_storePte (hwf.aligned_of_table htt) _ _
    exact hw.mono fun p hp => hp ▸ htt

/-! ## The page table of a process -/

/-- The page table `root` of a process of size `sz`, as `proc_pagetable` makes it: well formed,
with its page-table pages and the free list in RAM, and mapping the process's own pages below
`sz`, the trampoline and the trapframe, and nothing else. -/
structure Space (s : VmState) (endk root trampoline trapframe sz : BitVec 64) : Prop where
  wf : Wf s root
  ram : Ram endk s
  tables : ∀ t, Table s.mem root t → endk ≤ t ∧ t < (PHYSTOP : BitVec 64)
  size : sz.toNat ≤ TRAPFRAME.toNat
  owned : Owned s root endk 0 sz
  trampoline : translate s.mem root TRAMPOLINE = PA2PTE trampoline ||| 0xA ||| PTE_V
  trapframe : translate s.mem root TRAPFRAME = PA2PTE trapframe ||| 0x6 ||| PTE_V
  unmapped : ∀ va, va.toNat < 2 ^ 38 → ¬ InRange 0 sz va →
    va.toNat / PGSIZE ≠ TRAMPOLINE.toNat / PGSIZE → va.toNat / PGSIZE ≠ TRAPFRAME.toNat / PGSIZE →
    translate s.mem root va = 0


/-- `proc_pagetable` returns 0 and has given back every page it took, or a page table for a
process of size 0 whose page-table pages are, with the free list, the pages that were free; it
writes free pages only. -/
theorem proc_pagetable_spec {s : VmState} {endk trampoline trapframe : BitVec 64}
    (hendk : endk ≠ 0) (hnd : s.free.Nodup) (hfp : ∀ a ∈ s.free, a ≠ 0 ∧ Aligned a)
    (hram : Ram endk s) :
    ∃ s' pagetable, proc_pagetable endk trampoline trapframe s = some (s', pagetable) ∧
      PageFrame s.mem s'.mem (· ∈ s.free) ∧
      ((pagetable = 0 ∧ s'.free.Nodup ∧ ∀ x, x ∈ s'.free ↔ x ∈ s.free) ∨
        (pagetable ≠ 0 ∧ Space s' endk pagetable trampoline trapframe 0 ∧
          ∀ x, x ∈ s.free ↔ x ∈ s'.free ∨ Table s'.mem pagetable x)) := by
  rcases uvmcreate_spec hnd hfp with ⟨h0, -, hs⟩ | ⟨hfree₁, hwf₁, htab₁, hzero₁, hw₁⟩
  · -- no page for the page table
    have hc : uvmcreate s = (s, 0) := Prod.ext hs h0
    refine ⟨s, 0, ?_, PageFrame.refl _ _, .inl ⟨rfl, hnd, fun _ => Iff.rfl⟩⟩
    rw [proc_pagetable, hc]
    dsimp only
    rw [if_pos rfl]
  generalize hc : uvmcreate s = c at hfree₁ hwf₁ htab₁ hzero₁ hw₁
  obtain ⟨s₁, pt⟩ := c
  dsimp only at hfree₁ hwf₁ htab₁ hzero₁ hw₁
  have hpt := hfp pt (hfree₁ ▸ List.mem_cons_self)
  have hA : TRAMPOLINE.toNat < 2 ^ 38 := by rw [toNat_TRAMPOLINE]; unfold PGSIZE; omega
  -- `mappages` of the trampoline
  obtain ⟨⟨s₂, ret⟩, hm₂⟩ := mappages_page_total trampoline ((PTE_R ||| PTE_X).setWidth 32) hwf₁
    aligned_TRAMPOLINE hA (by rw [hzero₁]; rfl)
  obtain ⟨hwf₂, ⟨taken₂, hfree₂, htab₂⟩, hw₂, hret₂⟩ := mappages_page hwf₁ aligned_TRAMPOLINE hm₂
  have hsub₂ : ∀ x, x ∈ s.free ↔ x ∈ s₂.free ∨ Table s₂.mem pt x := by
    intro x
    rw [hfree₁, hfree₂, htab₂, htab₁, List.mem_cons, List.mem_append, ← or_assoc, or_comm]
  have hw₁₂ : PageFrame s.mem s₂.mem (· ∈ s.free) := (hw₁.trans hw₂).mono fun p hp => by
    rw [hfree₁]
    rcases hp with rfl | (hp | hp)
    · exact List.mem_cons_self
    · exact (htab₁ p).1 hp ▸ List.mem_cons_self
    · exact List.mem_cons_of_mem _ hp
  rcases hret₂ with ⟨rfl, hnil₂, htr₂⟩ | ⟨rfl, htr₂⟩
  · -- `walk` ran out of pages: `uvmfree` gives back the page-table pages it took
    obtain ⟨s₃, h₃, hnd₃, -, hback₃, hw₃⟩ := uvmfree_spec hendk hwf₂
      (fun x hx => absurd (hnil₂ ▸ hx) List.not_mem_nil) (fun t ht => hram t ((hsub₂ t).2 (.inr ht)))
      (by decide) (Owned.empty (by decide)) fun va _ _ => by rw [htr₂, hzero₁]; rfl
    have hpool : ∀ x, Pool s₂ pt 0 0 x ↔ x ∈ s.free := fun x =>
      (pool_empty_range (by decide) le_rfl).trans (hsub₂ x).symm
    refine ⟨s₃, 0, ?_, hw₁₂.trans hw₃ |>.mono fun p hp => hp.elim id (hpool p).1,
      .inl ⟨rfl, hnd₃, fun x => (hback₃ x).trans (hpool x)⟩⟩
    rw [proc_pagetable, hc]
    dsimp only
    rw [if_neg hpt.1, hm₂]
    dsimp only
    rw [if_pos (by decide), h₃]
    rfl
  -- the trampoline is mapped, so the trapframe's page-table pages are there and its
  -- `mappages` returns 0
  have hF : TRAPFRAME.toNat < 2 ^ 38 := by rw [toNat_TRAPFRAME]; unfold PGSIZE; omega
  have hAF : TRAPFRAME.toNat / PGSIZE ≠ TRAMPOLINE.toNat / PGSIZE := by
    rw [toNat_TRAMPOLINE, toNat_TRAPFRAME]
    unfold PGSIZE
    omega
  have htA : translate s₂.mem pt TRAMPOLINE = PA2PTE trampoline ||| 0xA ||| PTE_V := by
    rw [htr₂ TRAMPOLINE hA, if_pos rfl, perm_TRAMPOLINE]
  have hvA := (leaf_fields trampoline (f := (0xA : BitVec 64)) (by decide) (by decide)).1
  rw [← htA] at hvA
  obtain ⟨t, ht⟩ := level0_of_valid hvA
  have htF : translate s₂.mem pt TRAPFRAME = 0 := by rw [htr₂ TRAPFRAME hF, if_neg hAF, hzero₁]
  obtain ⟨s₃, hm₃⟩ := mappages_page_of_level0 trapframe ((PTE_R ||| PTE_W).setWidth 32) hwf₂
    aligned_TRAPFRAME hF (by rw [level0_TRAPFRAME]; exact ht) (by rw [htF]; rfl)
  obtain ⟨hwf₃, ⟨taken₃, hfree₃, htab₃⟩, hw₃, hret₃⟩ := mappages_page hwf₂ aligned_TRAPFRAME hm₃
  have htr₃ : ∀ va, va.toNat < 2 ^ 38 → translate s₃.mem pt va =
      if va.toNat / PGSIZE = TRAPFRAME.toNat / PGSIZE then PA2PTE trapframe ||| 0x6 ||| PTE_V
      else translate s₂.mem pt va := by
    rw [← perm_TRAPFRAME]
    rcases hret₃ with ⟨h, -⟩ | ⟨-, h⟩
    exacts [absurd h (by decide), h]
  have hsub₃ : ∀ x, x ∈ s.free ↔ x ∈ s₃.free ∨ Table s₃.mem pt x := by
    intro x
    rw [hsub₂, hfree₃, htab₃, List.mem_append]
    simp only [or_assoc, or_comm, or_left_comm]
  refine ⟨s₃, pt, ?_, (hw₁₂.trans hw₃).mono fun p hp => ?_,
    .inr ⟨hpt.1, ⟨hwf₃, fun x hx => hram x ((hsub₃ x).2 (.inl hx)),
      fun t ht => hram t ((hsub₃ t).2 (.inr ht)), Nat.zero_le _, Owned.empty (by decide), ?_, ?_,
      fun va hva _ hnA hnF => ?_⟩, hsub₃⟩⟩
  · rw [proc_pagetable, hc]
    dsimp only
    rw [if_neg hpt.1, hm₂]
    dsimp only
    rw [if_neg (by decide), hm₃]
    dsimp only
    rw [if_neg (by decide)]
  · rcases hp with hp | hp | hp
    · exact hp
    · exact (hsub₂ p).2 (.inr hp)
    · exact (hsub₂ p).2 (.inl hp)
  · rw [htr₃ TRAMPOLINE hA, if_neg hAF.symm, htA]
  · rw [htr₃ TRAPFRAME hF, if_pos rfl]
  · rw [htr₃ va hva, if_neg hnF, htr₂ va hva, if_neg hnA, hzero₁]

/-- `proc_freepagetable` of the page table of a process of size `sz` gives back exactly the pages
of the process's memory and of its page table, and writes no other page. -/
theorem proc_freepagetable_spec {s : VmState} {endk root trampoline trapframe sz : BitVec 64}
    (hendk : endk ≠ 0) (hsp : Space s endk root trampoline trapframe sz) :
    ∃ s', proc_freepagetable endk s root sz = some s' ∧ s'.free.Nodup ∧ Ram endk s' ∧
      (∀ x, x ∈ s'.free ↔ Pool s root 0 sz x) ∧ PageFrame s.mem s'.mem (Pool s root 0 sz) := by
  have hA : TRAMPOLINE.toNat < 2 ^ 38 := by rw [toNat_TRAMPOLINE]; unfold PGSIZE; omega
  have hF : TRAPFRAME.toNat < 2 ^ 38 := by rw [toNat_TRAPFRAME]; unfold PGSIZE; omega
  have hAF : TRAPFRAME.toNat / PGSIZE ≠ TRAMPOLINE.toNat / PGSIZE := by
    rw [toNat_TRAMPOLINE, toNat_TRAPFRAME]
    unfold PGSIZE
    omega
  -- the trampoline's page, then the trapframe's, are unmapped and not freed
  have hlA := leaf_fields trampoline (f := (0xA : BitVec 64)) (by decide) (by decide)
  rw [← hsp.trampoline] at hlA
  obtain ⟨s₁, h₁, hwf₁, hfree₁, htab₁, htr₁, hw₁⟩ :=
    uvmunmap_page endk hsp.wf aligned_TRAMPOLINE hA hlA.1 hlA.2
  have hlF := leaf_fields trapframe (f := (0x6 : BitVec 64)) (by decide) (by decide)
  have hF₁ : translate s₁.mem root TRAPFRAME = translate s.mem root TRAPFRAME := by
    rw [htr₁ TRAPFRAME hF, if_neg hAF]
  rw [← hsp.trapframe, ← hF₁] at hlF
  obtain ⟨s₂, h₂, hwf₂, hfree₂, htab₂, htr₂, hw₂⟩ :=
    uvmunmap_page endk hwf₁ aligned_TRAPFRAME hF hlF.1 hlF.2
  -- what is left is the process's memory, mapped as it was
  have htr : ∀ va, va.toNat < 2 ^ 38 → translate s₂.mem root va =
      if va.toNat / PGSIZE = TRAMPOLINE.toNat / PGSIZE ∨ va.toNat / PGSIZE = TRAPFRAME.toNat / PGSIZE
      then 0 else translate s.mem root va := by
    intro va hva
    rw [htr₂ va hva, htr₁ va hva]
    by_cases hF' : va.toNat / PGSIZE = TRAPFRAME.toNat / PGSIZE
    · rw [if_pos hF', if_pos (.inr hF')]
    · by_cases hA' : va.toNat / PGSIZE = TRAMPOLINE.toNat / PGSIZE
      · rw [if_neg hF', if_pos hA', if_pos (.inl hA')]
      · rw [if_neg hF', if_neg hA', if_neg (not_or.2 ⟨hA', hF'⟩)]
  have hsame : ∀ va, InRange 0 sz va → translate s₂.mem root va = translate s.mem root va := by
    intro va hin
    obtain ⟨hnA, hnF⟩ := not_top_of_inRange hsp.size hin
    rw [htr va hin.1, if_neg (not_or.2 ⟨hnA, hnF⟩)]
  have htab : ∀ t, Table s₂.mem root t ↔ Table s.mem root t := fun t => (htab₂ t).trans (htab₁ t)
  have hfree : s₂.free = s.free := hfree₂.trans hfree₁
  have hpool : ∀ x, Pool s₂ root 0 sz x ↔ Pool s root 0 sz x := by
    intro x
    unfold Pool
    rw [hfree, htab]
    refine or_congr_right (or_congr_right ⟨?_, ?_⟩)
    · rintro ⟨va, hin, rfl⟩
      exact ⟨va, hin, by rw [hsame va hin]⟩
    · rintro ⟨va, hin, rfl⟩
      exact ⟨va, hin, by rw [hsame va hin]⟩
  have hnone : ∀ va, va.toNat < 2 ^ 38 → ¬ InRange 0 sz va →
      translate s₂.mem root va &&& PTE_V = 0 := by
    intro va hva hout
    rw [htr va hva]
    split_ifs with htop
    · rfl
    · rw [not_or] at htop
      rw [hsp.unmapped va hva hout htop.1 htop.2]
      rfl
  obtain ⟨s', h', hnd', hram', hback, hw'⟩ := uvmfree_spec hendk hwf₂
    (fun x hx => hsp.ram x (hfree ▸ hx)) (fun t ht => hsp.tables t ((htab t).1 ht))
    (by have := hsp.size; rw [toNat_TRAPFRAME] at this; unfold PGSIZE at this; omega)
    (hsp.owned.of_free hsame fun x hx => hx.imp (fun h => hfree ▸ h) (htab x).1) hnone
  refine ⟨s', by rw [proc_freepagetable, h₁, Option.bind_some, h₂, Option.bind_some, h'], hnd',
    hram', fun x => (hback x).trans (hpool x), ?_⟩
  refine ((hw₁.trans hw₂).trans hw').mono fun p hp => ?_
  rcases hp with (hp | hp) | hp
  · exact .inr (.inl hp)
  · exact .inr (.inl ((htab₁ p).1 hp))
  · exact (hpool p).1 hp

/-! ## Growing and shrinking: `growproc` -/

/-- Two ranges of owned pages, split at a page, whose pages are apart, are one. -/
theorem Owned.join {s : VmState} {root endk lo mid hi : BitVec 64}
    (h₁ : Owned s root endk lo mid) (h₂ : Owned s root endk mid hi) (hmid : Aligned mid)
    (hdisj : ∀ va va', InRange lo mid va → InRange mid hi va' →
      PTE2PA (translate s.mem root va) ≠ PTE2PA (translate s.mem root va')) :
    Owned s root endk lo hi := by
  refine ⟨⟨fun va hin => ?_, fun va hin => ?_, fun va va' hin hin' h => ?_⟩,
    fun va hin => ?_, fun va hin => ?_, fun va hin => ?_⟩
  · rcases inRange_split hmid hin with h | h
    exacts [h₁.not_table va h, h₂.not_table va h]
  · rcases inRange_split hmid hin with h | h
    exacts [h₁.not_free va h, h₂.not_free va h]
  · -- two pages of one range, or one of each, which are apart
    rcases inRange_split hmid hin with h₃ | h₃ <;> rcases inRange_split hmid hin' with h₄ | h₄
    · exact h₁.injective va va' h₃ h₄ h
    · exact absurd h (hdisj va va' h₃ h₄)
    · exact absurd h.symm (hdisj va' va h₄ h₃)
    · exact h₂.injective va va' h₃ h₄ h
  · rcases inRange_split hmid hin with h | h
    exacts [h₁.valid va h, h₂.valid va h]
  · rcases inRange_split hmid hin with h | h
    exacts [h₁.leaf va h, h₂.leaf va h]
  · rcases inRange_split hmid hin with h | h
    exacts [h₁.ram va h, h₂.ram va h]

/-- The pages of a range, split at a page. -/
theorem pool_split {s : VmState} {root lo mid hi x : BitVec 64} (hmid : Aligned mid)
    (hlo : lo.toNat ≤ mid.toNat) (hsub : ∀ va, InRange lo mid va → InRange lo hi va) :
    Pool s root lo hi x ↔
      Pool s root mid hi x ∨ ∃ va, InRange lo mid va ∧ x = PTE2PA (translate s.mem root va) := by
  unfold Pool
  constructor
  · rintro (hx | hx | ⟨va, hin, rfl⟩)
    · exact .inl (.inl hx)
    · exact .inl (.inr (.inl hx))
    · rcases inRange_split hmid hin with h | h
      exacts [.inr ⟨va, h, rfl⟩, .inl (.inr (.inr ⟨va, h, rfl⟩))]
  · rintro ((hx | hx | ⟨va, hin, rfl⟩) | ⟨va, hin, rfl⟩)
    · exact .inl hx
    · exact .inr (.inl hx)
    · exact .inr (.inr ⟨va, hin.mono hlo le_rfl, rfl⟩)
    · exact .inr (.inr ⟨va, hsub va hin, rfl⟩)

/-- A change that keeps every translation, and the free pages with the page-table pages, keeps
the page table of a process and its pages. -/
theorem Space.of_same {s s' : VmState} {endk root trampoline trapframe sz : BitVec 64}
    (hsp : Space s endk root trampoline trapframe sz) (hwf : Wf s' root) (hram : Ram endk s')
    (htr : ∀ va, va.toNat < 2 ^ 38 → translate s'.mem root va = translate s.mem root va)
    (hft : ∀ x, x ∈ s'.free ∨ Table s'.mem root x ↔ x ∈ s.free ∨ Table s.mem root x) :
    Space s' endk root trampoline trapframe sz ∧ ∀ x, Pool s root 0 sz x ↔ Pool s' root 0 sz x := by
  have hA : TRAMPOLINE.toNat < 2 ^ 38 := by rw [toNat_TRAMPOLINE]; unfold PGSIZE; omega
  have hF : TRAPFRAME.toNat < 2 ^ 38 := by rw [toNat_TRAPFRAME]; unfold PGSIZE; omega
  refine ⟨⟨hwf, hram, fun t ht => ((hft t).1 (.inr ht)).elim (hsp.ram t) (hsp.tables t), hsp.size,
    hsp.owned.of_free (fun va hin => htr va hin.1) (hft · |>.1), by rw [htr _ hA, hsp.trampoline],
    by rw [htr _ hF, hsp.trapframe], fun va hva hout hnA hnF => ?_⟩, fun x => ?_⟩
  · rw [htr va hva]
    exact hsp.unmapped va hva hout hnA hnF
  · unfold Pool
    rw [← or_assoc, ← or_assoc, hft]
    refine or_congr_right ⟨?_, ?_⟩ <;> rintro ⟨va, hin, rfl⟩ <;> exact ⟨va, hin, by rw [htr va hin.1]⟩

/-- `uvmalloc` from the size of a process up to a size below the trapframe: the page table of a
process of the new size, or of the old one when the pages run out, with the same pages in all. -/
theorem Space.grow {s : VmState} {endk root trampoline trapframe oldsz newsz : BitVec 64}
    (hendk : endk ≠ 0) (hsp : Space s endk root trampoline trapframe oldsz) (hle : oldsz ≤ newsz)
    (hnew : newsz.toNat ≤ TRAPFRAME.toNat) :
    ∃ s' sz, uvmalloc endk s root oldsz newsz = some (s', sz) ∧
      (sz = newsz ∧ Space s' endk root trampoline trapframe newsz ∧
          (∀ x, Pool s root 0 oldsz x ↔ Pool s' root 0 newsz x) ∨
        sz = 0 ∧ Space s' endk root trampoline trapframe oldsz ∧
          ∀ x, Pool s root 0 oldsz x ↔ Pool s' root 0 oldsz x) := by
  have hT := toNat_TRAPFRAME
  have hA : TRAMPOLINE.toNat < 2 ^ 38 := by rw [toNat_TRAMPOLINE]; unfold PGSIZE; omega
  have hF : TRAPFRAME.toNat < 2 ^ 38 := by rw [toNat_TRAPFRAME]; unfold PGSIZE; omega
  have hold : oldsz.toNat ≤ newsz.toNat := BitVec.le_def.1 hle
  have hold38 : oldsz.toNat ≤ 2 ^ 38 := by unfold PGSIZE at hT; omega
  have hup := aligned_PGROUNDUP oldsz
  have hlow : ∀ va, InRange 0 oldsz va ↔ InRange 0 (PGROUNDUP oldsz) va :=
    fun va => (inRange_PGROUNDUP hold38).symm
  -- the pages `uvmalloc` maps were not mapped: above the old size, below the trapframe
  have hzero : ∀ va, InRange (PGROUNDUP oldsz) newsz va → translate s.mem root va = 0 := by
    intro va hin
    obtain ⟨hnA, hnF⟩ := not_top_of_inRange hnew hin
    exact hsp.unmapped va hin.1 (fun h => hin.not_below hup ((hlow va).1 h)) hnA hnF
  obtain ⟨s', sz, h, hwf', hram', hres, hpool, -⟩ :=
    uvmalloc_spec hendk hsp.wf hsp.ram hle (by unfold PGSIZE at hT; omega) hzero
  refine ⟨s', sz, h, ?_⟩
  rcases hres with ⟨rfl, ho, -, -, hframe⟩ | ⟨rfl, htr⟩
  · have hback : ∀ x, x ∈ s'.free ∨ Table s'.mem root x → x ∈ s.free ∨ Table s.mem root x :=
      fun x hx => (hpool x).2 (hx.elim .inl fun h => .inr (.inl h))
    -- the old pages keep their translations
    have hsame : ∀ va, InRange 0 oldsz va → translate s'.mem root va = translate s.mem root va :=
      fun va hin => hframe va hin.1 fun h => h.not_below hup ((hlow va).1 hin)
    have hdisj : ∀ va va', InRange 0 (PGROUNDUP oldsz) va → InRange (PGROUNDUP oldsz) sz va' →
        PTE2PA (translate s'.mem root va) ≠ PTE2PA (translate s'.mem root va') := by
      intro va va' hin hin' e
      have hin₀ := (hlow va).2 hin
      have hx := (hpool (PTE2PA (translate s'.mem root va'))).2 (.inr (.inr ⟨va', hin', rfl⟩))
      rw [← e, hsame va hin₀] at hx
      rcases hx with hf | ht
      exacts [hsp.owned.not_free va hin₀ hf, hsp.owned.not_table va hin₀ ht]
    have hown : Owned s' root endk 0 sz :=
      ((hsp.owned.of_free hsame hback).mono fun va h => (hlow va).2 h).join ho hup hdisj
    have hout : ∀ va, va.toNat < 2 ^ 38 → ¬ InRange 0 sz va →
        translate s'.mem root va = translate s.mem root va :=
      fun va hva h => hframe va hva fun h' => h (h'.mono (Nat.zero_le _) le_rfl)
    refine .inl ⟨rfl, ⟨hwf', hram', fun t ht => (hback t (.inr ht)).elim (hsp.ram t) (hsp.tables t),
      hnew, hown, ?_, ?_, fun va hva hout' hnA hnF => ?_⟩, fun x => ?_⟩
    · rw [hout _ hA fun h => (not_top_of_inRange hnew h).1 rfl, hsp.trampoline]
    · rw [hout _ hF fun h => (not_top_of_inRange hnew h).2 rfl, hsp.trapframe]
    · rw [hout va hva hout']
      exact hsp.unmapped va hva (fun h => hout' (h.mono le_rfl hold)) hnA hnF
    · -- the old pages, and the free pages and page-table pages that `uvmalloc` drew on
      rw [pool_split hup (Nat.zero_le _) fun va h => ((hlow va).2 h).mono le_rfl hold, ← hpool,
        Pool, or_assoc]
      refine or_congr_right (or_congr_right ⟨?_, ?_⟩) <;> rintro ⟨va, hin, rfl⟩
      · exact ⟨va, (hlow va).1 hin, by rw [hsame va hin]⟩
      · exact ⟨va, (hlow va).2 hin, by rw [hsame va ((hlow va).2 hin)]⟩
  · have hft : ∀ x, x ∈ s'.free ∨ Table s'.mem root x ↔ x ∈ s.free ∨ Table s.mem root x :=
      fun x => ((pool_empty_range hup (Nat.zero_le _)).symm.trans (hpool x).symm)
    exact .inr ⟨rfl, hsp.of_same hwf' hram' htr hft⟩

/-- `uvmdealloc` from the size of a process down to a smaller size: the page table of a process
of the new size, with the pages it unmapped on the free list. -/
theorem Space.shrink {s : VmState} {endk root trampoline trapframe oldsz newsz : BitVec 64}
    (hendk : endk ≠ 0) (hsp : Space s endk root trampoline trapframe oldsz) (hlt : newsz < oldsz) :
    ∃ s', uvmdealloc endk s root oldsz newsz = some (s', newsz) ∧
      Space s' endk root trampoline trapframe newsz ∧
      ∀ x, Pool s root 0 oldsz x ↔ Pool s' root 0 newsz x := by
  have hT := toNat_TRAPFRAME
  have hsz := hsp.size
  have hA : TRAMPOLINE.toNat < 2 ^ 38 := by rw [toNat_TRAMPOLINE]; unfold PGSIZE; omega
  have hF : TRAPFRAME.toNat < 2 ^ 38 := by rw [toNat_TRAPFRAME]; unfold PGSIZE; omega
  have hlt' : newsz.toNat < oldsz.toNat := BitVec.lt_def.1 hlt
  have hold38 : oldsz.toNat ≤ 2 ^ 38 := by unfold PGSIZE at hT; omega
  have hnew38 : newsz.toNat ≤ 2 ^ 38 := by omega
  have hupn := aligned_PGROUNDUP newsz
  have hlow : ∀ va, InRange 0 oldsz va ↔ InRange 0 (PGROUNDUP oldsz) va :=
    fun va => (inRange_PGROUNDUP hold38).symm
  have hlown : ∀ va, InRange 0 newsz va ↔ InRange 0 (PGROUNDUP newsz) va :=
    fun va => (inRange_PGROUNDUP hnew38).symm
  -- the pages from `PGROUNDUP(newsz)` below `PGROUNDUP(oldsz)` go
  have hfr : ∀ va, InRange (PGROUNDUP newsz) (PGROUNDUP oldsz) va → InRange 0 oldsz va :=
    fun va h => (hlow va).2 (h.mono (Nat.zero_le _) le_rfl)
  have hupo : (PGROUNDUP oldsz).toNat ≤ TRAPFRAME.toNat := by
    rw [toNat_PGROUNDUP (by unfold PGSIZE; omega)]
    rw [hT] at hsz ⊢
    unfold PGSIZE at *
    omega
  obtain ⟨s', h, hwf', htab, hun, -, hfree⟩ :=
    uvmdealloc_spec hsp.wf hendk hlt hold38 (hsp.owned.mono hfr)
  have hsame : ∀ va, InRange 0 newsz va → translate s'.mem root va = translate s.mem root va :=
    fun va hin => hun.frame va hin.1 fun h => h.not_below hupn ((hlown va).1 hin)
  have hown₀ : Owned s root endk 0 newsz := hsp.owned.mono fun va h => h.mono le_rfl hlt'.le
  -- the pages kept are not among those freed
  have hown : Owned s' root endk 0 newsz := by
    refine ⟨⟨fun va hin ht => ?_, fun va hin hf => ?_, fun va va' hin hin' e => ?_⟩,
      fun va hin => ?_, fun va hin => ?_, fun va hin => ?_⟩ <;> rw [hsame va hin] at *
    · exact hown₀.not_table va hin ((htab _).1 ht)
    · rcases (hfree _).1 hf with hf | ⟨va', hin', e⟩
      · exact hown₀.not_free va hin hf
      · have hpage := hsp.owned.injective va va' (hin.mono le_rfl hlt'.le) (hfr va' hin') e
        unfold InRange at hin hin'
        rw [toNat_PGROUNDDOWN] at hin
        rw [toNat_PGROUNDUP (by unfold PGSIZE; omega)] at hin'
        unfold PGSIZE at *
        omega
    · rw [hsame va' hin'] at e
      exact hown₀.injective va va' hin hin' e
    · exact hown₀.valid va hin
    · exact hown₀.leaf va hin
    · exact hown₀.ram va hin
  refine ⟨s', h, ⟨hwf', fun x hx => ?_, fun t ht => hsp.tables t ((htab t).1 ht), by omega, hown,
    ?_, ?_, fun va hva hout hnA hnF => ?_⟩, fun x => ?_⟩
  · rcases (hfree x).1 hx with hx | ⟨va, hin, rfl⟩
    exacts [hsp.ram x hx, hsp.owned.ram va (hfr va hin)]
  · rw [hun.frame _ hA fun h => (not_top_of_inRange hupo h).1 rfl, hsp.trampoline]
  · rw [hun.frame _ hF fun h => (not_top_of_inRange hupo h).2 rfl, hsp.trapframe]
  · by_cases hin : InRange (PGROUNDUP newsz) (PGROUNDUP oldsz) va
    · exact hun.cleared va hin
    · rw [hun.frame va hva hin]
      refine hsp.unmapped va hva (fun h' => ?_) hnA hnF
      rcases inRange_split hupn h' with h₁ | h₁
      exacts [hout ((hlown va).2 h₁), hin ((inRange_PGROUNDUP hold38).2 h₁)]
  · -- the pages kept, and those freed
    have hkept : (∃ va, InRange 0 newsz va ∧ x = PTE2PA (translate s'.mem root va)) ↔
        ∃ va, InRange 0 newsz va ∧ x = PTE2PA (translate s.mem root va) := by
      refine ⟨?_, ?_⟩ <;> rintro ⟨va, hin, rfl⟩ <;> exact ⟨va, hin, by rw [hsame va hin]⟩
    rw [pool_split hupn (Nat.zero_le _) fun va h => ((hlown va).2 h).mono le_rfl hlt'.le, Pool,
      Pool, hfree, htab, hkept]
    simp only [inRange_PGROUNDUP hold38, inRange_PGROUNDUP hnew38]
    simp only [or_assoc, or_comm, or_left_comm]

/-- A size below `2 ^ 32` survives `uint`. -/
theorem setWidth_setWidth_of_lt {x : BitVec 64} (h : x.toNat < 2 ^ 32) :
    (x.setWidth 32).setWidth 64 = x := by
  apply BitVec.eq_of_toNat_eq
  rw [BitVec.toNat_setWidth, BitVec.toNat_setWidth]
  omega

theorem toNat_setWidth_lt (y : BitVec 32) : (y.setWidth 64).toNat < 2 ^ 32 := by
  rw [BitVec.toNat_setWidth]
  have := y.isLt
  omega

/-- `growproc(n)` keeps the page table of the process, of its new size, and its pages: the pages
it unmaps go to the free list, and those it maps come from there. The new size is the old one,
or the one asked for in `uint`; it is the old one when `growproc` fails. -/
theorem growproc_spec {s : VmState} {endk root trampoline trapframe psz : BitVec 64} (n : BitVec 32)
    (hendk : endk ≠ 0) (hsp : Space s endk root trampoline trapframe psz)
    (hpsz : psz.toNat < 2 ^ 32) :
    ∃ s' sz r, growproc endk s root psz n = some (s', sz, r) ∧ sz.toNat < 2 ^ 32 ∧
      Space s' endk root trampoline trapframe sz ∧ (∀ x, Pool s root 0 psz x ↔ Pool s' root 0 sz x) ∧
      (sz = psz ∨ sz = (psz.setWidth 32 + n).setWidth 64) ∧ (r = 0 ∨ r = -1 ∧ sz = psz) := by
  have hT : TRAPFRAME.toNat = 2 ^ 38 - 2 * PGSIZE := toNat_TRAPFRAME
  have hsz := setWidth_setWidth_of_lt hpsz
  have hnew := toNat_setWidth_lt (psz.setWidth 32 + n)
  have hnewT : ((psz.setWidth 32 + n).setWidth 64).toNat ≤ TRAPFRAME.toNat := by
    rw [hT]
    unfold PGSIZE
    omega
  -- where the size stays, so does everything else
  have hstay : ∀ r : ℤ, r = 0 ∨ r = -1 → ∃ s' sz r', some (s, psz, r) = some (s', sz, r') ∧
      sz.toNat < 2 ^ 32 ∧ Space s' endk root trampoline trapframe sz ∧
      (∀ x, Pool s root 0 psz x ↔ Pool s' root 0 sz x) ∧
      (sz = psz ∨ sz = (psz.setWidth 32 + n).setWidth 64) ∧ (r' = 0 ∨ r' = -1 ∧ sz = psz) :=
    fun r hr => ⟨s, psz, r, rfl, hpsz, hsp, fun _ => Iff.rfl, .inl rfl, hr.imp_right fun h => ⟨h, rfl⟩⟩
  rw [growproc, hsz]
  split_ifs with hpos hneg
  · -- `uvmalloc`, unless `sz + n` wrapped around
    by_cases hwrap : (psz.setWidth 32 + n).setWidth 64 < psz
    · rw [uvmalloc, if_pos hwrap, Option.map_some, hsz]
      split_ifs
      exacts [hstay (-1) (.inr rfl), hstay 0 (.inl rfl)]
    obtain ⟨s', sz, hu, hres⟩ := hsp.grow hendk (BitVec.not_lt.1 hwrap) hnewT
    rw [hu, Option.map_some]
    rcases hres with ⟨rfl, hsp', hpool⟩ | ⟨rfl, hsp', hpool⟩
    · split_ifs with h0
      · -- a size of 0 in `uint` is 0: nothing grew
        have hv0 : (psz.setWidth 32 + n).setWidth 64 = 0 := by
          rw [← setWidth_setWidth_of_lt hnew, h0]
          rfl
        have he : (psz.setWidth 32 + n).setWidth 64 = psz := by
          have hle := BitVec.le_def.1 (BitVec.not_lt.1 hwrap)
          rw [hv0] at hle ⊢
          exact (BitVec.eq_of_toNat_eq (Nat.le_zero.1 hle)).symm
        rw [he] at hsp' hpool
        exact ⟨s', psz, -1, rfl, hpsz, hsp', hpool, .inl rfl, .inr ⟨rfl, rfl⟩⟩
      · rw [setWidth_setWidth_of_lt hnew]
        exact ⟨s', _, 0, rfl, hnew, hsp', hpool, .inr rfl, .inl rfl⟩
    · dsimp only
      rw [if_pos (show BitVec.setWidth 32 (0 : BitVec 64) = 0 from rfl)]
      exact ⟨s', psz, -1, rfl, hpsz, hsp', hpool, .inl rfl, .inr ⟨rfl, rfl⟩⟩
  · -- `uvmdealloc`, unless `sz + n` wrapped around
    by_cases hwrap : (psz.setWidth 32 + n).setWidth 64 ≥ psz
    · rw [uvmdealloc, if_pos hwrap, Option.map_some, hsz]
      exact hstay 0 (.inl rfl)
    obtain ⟨s', hu, hsp', hpool⟩ := hsp.shrink hendk (BitVec.not_le.1 hwrap)
    rw [hu, Option.map_some, setWidth_setWidth_of_lt hnew]
    exact ⟨s', _, 0, rfl, hnew, hsp', hpool, .inr rfl, .inl rfl⟩
  · exact hstay 0 (.inl rfl)

/-- Over any run of `sbrk` calls the process keeps its page table and its pages. -/
theorem growprocs_spec {endk root trampoline trapframe : BitVec 64} (hendk : endk ≠ 0)
    (ns : List (BitVec 32)) : ∀ (s : VmState) (psz : BitVec 64),
      Space s endk root trampoline trapframe psz → psz.toNat < 2 ^ 32 →
      ∃ s' sz, growprocs endk root ns s psz = some (s', sz) ∧ sz.toNat < 2 ^ 32 ∧
        Space s' endk root trampoline trapframe sz ∧
        ∀ x, Pool s root 0 psz x ↔ Pool s' root 0 sz x := by
  induction ns with
  | nil => exact fun s psz hsp hpsz => ⟨s, psz, rfl, hpsz, hsp, fun _ => Iff.rfl⟩
  | cons n ns ih =>
    intro s psz hsp hpsz
    obtain ⟨s₁, sz₁, r, h₁, hsz₁, hsp₁, hpool₁, -⟩ := growproc_spec n hendk hsp hpsz
    obtain ⟨s', sz, h, hsz, hsp', hpool⟩ := ih s₁ sz₁ hsp₁ hsz₁
    refine ⟨s', sz, ?_, hsz, hsp', fun x => (hpool₁ x).trans (hpool x)⟩
    rw [growprocs, h₁, Option.bind_some]
    exact h

/-- **No page is lost or taken twice over the life of a process's page table.** From a free
list of distinct pages of RAM, `proc_pagetable`, then any run of `sbrk` calls, then
`proc_freepagetable` leave on the free list exactly the pages that were there at the start,
each once; so does a `proc_pagetable` that fails. -/
theorem pagetable_lifetime {s : VmState} {endk trampoline trapframe : BitVec 64} (hendk : endk ≠ 0)
    (hnd : s.free.Nodup) (hfp : ∀ a ∈ s.free, a ≠ 0 ∧ Aligned a) (hram : Ram endk s)
    (ns : List (BitVec 32)) :
    ∃ s₁ pagetable, proc_pagetable endk trampoline trapframe s = some (s₁, pagetable) ∧
      (pagetable = 0 ∧ s₁.free.Nodup ∧ (∀ x, x ∈ s₁.free ↔ x ∈ s.free) ∨
        pagetable ≠ 0 ∧ ∃ s₂ sz s₃, growprocs endk pagetable ns s₁ 0 = some (s₂, sz) ∧
          proc_freepagetable endk s₂ pagetable sz = some s₃ ∧ s₃.free.Nodup ∧
          ∀ x, x ∈ s₃.free ↔ x ∈ s.free) := by
  obtain ⟨s₁, pt, h₁, -, hres⟩ :=
    @proc_pagetable_spec s endk trampoline trapframe hendk hnd hfp hram
  refine ⟨s₁, pt, h₁, hres.imp_right fun ⟨hpt, hsp, hpool₁⟩ => ⟨hpt, ?_⟩⟩
  obtain ⟨s₂, sz, h₂, -, hsp₂, hpool₂⟩ := growprocs_spec hendk ns s₁ 0 hsp (by decide)
  obtain ⟨s₃, h₃, hnd₃, -, hback, -⟩ := proc_freepagetable_spec hendk hsp₂
  refine ⟨s₂, sz, s₃, h₂, h₃, hnd₃, fun x => ?_⟩
  rw [hback, ← hpool₂, pool_empty_range (by decide) le_rfl, hpool₁]

/-- Four free pages of RAM: a page table is made from them, grows by a page, shrinks back, and
is freed. -/
theorem pagetable_lifetime_sbrk :
    ∃ s₁ pagetable, proc_pagetable 0x80020000 0x80030000 0x80031000
        ⟨fun _ => 0, [0x80021000, 0x80022000, 0x80023000, 0x80024000]⟩ = some (s₁, pagetable) ∧
      (pagetable = 0 ∧ s₁.free.Nodup ∧
          (∀ x, x ∈ s₁.free ↔ x ∈ [0x80021000, 0x80022000, 0x80023000, 0x80024000]) ∨
        pagetable ≠ 0 ∧ ∃ s₂ sz s₃, growprocs 0x80020000 pagetable [4096, -4096] s₁ 0 = some (s₂, sz) ∧
          proc_freepagetable 0x80020000 s₂ pagetable sz = some s₃ ∧ s₃.free.Nodup ∧
          ∀ x, x ∈ s₃.free ↔ x ∈ [0x80021000, 0x80022000, 0x80023000, 0x80024000]) :=
  pagetable_lifetime (by decide) (by decide)
    (fun a ha => by simp only [List.mem_cons, List.not_mem_nil, or_false] at ha; rcases ha with
      rfl | rfl | rfl | rfl <;> decide)
    (fun a ha => by simp only [List.mem_cons, List.not_mem_nil, or_false] at ha; rcases ha with
      rfl | rfl | rfl | rfl <;> decide)
    [4096, -4096]

end Xv6.Vm
