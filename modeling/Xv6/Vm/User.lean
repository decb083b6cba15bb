import Mathlib
import Xv6.Vm.PageTable

/-!
# User memory (kernel/vm.c): uvmdealloc, uvmalloc

A process's memory is the pages below its size `sz`, each mapped by a leaf PTE to a page of its
own. `uvmalloc` grows it a page at a time, taking a page from the allocator, zeroing it and
mapping it; when the allocator runs out it gives back what it took with `uvmdealloc`, which
unmaps and frees the pages above the smaller size with `uvmunmap`.

The pages a process owns (`Owned`) are leaf PTEs naming distinct pages of RAM above the kernel,
none of them a page-table page or free:

* `uvmunmapLoop_total`: `uvmunmap` of owned pages does not panic;
* `uvmdealloc_spec`: shrinking unmaps and frees the pages above the new size;
* `uvmallocLoop_spec`, `uvmalloc_spec`: growing returns, and either the process owns every new
  page, mapped `V|R|W|X|U`, or it returns 0 with every page it took given back; the pages free,
  page-table pages and owned are the same before and after (`Pool`).
-/

namespace Xv6.Vm

/-- `PGROUNDUP(sz)`, `((sz)+PGSIZE-1) & ~(PGSIZE-1)`. -/
def PGROUNDUP (sz : BitVec 64) : BitVec 64 :=
  (sz + (PGSIZE : BitVec 64) - 1) &&& ~~~((PGSIZE : BitVec 64) - 1)

/-- `uvmcreate()`: an empty user page table, a page of zeros from the allocator; 0 when there
is none. -/
def uvmcreate (s : VmState) : VmState × BitVec 64 :=
  let (s, pagetable) := kalloc s
  if pagetable = 0 then (s, 0)
  else (⟨memset s.mem pagetable 0 PGSIZE, s.free⟩, pagetable)

/-- `uvmdealloc(pagetable, oldsz, newsz)`: the pages from `PGROUNDUP(newsz)` below
`PGROUNDUP(oldsz)` are unmapped and freed. -/
def uvmdealloc (endk : BitVec 64) (s : VmState) (pagetable oldsz newsz : BitVec 64) :
    Option (VmState × BitVec 64) :=
  if newsz ≥ oldsz then some (s, oldsz)
  else if PGROUNDUP newsz < PGROUNDUP oldsz then
    -- `int npages = (PGROUNDUP(oldsz) - PGROUNDUP(newsz)) / PGSIZE;`
    let npages : BitVec 32 :=
      ((PGROUNDUP oldsz - PGROUNDUP newsz) / (PGSIZE : BitVec 64)).setWidth 32
    (uvmunmap endk s pagetable (PGROUNDUP newsz) (npages.signExtend 64) true).map fun s => (s, newsz)
  else some (s, newsz)

/-- `mappages` gets past `walk` only below `MAXVA`. -/
theorem lt_MAXVA_of_mappages {s : VmState} {pagetable va size pa : BitVec 64} {perm : BitVec 32}
    {r : VmState × ℤ} (h : mappages s pagetable va size pa perm = some r) :
    (PGROUNDDOWN va).toNat < 2 ^ 38 := by
  unfold mappages at h
  split_ifs at h
  rw [mappagesLoop] at h
  split at h
  · cases h
  · rename_i hw
    exact lt_MAXVA_of_walk hw

/-- The loop of `uvmalloc`, `for(a = oldsz; a < newsz; a += PGSIZE)` with `oldsz` rounded up:
`newsz`, or 0 once what it took is given back. -/
def uvmallocLoop (endk pagetable oldsz newsz : BitVec 64) (a : BitVec 64) (s : VmState) :
    Option (VmState × BitVec 64) :=
  if a < newsz then
    let (s, mem) := kalloc s
    if mem = 0 then (uvmdealloc endk s pagetable a oldsz).map fun r => (r.1, 0)
    else
      let s : VmState := ⟨memset s.mem mem 0 PGSIZE, s.free⟩
      match h : mappages s pagetable a PGSIZE mem ((PTE_W ||| PTE_X ||| PTE_R ||| PTE_U).setWidth 32) with
      | none => none
      | some (s, r) =>
        if r ≠ 0 then
          match kfree endk s mem with
          | none => none
          | some s => (uvmdealloc endk s pagetable a oldsz).map fun r => (r.1, 0)
        else uvmallocLoop endk pagetable oldsz newsz (a + PGSIZE) s
  else some (s, newsz)
termination_by 2 ^ 38 - a.toNat
decreasing_by
  have ha := lt_MAXVA_of_mappages h
  rw [toNat_PGROUNDDOWN] at ha
  have : (a + (PGSIZE : BitVec 64)).toNat = a.toNat + 4096 := by
    rw [BitVec.toNat_add, show (PGSIZE : BitVec 64).toNat = 4096 from rfl]
    omega
  omega

/-- `uvmalloc(pagetable, oldsz, newsz)`: the new size, or 0. -/
def uvmalloc (endk : BitVec 64) (s : VmState) (pagetable oldsz newsz : BitVec 64) :
    Option (VmState × BitVec 64) :=
  if newsz < oldsz then some (s, oldsz)
  else uvmallocLoop endk pagetable (PGROUNDUP oldsz) newsz (PGROUNDUP oldsz) s

/-! ### Rounding up -/

theorem PGROUNDUP_eq (sz : BitVec 64) :
    PGROUNDUP sz = PGROUNDDOWN (sz + (PGSIZE : BitVec 64) - 1) := rfl

theorem toNat_PGROUNDUP {sz : BitVec 64} (h : sz.toNat + (PGSIZE - 1) < 2 ^ 64) :
    (PGROUNDUP sz).toNat = (sz.toNat + (PGSIZE - 1)) / PGSIZE * PGSIZE := by
  rw [PGROUNDUP_eq, toNat_PGROUNDDOWN, BitVec.toNat_sub, BitVec.toNat_add]
  simp only [show (PGSIZE : BitVec 64).toNat = PGSIZE from rfl, show (1 : BitVec 64).toNat = 1 from rfl]
  unfold PGSIZE at *
  omega

theorem aligned_PGROUNDUP (sz : BitVec 64) : Aligned (PGROUNDUP sz) :=
  aligned_PGROUNDDOWN _

/-! ### `uvmunmap` of owned pages -/

/-- The pages a process owns from the page `a` up to `stop`: leaf PTEs naming distinct pages of
RAM above the kernel, none of them a page-table page or free. -/
structure Owned (s : VmState) (root endk a stop : BitVec 64) : Prop extends
    Freeable s root a stop where
  valid : ∀ va, InRange a stop va → translate s.mem root va &&& PTE_V ≠ 0
  leaf : ∀ va, InRange a stop va → PTE_FLAGS (translate s.mem root va) ≠ PTE_V
  ram : ∀ va, InRange a stop va → endk ≤ PTE2PA (translate s.mem root va) ∧
    PTE2PA (translate s.mem root va) < (PHYSTOP : BitVec 64)

/-- A range that starts at a page at or above its bound is empty. -/
theorem not_inRange_of_le {a stop va : BitVec 64} (ha : Aligned a) (h : stop.toNat ≤ a.toNat) :
    ¬ InRange a stop va := by
  unfold InRange
  rw [toNat_PGROUNDDOWN]
  unfold Aligned PGSIZE at *
  omega

/-- A process owns every page of an empty range. -/
theorem Owned.empty {s : VmState} {root endk lo : BitVec 64} (hlo : Aligned lo) :
    Owned s root endk lo lo := by
  have hnone : ∀ va, ¬ InRange lo lo va := fun va => not_inRange_of_le hlo le_rfl
  exact ⟨⟨fun va h => absurd h (hnone va), fun va h => absurd h (hnone va),
    fun va _ h => absurd h (hnone va)⟩, fun va h => absurd h (hnone va),
    fun va h => absurd h (hnone va), fun va h => absurd h (hnone va)⟩

/-- `kfree` of a page of RAM above the kernel does not panic. -/
theorem kfree_of_ram (endk : BitVec 64) (s : VmState) {pa : BitVec 64} (hpa : Aligned pa)
    (hge : endk ≤ pa) (hlt : pa < (PHYSTOP : BitVec 64)) :
    kfree endk s pa = some ⟨memset s.mem pa 1 PGSIZE, pa :: s.free⟩ := by
  rw [kfree, if_neg]
  rintro (h | h | h)
  · exact h (umod_of_aligned hpa)
  · exact absurd hge (BitVec.not_le.2 h)
  · exact absurd hlt (BitVec.not_lt.2 h)

/-- After the round at `a`, the rest of the range is still owned. -/
theorem Owned.next {s s₂ : VmState} {root endk a stop : BitVec 64} (ho : Owned s root endk a stop)
    (ha : Aligned a) (ha38 : a.toNat < 2 ^ 38) (hlt : a.toNat < stop.toNat)
    (htab : ∀ t', Table s₂.mem root t' ↔ Table s.mem root t')
    (hfree : s₂.free = PTE2PA (translate s.mem root a) :: s.free)
    (htr : ∀ va, InRange (a + (PGSIZE : BitVec 64)) stop va →
      translate s₂.mem root va = translate s.mem root va) :
    Owned s₂ root endk (a + (PGSIZE : BitVec 64)) stop := by
  have hin : ∀ va, InRange (a + (PGSIZE : BitVec 64)) stop va → InRange a stop va :=
    fun va h => (inRange_iff_next ha ha38 hlt).2 (Or.inr h)
  refine ⟨ho.toFreeable.next ha ha38 hlt htab hfree htr, fun va h => ?_, fun va h => ?_,
    fun va h => ?_⟩
  · rw [htr va h]
    exact ho.valid va (hin va h)
  · rw [htr va h]
    exact ho.leaf va (hin va h)
  · rw [htr va h]
    exact ho.ram va (hin va h)

/-- **`uvmunmap` of owned pages does not panic.** -/
theorem uvmunmapLoop_total {root endk stop : BitVec 64} (hendk : endk ≠ 0)
    (hstop : stop.toNat ≤ 2 ^ 38) (a : BitVec 64) :
    ∀ s : VmState, Wf s root → Aligned a → Owned s root endk a stop →
      ∃ s', uvmunmapLoop endk root stop true a s = some s' := by
  induction hn : 2 ^ 38 - a.toNat using Nat.strongRecOn generalizing a with
  | _ n ih =>
  intro s hwf ha ho
  rw [uvmunmapLoop]
  by_cases hlt : a < stop
  swap
  · exact ⟨s, if_neg hlt⟩
  rw [if_pos hlt]
  have hlt' : a.toNat < stop.toNat := BitVec.lt_def.1 hlt
  have ha38 : a.toNat < 2 ^ 38 := by omega
  have hself : InRange a stop a := (inRange_iff_next ha ha38 hlt').2 (Or.inl ⟨ha38, rfl⟩)
  -- the page of `a` is mapped, so its level-0 page-table page exists
  have hv := ho.valid a hself
  obtain ⟨t, ht⟩ := level0_of_valid hv
  have hslot : t + 8 * PX 0 a ≠ 0 := by
    rw [← ofNat_px]
    exact hwf.slot_ne_zero (table_of_node (by simp) ht) _
  rw [walk_false s root (BitVec.lt_def.2 (by rw [toNat_MAXVA]; exact ha38))]
  simp only [ht, if_neg hslot, loadPte_slot ht, if_neg hv, if_neg (ho.leaf a hself)]
  obtain ⟨hge, hram⟩ := ho.ram a hself
  rw [kfree_of_ram endk s (PTE2PA_mod _) hge hram]
  have hk : (if true = true then kfree endk s (PTE2PA (loadPte s.mem (t + 8 * PX 0 a))) else some s) =
      some ⟨memset s.mem (PTE2PA (translate s.mem root a)) 1 PGSIZE,
        PTE2PA (translate s.mem root a) :: s.free⟩ := by
    rw [if_pos rfl, loadPte_slot ht, kfree_of_ram endk s (PTE2PA_mod _) hge hram]
  obtain ⟨hwf₂, htab, hfree₁, htr⟩ := uvmunmap_round hwf ht ha38
    (fun _ => ⟨hendk, ho.not_table a hself, ho.not_free a hself⟩) hk
  have hrest : ∀ va, InRange (a + (PGSIZE : BitVec 64)) stop va →
      translate (storePte (memset s.mem (PTE2PA (translate s.mem root a)) 1 PGSIZE)
        (t + 8 * PX 0 a) 0) root va = translate s.mem root va := by
    intro va hin
    have hne : va.toNat / PGSIZE ≠ a.toNat / PGSIZE :=
      fun hpage => absurd (lt_next_of_page ha38 hpage) (Nat.not_lt.2 hin.2.1)
    rw [htr va hin.1, if_neg hne]
  have hlt₂ : 2 ^ 38 - (a + (PGSIZE : BitVec 64)).toNat < n := by
    rw [toNat_add_PGSIZE ha38]
    unfold PGSIZE
    omega
  exact ih _ hlt₂ (a + (PGSIZE : BitVec 64)) rfl _ hwf₂ (aligned_add_PGSIZE ha ha38)
    (ho.next ha ha38 hlt' htab (by rw [hfree₁, if_pos rfl]) hrest)

/-! ### `uvmdealloc` -/

/-- A count of pages below `2^31` survives `int npages`. -/
theorem signExtend_setWidth {x : BitVec 64} (h : x.toNat < 2 ^ 31) :
    (x.setWidth 32).signExtend 64 = x := by
  have hmsb : (x.setWidth 32).msb = false := by
    rw [BitVec.msb_eq_false_iff_two_mul_lt, BitVec.toNat_setWidth]
    omega
  rw [BitVec.signExtend_eq_setWidth_of_msb_false hmsb]
  apply BitVec.eq_of_toNat_eq
  rw [BitVec.toNat_setWidth, BitVec.toNat_setWidth]
  omega

theorem toNat_PGROUNDUP_le {sz : BitVec 64} (h : sz.toNat ≤ 2 ^ 38) :
    (PGROUNDUP sz).toNat ≤ 2 ^ 38 := by
  rw [toNat_PGROUNDUP (by unfold PGSIZE; omega)]
  unfold PGSIZE
  omega

/-- The bound of the loop `uvmunmap` runs for `uvmdealloc` is `PGROUNDUP(oldsz)`. -/
theorem uvmdealloc_stop {lo hi : BitVec 64} (hlo : Aligned lo) (hhi : Aligned hi)
    (hlt : lo.toNat < hi.toNat) (hle : hi.toNat ≤ 2 ^ 38) :
    lo + (((hi - lo) / (PGSIZE : BitVec 64)).setWidth 32).signExtend 64 * PGSIZE = hi := by
  have hsub : (hi - lo).toNat = hi.toNat - lo.toNat := BitVec.toNat_sub_of_le (BitVec.le_def.2 (by omega))
  have hdiv : ((hi - lo) / (PGSIZE : BitVec 64)).toNat = (hi.toNat - lo.toNat) / PGSIZE := by
    rw [BitVec.toNat_udiv, hsub]
    rfl
  rw [signExtend_setWidth (by rw [hdiv]; unfold PGSIZE; omega)]
  apply BitVec.eq_of_toNat_eq
  rw [BitVec.toNat_add, BitVec.toNat_mul, hdiv, show (PGSIZE : BitVec 64).toNat = PGSIZE from rfl]
  unfold Aligned PGSIZE at *
  omega

/-- Shrinking runs the loop of `uvmunmap` over the pages from `PGROUNDUP(newsz)` below
`PGROUNDUP(oldsz)`. -/
theorem uvmdealloc_eq (endk : BitVec 64) (s : VmState) (root : BitVec 64) {oldsz newsz : BitVec 64}
    (hlt : newsz < oldsz) (hold : oldsz.toNat ≤ 2 ^ 38) :
    uvmdealloc endk s root oldsz newsz =
      (uvmunmapLoop endk root (PGROUNDUP oldsz) true (PGROUNDUP newsz) s).map fun s => (s, newsz) := by
  rw [uvmdealloc, if_neg (BitVec.not_le.2 hlt)]
  by_cases hup : PGROUNDUP newsz < PGROUNDUP oldsz
  · rw [if_pos hup]
    dsimp only
    rw [uvmunmap, if_neg (not_not.2 (umod_of_aligned (aligned_PGROUNDUP newsz))), uvmdealloc_stop (aligned_PGROUNDUP newsz) (aligned_PGROUNDUP oldsz)
      (BitVec.lt_def.1 hup) (toNat_PGROUNDUP_le hold)]
  · -- the same last page: the loop has nothing to do
    rw [if_neg hup, uvmunmapLoop, if_neg hup]
    rfl

/-- **Shrinking unmaps and frees the pages above the new size.** When `newsz < oldsz ≤ MAXVA`
and the process owns the pages from `PGROUNDUP(newsz)` below `PGROUNDUP(oldsz)`, `uvmdealloc`
returns `newsz`, those pages translate to 0 and are on the free list, every other page
translates as before, and no byte but those of page-table pages and of the freed pages changes. -/
theorem uvmdealloc_spec {s : VmState} {root endk oldsz newsz : BitVec 64} (hwf : Wf s root)
    (hendk : endk ≠ 0) (hlt : newsz < oldsz) (hold : oldsz.toNat ≤ 2 ^ 38)
    (ho : Owned s root endk (PGROUNDUP newsz) (PGROUNDUP oldsz)) :
    ∃ s', uvmdealloc endk s root oldsz newsz = some (s', newsz) ∧ Wf s' root ∧
      (∀ t, Table s'.mem root t ↔ Table s.mem root t) ∧
      Unmapped s.mem s'.mem root (PGROUNDUP newsz) (PGROUNDUP oldsz) ∧
      PageFrame s.mem s'.mem (fun p => Table s.mem root p ∨
        ∃ va, InRange (PGROUNDUP newsz) (PGROUNDUP oldsz) va ∧ p = PTE2PA (translate s.mem root va)) ∧
      ∀ x, x ∈ s'.free ↔ x ∈ s.free ∨
        ∃ va, InRange (PGROUNDUP newsz) (PGROUNDUP oldsz) va ∧ x = PTE2PA (translate s.mem root va) := by
  obtain ⟨s', hs'⟩ := uvmunmapLoop_total hendk (toNat_PGROUNDUP_le hold) _ s hwf
    (aligned_PGROUNDUP newsz) ho
  obtain ⟨hwf', htab, hun, hframe, hfree⟩ := uvmunmapLoop_spec _ s s' hwf (aligned_PGROUNDUP newsz)
    (fun _ => ⟨hendk, ho.toFreeable⟩) hs'
  refine ⟨s', by rw [uvmdealloc_eq endk s root hlt hold, hs']; rfl, hwf', htab, hun, hframe,
    fun x => ?_⟩
  rw [hfree x]
  simp

/-! ### `mappages` of one page -/

theorem PGROUNDDOWN_add_PGSIZE_sub_one {a : BitVec 64} (ha : Aligned a) (ha38 : a.toNat ≤ 2 ^ 38) :
    PGROUNDDOWN (a + (PGSIZE : BitVec 64) - 1) = a := by
  apply PGROUNDDOWN_eq ha
  rw [BitVec.toNat_sub, BitVec.toNat_add]
  simp only [show (PGSIZE : BitVec 64).toNat = PGSIZE from rfl, show (1 : BitVec 64).toNat = 1 from rfl]
  unfold Aligned PGSIZE at *
  omega

theorem PGROUNDUP_of_aligned {a : BitVec 64} (ha : Aligned a) (ha38 : a.toNat ≤ 2 ^ 38) :
    PGROUNDUP a = a :=
  PGROUNDDOWN_add_PGSIZE_sub_one ha ha38

/-- `mappages` of one page: -1 with the free list used up and no translation changed, or 0 with
the page mapped and no other translation changed; the pages it takes from the front of the free
list become page-table pages. -/
theorem mappages_page {s s' : VmState} {root a pa : BitVec 64} {perm : BitVec 32} {ret : ℤ}
    (hwf : Wf s root) (ha : Aligned a) (h : mappages s root a PGSIZE pa perm = some (s', ret)) :
    Wf s' root ∧
      (∃ taken, s.free = taken ++ s'.free ∧
        ∀ t, Table s'.mem root t ↔ Table s.mem root t ∨ t ∈ taken) ∧
      PageFrame s.mem s'.mem (fun p => Table s.mem root p ∨ p ∈ s.free) ∧
      (ret = -1 ∧ s'.free = [] ∧ (∀ va, translate s'.mem root va = translate s.mem root va) ∨
        ret = 0 ∧ ∀ va, va.toNat < 2 ^ 38 → translate s'.mem root va =
          if va.toNat / PGSIZE = a.toNat / PGSIZE then PA2PTE pa ||| perm.signExtend 64 ||| PTE_V
          else translate s.mem root va) := by
  have ha38 := lt_MAXVA_of_mappages h
  rw [PGROUNDDOWN_of_aligned ha] at ha38
  rw [mappages, if_neg (by decide), PGROUNDDOWN_add_PGSIZE_sub_one ha ha38.le, PGROUNDDOWN_of_aligned ha,
    mappagesLoop] at h
  split at h
  · cases h
  rename_i s₁ r hw
  have hwalk := walk_true hwf hw
  have hframe := walk_true_frame hwf hw
  split_ifs at h with h0 hv
  · -- `walk` ran out of pages
    cases h
    obtain ⟨-, hfree⟩ | ⟨t, ht, rfl⟩ := hwalk.result
    · exact ⟨hwalk.wf, hwalk.taken, hframe, .inl ⟨rfl, hfree, hwalk.translate_eq⟩⟩
    · refine absurd h0 ?_
      rw [← ofNat_px]
      exact hwalk.wf.slot_ne_zero (table_of_node (by simp) ht) _
  · obtain ⟨h0', -⟩ | ⟨t, ht, rfl⟩ := hwalk.result
    · exact absurd h0' h0
    obtain ⟨hwf', htab, htr⟩ := hwalk.wf.store ht (PA2PTE pa ||| perm.signExtend 64 ||| PTE_V)
    cases h
    obtain ⟨taken, hfree, htaken⟩ := hwalk.taken
    -- the leaf PTE goes into the level-0 page-table page, old or taken from the free list
    have hstore : PageFrame s₁.mem (storePte s₁.mem (t + 8 * PX 0 a)
        (PA2PTE pa ||| perm.signExtend 64 ||| PTE_V)) (· = t) := by
      rw [← ofNat_px]
      exact pageFrame_storePte (hwalk.wf.aligned_of_table (table_of_node (by simp) ht)) _ _
    refine ⟨hwf', ⟨taken, hfree, fun t' => (htab t').trans (htaken t')⟩,
      (hframe.trans hstore).mono fun p hp => ?_, .inr ⟨rfl, fun va hva => ?_⟩⟩
    · rcases hp with hp | rfl
      · exact hp
      · rcases (htaken p).1 (table_of_node (by simp) ht) with hp | hp
        · exact .inl hp
        · exact .inr (by rw [hfree]; exact List.mem_append_left _ hp)
    · rw [htr va, hwalk.translate_eq]
      exact if_congr (px_eq_iff (by omega) (by omega)) rfl rfl
  · exact absurd rfl ‹¬a = a›

/-- `mappages` of one unmapped page below `MAXVA`: -1 when `walk` runs out of pages, and 0
otherwise, with the leaf PTE in the slot `walk` returns. -/
theorem mappages_page_eq {s : VmState} {root a : BitVec 64} (pa : BitVec 64) (perm : BitVec 32)
    (hwf : Wf s root) (ha : Aligned a) (ha38 : a.toNat < 2 ^ 38)
    (hv : translate s.mem root a &&& PTE_V = 0) :
    mappages s root a PGSIZE pa perm =
      if (walkLoop a true 2 root s).2 = 0 then some ((walkLoop a true 2 root s).1, -1)
      else some (⟨storePte (walkLoop a true 2 root s).1.mem (walkLoop a true 2 root s).2
        (PA2PTE pa ||| perm.signExtend 64 ||| PTE_V), (walkLoop a true 2 root s).1.free⟩, 0) := by
  rw [mappages, if_neg (by decide), PGROUNDDOWN_add_PGSIZE_sub_one ha ha38.le,
    PGROUNDDOWN_of_aligned ha, mappagesLoop]
  have hw : walk s root a true = some (walkLoop a true 2 root s) := by
    rw [walk, if_neg (BitVec.not_le.2 (BitVec.lt_def.2 (by rw [toNat_MAXVA]; exact ha38)))]
  split
  · rename_i hnone
    rw [hw] at hnone
    cases hnone
  rename_i s₁ r hw'
  have hwalk := walk_true hwf hw'
  rw [hw, Option.some.injEq] at hw'
  rw [hw']
  dsimp only
  by_cases h0 : r = 0
  · rw [if_pos h0, if_pos h0]
  rw [if_neg h0, if_neg h0]
  -- the slot holds the old leaf PTE, which is not valid
  obtain ⟨h0', -⟩ | ⟨t, ht, rfl⟩ := hwalk.result
  · exact absurd h0' h0
  rw [if_neg (by rw [loadPte_slot ht, hwalk.translate_eq]; exact not_not.2 hv), if_pos rfl]

/-- `mappages` of one unmapped page below `MAXVA` does not panic. -/
theorem mappages_page_total {s : VmState} {root a : BitVec 64} (pa : BitVec 64) (perm : BitVec 32)
    (hwf : Wf s root) (ha : Aligned a) (ha38 : a.toNat < 2 ^ 38)
    (hv : translate s.mem root a &&& PTE_V = 0) :
    ∃ r, mappages s root a PGSIZE pa perm = some r := by
  rw [mappages_page_eq pa perm hwf ha ha38 hv]
  split_ifs
  exacts [⟨_, rfl⟩, ⟨_, rfl⟩]

/-- `mappages` of one unmapped page below `MAXVA`, with a free page for each page-table page
`walk` may need, returns 0. -/
theorem mappages_page_of_room {s : VmState} {root a : BitVec 64} (pa : BitVec 64) (perm : BitVec 32)
    (hwf : Wf s root) (ha : Aligned a) (ha38 : a.toNat < 2 ^ 38)
    (hv : translate s.mem root a &&& PTE_V = 0) (hroom : 2 ≤ s.free.length) :
    ∃ s', mappages s root a PGSIZE pa perm = some (s', 0) := by
  rw [mappages_page_eq pa perm hwf ha ha38 hv,
    if_neg (walkLoop_true_ne_zero ha38 2 s [] root hwf rfl rfl hroom)]
  exact ⟨_, rfl⟩

/-! ### `uvmalloc` -/

/-- The permissions `uvmalloc` maps with, `PTE_W|PTE_X|PTE_R|PTE_U` through `int perm`. -/
theorem perm_uvmalloc : ((PTE_W ||| PTE_X ||| PTE_R ||| PTE_U).setWidth 32).signExtend 64 = 0x1E := by
  decide

/-- The leaf PTE of a page `uvmalloc` maps names the page, with the flags `V|R|W|X|U`. -/
theorem userPte_fields {r : BitVec 64} (hr : Aligned r) :
    PTE2PA (PA2PTE r ||| 0x1E ||| PTE_V) = r ∧ PTE_FLAGS (PA2PTE r ||| 0x1E ||| PTE_V) = 0x1F := by
  rw [BitVec.or_assoc, PTE2PA_PA2PTE_or r _ (by decide), PGROUNDDOWN_of_aligned hr,
    PTE_FLAGS_PA2PTE_or r _ (by decide)]
  exact ⟨rfl, by decide⟩

/-- Every free page is a page of RAM above the kernel. -/
def Ram (endk : BitVec 64) (s : VmState) : Prop :=
  ∀ x ∈ s.free, endk ≤ x ∧ x < (PHYSTOP : BitVec 64)

/-- The pages on the free list, the page-table pages, and the pages the process owns from `lo`
below `hi`: what `uvmalloc` moves pages between. -/
def Pool (s : VmState) (root lo hi x : BitVec 64) : Prop :=
  x ∈ s.free ∨ Table s.mem root x ∨ ∃ va, InRange lo hi va ∧ x = PTE2PA (translate s.mem root va)

/-- `kalloc()` and a change of the page it returns: the first free page leaves the free list and
every page-table page keeps its entries. -/
theorem Wf.take_with {s : VmState} {root r : BitVec 64} {rest : List (BitVec 64)} {mem : Memory}
    (hwf : Wf s root) (hfree : s.free = r :: rest) (hm : PageFrame s.mem mem (· = r)) :
    Wf ⟨mem, rest⟩ root ∧ Agree s.mem mem root := by
  have hrmem : r ∈ s.free := hfree ▸ List.mem_cons_self
  have hag : Agree s.mem mem root :=
    hm.agree hwf.toPageTable fun t ht e => hwf.fresh r hrmem (e ▸ ht)
  have hnd := hwf.nodup
  rw [hfree, List.nodup_cons] at hnd
  refine ⟨⟨hag.pageTable hwf.toPageTable, hag.links hwf.links, hag.high hwf.high, hnd.2,
    fun a ha => ?_, fun a ha hat => ?_⟩, hag⟩
  · exact hwf.free_page a (hfree ▸ List.mem_cons_of_mem _ ha)
  · exact hwf.fresh a (hfree ▸ List.mem_cons_of_mem _ ha) ((hag.table a).1 hat)

/-- `uvmcreate` returns 0 when the free list is empty, and otherwise its first page, now a
well-formed page table that maps nothing; it writes only that page. -/
theorem uvmcreate_spec {s : VmState} (hnd : s.free.Nodup)
    (hfp : ∀ a ∈ s.free, a ≠ 0 ∧ Aligned a) :
    (uvmcreate s).2 = 0 ∧ s.free = [] ∧ (uvmcreate s).1 = s ∨
      s.free = (uvmcreate s).2 :: (uvmcreate s).1.free ∧ Wf (uvmcreate s).1 (uvmcreate s).2 ∧
      (∀ t, Table (uvmcreate s).1.mem (uvmcreate s).2 t ↔ t = (uvmcreate s).2) ∧
      (∀ va, translate (uvmcreate s).1.mem (uvmcreate s).2 va = 0) ∧
      PageFrame s.mem (uvmcreate s).1.mem (· = (uvmcreate s).2) := by
  cases hfree : s.free with
  | nil =>
    refine .inl ⟨?_, rfl, ?_⟩ <;> rw [uvmcreate, kalloc_nil hfree] <;> rfl
  | cons r rest =>
    have hr := hfp r (by rw [hfree]; exact List.mem_cons_self)
    rw [hfree, List.nodup_cons] at hnd
    have hz : ∀ i, entry (memset (memset s.mem r 5 PGSIZE) r 0 PGSIZE) r i = 0 :=
      entry_memset_self hr.2
    rw [uvmcreate, kalloc_cons hfree]
    dsimp only
    rw [if_neg hr.1]
    refine .inr ⟨rfl, wf_of_zero hz hr.2 hr.1 hnd.2
      (fun a ha => hfp a (by rw [hfree]; exact List.mem_cons_of_mem _ ha)) hnd.1,
      fun t => ⟨table_of_zero hz, fun e => e ▸ ⟨[], Nat.zero_le _, rfl⟩⟩, translate_of_zero hz, ?_⟩
    exact ((pageFrame_memset hr.2 5 : PageFrame s.mem _ _).trans (pageFrame_memset hr.2 0)).mono
      fun _ hp => hp.elim id id

/-- `kalloc()` and then `memset(mem, 0, PGSIZE)`. -/
theorem Wf.take {s : VmState} {root r : BitVec 64} {rest : List (BitVec 64)} (hwf : Wf s root)
    (hfree : s.free = r :: rest) :
    Wf ⟨memset (memset s.mem r 5 PGSIZE) r 0 PGSIZE, rest⟩ root ∧
      Agree s.mem (memset (memset s.mem r 5 PGSIZE) r 0 PGSIZE) root := by
  have hr := (hwf.free_page r (hfree ▸ List.mem_cons_self)).2
  exact hwf.take_with hfree (((pageFrame_memset hr 5 : PageFrame s.mem _ _).trans
    (pageFrame_memset hr 0)).mono fun _ hp => hp.elim id id)

/-- `memset` of a page sets each of its bytes. -/
theorem memset_of_page {mem : Memory} {r b : BitVec 64} (hr : Aligned r) (hb : PGROUNDDOWN b = r)
    (c : UInt8) : memset mem r c PGSIZE b = c := by
  have h := congrArg BitVec.toNat hb
  rw [toNat_PGROUNDDOWN] at h
  rw [memset_page hr, if_pos (by unfold PGSIZE; omega)]

/-- A page as `uvmalloc` maps it: the flags `V|R|W|X|U`, and every byte 0. -/
def Fresh (pte : BitVec 64) (mem : Memory) : Prop :=
  PTE_FLAGS pte = 0x1F ∧ ∀ b, PGROUNDDOWN b = PTE2PA pte → mem b = 0

/-- The range up to the page after `a` is the range up to `a` and the page of `a`. -/
theorem inRange_next_stop {lo a va : BitVec 64} (hlo : Aligned lo) (ha : Aligned a)
    (hle : lo.toNat ≤ a.toNat) (ha38 : a.toNat < 2 ^ 38) :
    InRange lo (a + (PGSIZE : BitVec 64)) va ↔
      InRange lo a va ∨ va.toNat < 2 ^ 38 ∧ va.toNat / PGSIZE = a.toNat / PGSIZE := by
  unfold InRange
  rw [toNat_add_PGSIZE ha38, toNat_PGROUNDDOWN]
  unfold Aligned PGSIZE at *
  omega

/-- The range from `lo` is split at the page `a`. -/
theorem inRange_split {lo a stop va : BitVec 64} (ha : Aligned a) (hin : InRange lo stop va) :
    InRange lo a va ∨ InRange a stop va := by
  unfold InRange at *
  rw [toNat_PGROUNDDOWN] at *
  unfold Aligned PGSIZE at *
  omega

/-- The pages from `a` on lie above the range below `a`. -/
theorem InRange.not_below {lo a stop va : BitVec 64} (ha : Aligned a) (h : InRange a stop va) :
    ¬ InRange lo a va := by
  unfold InRange at *
  rw [toNat_PGROUNDDOWN] at *
  unfold Aligned PGSIZE at *
  omega

/-- The page of `a`, below the bound, lies in the range from `lo`. -/
theorem inRange_of_page {lo a stop va : BitVec 64} (ha : Aligned a) (hle : lo.toNat ≤ a.toNat)
    (hlt : a.toNat < stop.toNat) (hva : va.toNat < 2 ^ 38)
    (hpage : va.toNat / PGSIZE = a.toNat / PGSIZE) : InRange lo stop va := by
  unfold InRange
  rw [toNat_PGROUNDDOWN]
  unfold Aligned PGSIZE at *
  omega

/-- The page of `a` lies below the range from the next page. -/
theorem not_inRange_next_of_page {a stop va : BitVec 64} (ha38 : a.toNat < 2 ^ 38)
    (hpage : va.toNat / PGSIZE = a.toNat / PGSIZE) :
    ¬ InRange (a + (PGSIZE : BitVec 64)) stop va :=
  fun h => absurd (lt_next_of_page ha38 hpage) (Nat.not_lt.2 h.2.1)

/-- Owned pages stay owned over a smaller range. -/
theorem Owned.mono {s : VmState} {root endk a stop a' stop' : BitVec 64}
    (ho : Owned s root endk a stop) (h : ∀ va, InRange a' stop' va → InRange a stop va) :
    Owned s root endk a' stop' :=
  ⟨⟨fun va hin => ho.not_table va (h va hin), fun va hin => ho.not_free va (h va hin),
    fun va va' hin hin' => ho.injective va va' (h va hin) (h va' hin')⟩,
    fun va hin => ho.valid va (h va hin), fun va hin => ho.leaf va (h va hin),
    fun va hin => ho.ram va (h va hin)⟩

/-- Owned pages stay owned when their translations stay and every free page and page-table page
was a free page or a page-table page before. -/
theorem Owned.of_free {s s' : VmState} {root endk a stop : BitVec 64} (ho : Owned s root endk a stop)
    (htr : ∀ va, InRange a stop va → translate s'.mem root va = translate s.mem root va)
    (hnew : ∀ x, x ∈ s'.free ∨ Table s'.mem root x → x ∈ s.free ∨ Table s.mem root x) :
    Owned s' root endk a stop := by
  refine ⟨⟨fun va hin ht => ?_, fun va hin hf => ?_, fun va va' hin hin' h => ?_⟩,
    fun va hin => ?_, fun va hin => ?_, fun va hin => ?_⟩ <;> rw [htr va hin] at *
  · rcases hnew _ (.inr ht) with hf | ht
    exacts [ho.not_free va hin hf, ho.not_table va hin ht]
  · rcases hnew _ (.inl hf) with hf | ht
    exacts [ho.not_free va hin hf, ho.not_table va hin ht]
  · rw [htr va' hin'] at h
    exact ho.injective va va' hin hin' h
  · exact ho.valid va hin
  · exact ho.leaf va hin
  · exact ho.ram va hin

/-- One successful round of a loop that maps fresh pages, at the page `a`, from `s` to `s₂`: the
first free page `r` is mapped at `a` by the valid leaf PTE `v`, the pages `walk` took from the
free list became page-table pages, no other translation changed, and only page-table pages and
free pages were written. -/
structure Round (s s₂ : VmState) (root a r v : BitVec 64) : Prop where
  names : PTE2PA v = r
  valid : v &&& PTE_V ≠ 0
  leaf : PTE_FLAGS v ≠ PTE_V
  taken : ∃ taken, s.free = r :: (taken ++ s₂.free) ∧
    ∀ t, Table s₂.mem root t ↔ Table s.mem root t ∨ t ∈ taken
  pte : ∀ va, va.toNat < 2 ^ 38 → translate s₂.mem root va =
    if va.toNat / PGSIZE = a.toNat / PGSIZE then v else translate s.mem root va
  writes : PageFrame s.mem s₂.mem fun p => Table s.mem root p ∨ p ∈ s.free

/-- The loop from `a` grew the process to `newsz`: it owns every page from `lo`, each new page
`va` has the property `Q va` of its PTE and of memory, no other translation changed, no page
joined or left the pool, and only page-table pages and free pages were written. -/
structure Grew (s s' : VmState) (root endk lo a newsz : BitVec 64)
    (Q : BitVec 64 → BitVec 64 → Memory → Prop) : Prop where
  owned : Owned s' root endk lo newsz
  new : ∀ va, InRange a newsz va → Q va (translate s'.mem root va) s'.mem
  frame : ∀ va, va.toNat < 2 ^ 38 → ¬ InRange a newsz va →
    translate s'.mem root va = translate s.mem root va
  pool : ∀ x, Pool s root lo a x ↔ Pool s' root lo newsz x
  writes : PageFrame s.mem s'.mem fun p => Table s.mem root p ∨ p ∈ s.free

/-- The loop from `a` gave back every page from `lo`: they translate to 0, every other page as
before, the pages it took are free again or page-table pages, and it wrote only pages of the
pool. -/
structure GaveBack (s s' : VmState) (root lo a newsz : BitVec 64) : Prop where
  cleared : ∀ va, InRange lo newsz va → translate s'.mem root va = 0
  frame : ∀ va, va.toNat < 2 ^ 38 → ¬ InRange lo newsz va →
    translate s'.mem root va = translate s.mem root va
  pool : ∀ x, Pool s root lo a x ↔ Pool s' root lo lo x
  writes : PageFrame s.mem s'.mem (Pool s root lo a)

section Round

variable {s s₂ : VmState} {root endk lo a r v : BitVec 64}

theorem Round.mem_free (hR : Round s s₂ root a r v) : r ∈ s.free := by
  obtain ⟨taken, hfree, -⟩ := hR.taken
  rw [hfree]
  exact List.mem_cons_self

theorem Round.aligned (hR : Round s s₂ root a r v) (hwf : Wf s root) : Aligned r :=
  (hwf.free_page r hR.mem_free).2

theorem Round.free_sub (hR : Round s s₂ root a r v) (hwf : Wf s root) {x : BitVec 64}
    (hx : x ∈ s₂.free) : x ∈ s.free ∧ x ≠ r := by
  obtain ⟨taken, hfree, -⟩ := hR.taken
  have hnd := hwf.nodup
  rw [hfree, List.nodup_cons] at hnd
  rw [hfree]
  refine ⟨List.mem_cons_of_mem _ (List.mem_append_right _ hx), fun e => hnd.1 ?_⟩
  rw [← e]
  exact List.mem_append_right _ hx

/-- The page-table pages after the round: those before, and pages that were free other than
`r`. -/
theorem Round.table (hR : Round s s₂ root a r v) (hwf : Wf s root) {t : BitVec 64}
    (ht : Table s₂.mem root t) : Table s.mem root t ∨ t ∈ s.free ∧ t ≠ r := by
  obtain ⟨taken, hfree, htab⟩ := hR.taken
  have hnd := hwf.nodup
  rw [hfree, List.nodup_cons] at hnd
  refine ((htab t).1 ht).imp_right fun htk => ⟨?_, fun e => hnd.1 ?_⟩
  · rw [hfree]
    exact List.mem_cons_of_mem _ (List.mem_append_left _ htk)
  · rw [← e]
    exact List.mem_append_left _ htk

/-- After the round `r` is neither a page-table page nor free. -/
theorem Round.not_pool (hR : Round s s₂ root a r v) (hwf : Wf s root) :
    ¬ Table s₂.mem root r ∧ r ∉ s₂.free := by
  refine ⟨fun ht => ?_, fun hf => (hR.free_sub hwf hf).2 rfl⟩
  rcases hR.table hwf ht with ht | ⟨-, hne⟩
  · exact hwf.fresh r hR.mem_free ht
  · exact hne rfl

/-- What the rest of the loop writes, after the round: page-table pages and free pages of
before. -/
theorem Round.writes_mono (hR : Round s s₂ root a r v) (hwf : Wf s root) {p : BitVec 64}
    (hp : Table s₂.mem root p ∨ p ∈ s₂.free) : Table s.mem root p ∨ p ∈ s.free := by
  rcases hp with ht | hf
  · exact (hR.table hwf ht).imp_right And.left
  · exact .inr (hR.free_sub hwf hf).1

theorem Round.table_of_table (hR : Round s s₂ root a r v) {t : BitVec 64}
    (ht : Table s.mem root t) : Table s₂.mem root t := by
  obtain ⟨taken, -, htab⟩ := hR.taken
  exact (htab t).2 (.inl ht)

theorem Round.translate_below (hR : Round s s₂ root a r v) (ha : Aligned a) {va : BitVec 64}
    (hin : InRange lo a va) : translate s₂.mem root va = translate s.mem root va := by
  have hne : va.toNat / PGSIZE ≠ a.toNat / PGSIZE := by
    have h := hin.2.2
    rw [toNat_PGROUNDDOWN] at h
    unfold Aligned PGSIZE at *
    omega
  rw [hR.pte va hin.1, if_neg hne]

theorem Round.translate_self (hR : Round s s₂ root a r v) (ha38 : a.toNat < 2 ^ 38) :
    translate s₂.mem root a = v := by
  rw [hR.pte a ha38, if_pos rfl]

/-- The pages of the range up to the next page: an old page, which translates as before, or the
page of `a`, which names `r`. -/
theorem Round.cases (hR : Round s s₂ root a r v) (hlo : Aligned lo) (ha : Aligned a)
    (hle : lo.toNat ≤ a.toNat) (ha38 : a.toNat < 2 ^ 38) {va : BitVec 64}
    (hin : InRange lo (a + (PGSIZE : BitVec 64)) va) :
    InRange lo a va ∧ translate s₂.mem root va = translate s.mem root va ∨
      translate s₂.mem root va = v := by
  rcases (inRange_next_stop hlo ha hle ha38).1 hin with hold | ⟨-, hpage⟩
  · exact .inl ⟨hold, hR.translate_below ha hold⟩
  · exact .inr (by rw [translate_eq_of_div hpage]; exact hR.translate_self ha38)

/-- The pages owned from `lo`: those before, and the page of `a`. -/
theorem Round.owned (hR : Round s s₂ root a r v) (hwf : Wf s root) (hlo : Aligned lo)
    (ha : Aligned a) (hle : lo.toNat ≤ a.toNat) (ha38 : a.toNat < 2 ^ 38)
    (ho : Owned s root endk lo a) (hram : Ram endk s) :
    Owned s₂ root endk lo (a + (PGSIZE : BitVec 64)) := by
  have hrfresh : ¬ Table s.mem root r := hwf.fresh r hR.mem_free
  -- an old page names a page that was not free; the page of `a` names `r`, which was
  have hne : ∀ va, InRange lo a va → PTE2PA (translate s.mem root va) ≠ r := fun va hold e =>
    ho.not_free va hold (e ▸ hR.mem_free)
  refine ⟨⟨fun va hin ht => ?_, fun va hin hf => ?_, fun va va' hin hin' he => ?_⟩,
    fun va hin => ?_, fun va hin => ?_, fun va hin => ?_⟩
  · rcases hR.cases hlo ha hle ha38 hin with ⟨hold, htr⟩ | htr <;> rw [htr] at ht
    · rcases hR.table hwf ht with ht | ⟨hf, -⟩
      · exact ho.not_table va hold ht
      · exact ho.not_free va hold hf
    · rw [hR.names] at ht
      rcases hR.table hwf ht with ht | ⟨-, hne⟩
      · exact hrfresh ht
      · exact hne rfl
  · rcases hR.cases hlo ha hle ha38 hin with ⟨hold, htr⟩ | htr <;> rw [htr] at hf
    · exact ho.not_free va hold (hR.free_sub hwf hf).1
    · rw [hR.names] at hf
      exact (hR.free_sub hwf hf).2 rfl
  · rcases hR.cases hlo ha hle ha38 hin with ⟨hold, htr⟩ | htr <;>
      rcases hR.cases hlo ha hle ha38 hin' with ⟨hold', htr'⟩ | htr' <;> rw [htr, htr'] at he
    · exact ho.injective va va' hold hold' he
    · rw [hR.names] at he
      exact absurd he (hne va hold)
    · rw [hR.names] at he
      exact absurd he.symm (hne va' hold')
    · -- both name `r`: both are the page of `a`
      rcases (inRange_next_stop hlo ha hle ha38).1 hin with hold | ⟨-, hpage⟩
      · rw [hR.translate_below ha hold] at htr
        exact absurd (by rw [htr, hR.names]) (hne va hold)
      rcases (inRange_next_stop hlo ha hle ha38).1 hin' with hold' | ⟨-, hpage'⟩
      · rw [hR.translate_below ha hold'] at htr'
        exact absurd (by rw [htr', hR.names]) (hne va' hold')
      exact hpage.trans hpage'.symm
  · rcases hR.cases hlo ha hle ha38 hin with ⟨hold, htr⟩ | htr <;> rw [htr]
    · exact ho.valid va hold
    · exact hR.valid
  · rcases hR.cases hlo ha hle ha38 hin with ⟨hold, htr⟩ | htr <;> rw [htr]
    · exact ho.leaf va hold
    · exact hR.leaf
  · rcases hR.cases hlo ha hle ha38 hin with ⟨hold, htr⟩ | htr <;> rw [htr]
    · exact ho.ram va hold
    · rw [hR.names]
      exact hram r hR.mem_free

/-- The pages the process owns up to the next page: those up to `a`, and `r`. -/
theorem Round.owned_iff (hR : Round s s₂ root a r v) (hlo : Aligned lo) (ha : Aligned a) (hle : lo.toNat ≤ a.toNat) (ha38 : a.toNat < 2 ^ 38) (x : BitVec 64) :
    (∃ va, InRange lo (a + (PGSIZE : BitVec 64)) va ∧ x = PTE2PA (translate s₂.mem root va)) ↔
      (∃ va, InRange lo a va ∧ x = PTE2PA (translate s.mem root va)) ∨ x = r := by
  have hr := hR.names
  constructor
  · rintro ⟨va, hin, rfl⟩
    rcases hR.cases hlo ha hle ha38 hin with ⟨hold, htr⟩ | htr
    · exact .inl ⟨va, hold, by rw [htr]⟩
    · exact .inr (by rw [htr, hr])
  · rintro (⟨va, hold, rfl⟩ | rfl)
    · exact ⟨va, (inRange_next_stop hlo ha hle ha38).2 (.inl hold),
        by rw [hR.translate_below ha hold]⟩
    · exact ⟨a, (inRange_next_stop hlo ha hle ha38).2 (.inr ⟨ha38, rfl⟩),
        by rw [hR.translate_self ha38, hr]⟩

/-- A round moves `r` from the free list to the process and the pages `walk` took from the free
list to the page-table pages: no page joins or leaves the pool. -/
theorem Round.pool (hR : Round s s₂ root a r v) (hlo : Aligned lo) (ha : Aligned a) (hle : lo.toNat ≤ a.toNat) (ha38 : a.toNat < 2 ^ 38) (x : BitVec 64) :
    Pool s root lo a x ↔ Pool s₂ root lo (a + (PGSIZE : BitVec 64)) x := by
  obtain ⟨taken, hfree, htab⟩ := hR.taken
  unfold Pool
  rw [hfree, htab x, hR.owned_iff hlo ha hle ha38 x, List.mem_cons, List.mem_append]
  simp only [or_assoc, or_left_comm, or_comm]

end Round

/-- The loop that stops at once has grown the process to `newsz`. -/
theorem Grew.stop {s : VmState} {root endk lo a newsz : BitVec 64} (ha : Aligned a)
    (hge : newsz.toNat ≤ a.toNat) (ho : Owned s root endk lo a)
    (hsub : ∀ va, InRange lo a va → InRange lo newsz va) (Q : BitVec 64 → BitVec 64 → Memory → Prop) :
    Grew s s root endk lo a newsz Q := by
  -- below `newsz` is below `a`
  have hsup : ∀ va, InRange lo newsz va → InRange lo a va :=
    fun va h => ⟨h.1, h.2.1, Nat.lt_of_lt_of_le h.2.2 hge⟩
  refine ⟨ho.mono hsup, fun va hin => absurd hin (not_inRange_of_le ha hge), fun _ _ _ => rfl,
    fun x => ?_, PageFrame.refl _ _⟩
  unfold Pool
  constructor
  · rintro (h | h | ⟨va, hin, rfl⟩)
    exacts [.inl h, .inr (.inl h), .inr (.inr ⟨va, hsub va hin, rfl⟩)]
  · rintro (h | h | ⟨va, hin, rfl⟩)
    exacts [.inl h, .inr (.inl h), .inr (.inr ⟨va, hsup va hin, rfl⟩)]

section Cons

variable {s s₂ s' : VmState} {root endk lo a r v newsz : BitVec 64}
  {Q : BitVec 64 → BitVec 64 → Memory → Prop}

/-- A round at `a` in front of a loop from the next page that grew the process, when what the
round gives the page of `a` depends only on the bytes of `r`, which the rest does not write. -/
theorem Grew.cons (hR : Round s s₂ root a r v) (hwf : Wf s root) (hlo : Aligned lo)
    (ha : Aligned a) (hle : lo.toNat ≤ a.toNat) (hlt : a.toNat < newsz.toNat)
    (ha38 : a.toNat < 2 ^ 38)
    (hQ : ∀ (va : BitVec 64) (mem : Memory), va.toNat / PGSIZE = a.toNat / PGSIZE →
      (∀ b, PGROUNDDOWN b = r → mem b = s₂.mem b) → Q va v mem)
    (hrest : Grew s₂ s' root endk lo (a + (PGSIZE : BitVec 64)) newsz Q) :
    Grew s s' root endk lo a newsz Q := by
  refine ⟨hrest.owned, fun va hin => ?_, fun va hva hout => ?_,
    fun x => (hR.pool hlo ha hle ha38 x).trans (hrest.pool x),
    (hR.writes.trans hrest.writes).mono fun p hp => hp.elim id (hR.writes_mono hwf)⟩
  · rcases (inRange_iff_next ha ha38 hlt).1 hin with ⟨hva, hpage⟩ | hnext
    · -- the page of this round keeps the PTE the round wrote, and `r` its bytes
      rw [hrest.frame va hva (not_inRange_next_of_page ha38 hpage), translate_eq_of_div hpage,
        hR.translate_self ha38]
      refine hQ va s'.mem hpage fun b hb => hrest.writes b ?_
      rw [hb]
      exact not_or.2 (hR.not_pool hwf)
    · exact hrest.new va hnext
  · have hout' := mt (inRange_iff_next ha ha38 hlt).2 hout
    rw [not_or] at hout'
    have hpage : va.toNat / PGSIZE ≠ a.toNat / PGSIZE := fun h => hout'.1 ⟨hva, h⟩
    rw [hrest.frame va hva hout'.2, hR.pte va hva, if_neg hpage]

/-- A round at `a` in front of a loop from the next page that gave back. -/
theorem GaveBack.cons (hR : Round s s₂ root a r v) (hlo : Aligned lo) (ha : Aligned a) (hle : lo.toNat ≤ a.toNat) (hlt : a.toNat < newsz.toNat)
    (ha38 : a.toNat < 2 ^ 38) (hrest : GaveBack s₂ s' root lo (a + (PGSIZE : BitVec 64)) newsz) :
    GaveBack s s' root lo a newsz := by
  refine ⟨hrest.cleared, fun va hva hout => ?_,
    fun x => (hR.pool hlo ha hle ha38 x).trans (hrest.pool x),
    (hR.writes.trans hrest.writes).mono fun p hp => ?_⟩
  swap
  · rcases hp with hp | hp
    · exact hp.elim (fun ht => .inr (.inl ht)) .inl
    · exact (hR.pool hlo ha hle ha38 p).2 hp
  -- the page of this round lies in the range, so a page outside it is another page
  have hpage : va.toNat / PGSIZE ≠ a.toNat / PGSIZE :=
    fun h => hout (inRange_of_page ha hle hlt hva h)
  rw [hrest.frame va hva hout, hR.pte va hva, if_neg hpage]

/-- A give-back from a state with the translations and the pool of `s`, reached writing only
pages of the pool. -/
theorem GaveBack.pre (hrest : GaveBack s₂ s' root lo a newsz)
    (htr : ∀ va, translate s₂.mem root va = translate s.mem root va)
    (hpool : ∀ x, Pool s root lo a x ↔ Pool s₂ root lo a x)
    (hw : PageFrame s.mem s₂.mem (Pool s root lo a)) : GaveBack s s' root lo a newsz :=
  ⟨hrest.cleared, fun va hva hout => (hrest.frame va hva hout).trans (htr va),
    fun x => (hpool x).trans (hrest.pool x),
    (hw.trans hrest.writes).mono fun p hp => hp.elim id (hpool p).2⟩

end Cons

/-- No page lies below `lo` and at or above it. -/
theorem pool_empty_range {s : VmState} {root lo hi x : BitVec 64} (hlo : Aligned lo)
    (hhi : hi.toNat ≤ lo.toNat) : Pool s root lo hi x ↔ x ∈ s.free ∨ Table s.mem root x := by
  have hnone : ¬ ∃ va, InRange lo hi va ∧ x = PTE2PA (translate s.mem root va) :=
    fun h => h.elim fun va hv => not_inRange_of_le hlo hhi hv.1
  rw [Pool, or_assoc.symm, or_iff_left hnone]

/-- The failure paths of a loop that maps fresh pages: `uvmunmap` of the pages from `lo` below
`a`, which the process owns, unmaps and frees them, and with those from `a` below `newsz`
unmapped already, the loop has given back. -/
theorem unmap_giveBack {s : VmState} {root endk lo a newsz : BitVec 64} (hendk : endk ≠ 0)
    (hwf : Wf s root) (hram : Ram endk s) (hlo : Aligned lo) (ha : Aligned a)
    (ha38 : a.toNat ≤ 2 ^ 38) (ho : Owned s root endk lo a)
    (hsub : ∀ va, InRange lo a va → InRange lo newsz va)
    (hzero : ∀ va, InRange a newsz va → translate s.mem root va = 0) :
    ∃ s', uvmunmapLoop endk root a true lo s = some s' ∧ Wf s' root ∧ Ram endk s' ∧
      GaveBack s s' root lo a newsz := by
  obtain ⟨s', hs'⟩ := uvmunmapLoop_total hendk ha38 lo s hwf hlo ho
  obtain ⟨hwf', htab, hun, hframe, hfree⟩ := uvmunmapLoop_spec lo s s' hwf hlo
    (fun _ => ⟨hendk, ho.toFreeable⟩) hs'
  refine ⟨s', hs', hwf', fun x hx => ?_, ⟨fun va hin => ?_, fun va hva hout => ?_, fun x => ?_,
    hframe.mono fun p hp => hp.elim (fun ht => .inr (.inl ht)) fun h => .inr (.inr h)⟩⟩
  · -- a freed page is a page the process owned, which is in RAM
    rcases (hfree x).1 hx with hx | ⟨-, va, hin, rfl⟩
    exacts [hram x hx, ho.ram va hin]
  · rcases inRange_split ha hin with hin | hin
    · exact hun.cleared va hin
    · rw [hun.frame va hin.1 (hin.not_below ha), hzero va hin]
  · exact hun.frame va hva (fun h => hout (hsub va h))
  · rw [pool_empty_range hlo le_rfl, hfree x, htab x]
    simp only [Pool, true_and, or_assoc]
    exact or_congr_right or_comm

/-- `uvmdealloc(pagetable, a, oldsz)` on the failure paths of `uvmalloc` gives back. -/
theorem uvmdealloc_giveBack {s : VmState} {root endk lo a newsz : BitVec 64} (hendk : endk ≠ 0)
    (hwf : Wf s root) (hram : Ram endk s) (hlo : Aligned lo) (ha : Aligned a)
    (hle : lo.toNat ≤ a.toNat) (ha38 : a.toNat ≤ 2 ^ 38) (ho : Owned s root endk lo a)
    (hsub : ∀ va, InRange lo a va → InRange lo newsz va)
    (hzero : ∀ va, InRange a newsz va → translate s.mem root va = 0) :
    ∃ s', uvmdealloc endk s root a lo = some (s', lo) ∧ Wf s' root ∧ Ram endk s' ∧
      GaveBack s s' root lo a newsz := by
  by_cases hlt : lo < a
  · obtain ⟨s', hs', hrest⟩ := unmap_giveBack hendk hwf hram hlo ha ha38 ho hsub hzero
    refine ⟨s', ?_, hrest⟩
    rw [uvmdealloc_eq endk s root hlt ha38, PGROUNDUP_of_aligned ha ha38,
      PGROUNDUP_of_aligned hlo (by omega), hs']
    rfl
  · -- nothing above `lo` to give back
    have hlo_a : lo = a := BitVec.eq_of_toNat_eq (by rw [BitVec.lt_def] at hlt; omega)
    subst hlo_a
    refine ⟨s, by rw [uvmdealloc, if_pos (BitVec.le_refl _)], hwf, hram,
      ⟨hzero, fun _ _ _ => rfl, fun _ => Iff.rfl, PageFrame.refl _ _⟩⟩

/-- A round that takes the first free page `r`, writes only `r`, and maps it at `a` with
`mappages`, which returns 0: the PTE names `r` with the flags `perm` and `V`, and `mappages` left
the bytes of `r` as they were. -/
theorem round_of_mappages {s s₂ : VmState} {root a r : BitVec 64} {rest : List (BitVec 64)}
    {mem : Memory} {perm : BitVec 32} (hwf : Wf s root) (hfree : s.free = r :: rest)
    (hm : PageFrame s.mem mem (· = r)) (ha : Aligned a) (hperm : (perm.signExtend 64).toNat < 1024)
    (hleaf : perm.signExtend 64 ||| PTE_V ≠ PTE_V)
    (hmap : mappages ⟨mem, rest⟩ root a PGSIZE r perm = some (s₂, 0)) :
    Wf s₂ root ∧ Round s s₂ root a r (PA2PTE r ||| perm.signExtend 64 ||| PTE_V) ∧
      ∀ b, PGROUNDDOWN b = r → s₂.mem b = mem b := by
  have hrfree : r ∈ s.free := hfree ▸ List.mem_cons_self
  have hral : Aligned r := (hwf.free_page r hrfree).2
  obtain ⟨hwf₁, hag₁⟩ := hwf.take_with hfree hm
  obtain ⟨hwf₂, ⟨taken, hfree₂, htab₂⟩, hw₂, hres⟩ := mappages_page hwf₁ ha hmap
  obtain ⟨h, -⟩ | ⟨-, hpte⟩ := hres
  · exact absurd h (by decide)
  have hf := toNat_or_PTE_V hperm
  have hnd := hwf.nodup
  rw [hfree, List.nodup_cons] at hnd
  refine ⟨hwf₂, ⟨?_, ?_, ?_, ⟨taken, ?_, fun t => (htab₂ t).trans (or_congr_left (hag₁.table t))⟩,
    fun va hva => ?_, (hm.trans hw₂).mono fun p hp => ?_⟩, fun b hb => ?_⟩
  · rw [BitVec.or_assoc, PTE2PA_PA2PTE_or r _ hf, PGROUNDDOWN_of_aligned hral]
  · rw [BitVec.or_assoc, PA2PTE_or_and_PTE_V r _ hf]
    exact or_PTE_V_and_PTE_V _
  · rw [BitVec.or_assoc, PTE_FLAGS_PA2PTE_or r _ hf]
    exact hleaf
  · rw [hfree]
    exact congrArg _ hfree₂
  · rw [hpte va hva, hag₁.translate]
  · rcases hp with rfl | ht | hf
    · exact .inr hrfree
    · exact .inl ((hag₁.table p).1 ht)
    · rw [hfree]
      exact .inr (List.mem_cons_of_mem _ hf)
  · -- `r` is neither a page-table page nor free when `mappages` runs
    refine hw₂ b ?_
    rw [hb]
    exact not_or.2 ⟨fun ht => hwf.fresh r hrfree ((hag₁.table r).1 ht), hnd.1⟩

/-- A round whose `mappages` ran out of pages, and then `kfree` of `r`: the state has the
translations, the owned pages and the pool of `s`, and only pages of the pool were written. -/
theorem mappages_fail_kfree {s s₂ : VmState} {root endk lo a r : BitVec 64}
    {rest : List (BitVec 64)} {mem : Memory} {perm : BitVec 32} (hendk : endk ≠ 0)
    (hwf : Wf s root) (hram : Ram endk s) (hfree : s.free = r :: rest)
    (hm : PageFrame s.mem mem (· = r)) (ha : Aligned a) (ho : Owned s root endk lo a)
    (hmap : mappages ⟨mem, rest⟩ root a PGSIZE r perm = some (s₂, -1)) :
    ∃ s₃, kfree endk s₂ r = some s₃ ∧ Wf s₃ root ∧ Ram endk s₃ ∧ Owned s₃ root endk lo a ∧
      (∀ va, translate s₃.mem root va = translate s.mem root va) ∧
      (∀ x, Pool s root lo a x ↔ Pool s₃ root lo a x) ∧ PageFrame s.mem s₃.mem (Pool s root lo a) := by
  have hrfree : r ∈ s.free := hfree ▸ List.mem_cons_self
  have hral : Aligned r := (hwf.free_page r hrfree).2
  have hram_r := hram r hrfree
  obtain ⟨hwf₁, hag₁⟩ := hwf.take_with hfree hm
  obtain ⟨hwf₂, ⟨taken, hfree₂, htab₂⟩, hw₂, hres⟩ := mappages_page hwf₁ ha hmap
  obtain ⟨-, hnil, htr₂⟩ | ⟨h, -⟩ := hres
  swap
  · exact absurd h (by decide)
  have htab : ∀ t, Table s₂.mem root t ↔ Table s.mem root t ∨ t ∈ taken :=
    fun t => (htab₂ t).trans (or_congr_left (hag₁.table t))
  have hfree_s : s.free = r :: taken := by
    have h := hfree₂
    rw [hnil, List.append_nil] at h
    rw [hfree]
    exact congrArg _ h
  have hnd := hwf.nodup
  rw [hfree_s, List.nodup_cons] at hnd
  have hnot₂ : ¬ Table s₂.mem root r := by
    rw [htab]
    rintro (h | h)
    exacts [hwf.fresh r hrfree h, hnd.1 h]
  have hk := kfree_of_ram endk s₂ hral hram_r.1 hram_r.2
  obtain ⟨hwf₃, hag₃, hfree₃⟩ := hwf₂.kfree hendk hnot₂ (by rw [hnil]; exact List.not_mem_nil) hk
  refine ⟨_, hk, hwf₃, ?_, ?_, ?_, fun x => ?_, ?_⟩
  · -- the free list is `r` alone
    intro x hx
    rw [hfree₃, hnil, List.mem_singleton] at hx
    rw [hx]
    exact hram_r
  · refine ho.of_free (fun va _ => by rw [hag₃.translate, htr₂, hag₁.translate]) fun x hx => ?_
    rcases hx with hx | hx
    · rw [hfree₃, hnil, List.mem_singleton] at hx
      rw [hx]
      exact .inl hrfree
    · rcases (htab x).1 ((hag₃.table x).1 hx) with h | h
      · exact .inr h
      · rw [hfree_s]
        exact .inl (List.mem_cons_of_mem _ h)
  · intro va
    rw [hag₃.translate, htr₂, hag₁.translate]
  · unfold Pool
    rw [hfree_s, hfree₃, hnil, (hag₃.table x).trans (htab x)]
    simp only [hag₃.translate, htr₂, hag₁.translate, List.mem_cons, List.not_mem_nil, or_false,
      or_assoc]
    exact or_congr_right or_left_comm
  · -- `r`, and what `mappages` wrote: page-table pages and free pages
    refine ((hm.trans hw₂).trans (pageFrame_memset hral 1)).mono fun p hp => ?_
    rcases hp with (rfl | ht | hf) | rfl
    · exact .inl hrfree
    · exact .inr (.inl ((hag₁.table p).1 ht))
    · exact .inl (by rw [hfree]; exact List.mem_cons_of_mem _ hf)
    · exact .inl hrfree

/-- **The loop of `uvmalloc` from the page `a`.** With the pages from `lo` below `a` owned and
those from `a` below `newsz` unmapped, the loop returns: `newsz`, having grown the process, or
0, having given back every page it mapped. -/
theorem uvmallocLoop_spec {root endk lo newsz : BitVec 64} (hendk : endk ≠ 0) (hlo : Aligned lo)
    (hnew : newsz.toNat ≤ 2 ^ 38) (a : BitVec 64) :
    ∀ s : VmState, Wf s root → Ram endk s → Aligned a → lo.toNat ≤ a.toNat →
      Owned s root endk lo a → (∀ va, InRange lo a va → InRange lo newsz va) →
      (∀ va, InRange a newsz va → translate s.mem root va = 0) →
      ∃ s' sz, uvmallocLoop endk root lo newsz a s = some (s', sz) ∧ Wf s' root ∧
        Ram endk s' ∧ (sz = newsz ∧ Grew s s' root endk lo a newsz (fun _ => Fresh) ∨
          sz = 0 ∧ GaveBack s s' root lo a newsz) := by
  -- induction on the distance to `MAXVA`, which each round shortens by a page
  induction hn : 2 ^ 38 - a.toNat using Nat.strongRecOn generalizing a with
  | _ n ih =>
  intro s hwf hram ha hle ho hsub hzero
  rw [uvmallocLoop]
  by_cases hlt : a < newsz
  swap
  · rw [if_neg hlt]
    exact ⟨s, newsz, rfl, hwf, hram, .inl ⟨rfl, Grew.stop ha (by rw [BitVec.lt_def] at hlt; omega) ho hsub _⟩⟩
  rw [if_pos hlt]
  have hlt' : a.toNat < newsz.toNat := BitVec.lt_def.1 hlt
  have ha38 : a.toNat < 2 ^ 38 := by omega
  cases hfree : s.free with
  | nil =>
    -- `kalloc` fails: give back
    rw [kalloc_nil hfree]
    dsimp only
    rw [if_pos rfl]
    obtain ⟨s', hd, hwf', hram', hgb⟩ :=
      uvmdealloc_giveBack hendk hwf hram hlo ha hle ha38.le ho hsub hzero
    exact ⟨s', 0, by rw [hd]; rfl, hwf', hram', .inr ⟨rfl, hgb⟩⟩
  | cons r rest =>
    have hrfree : r ∈ s.free := hfree ▸ List.mem_cons_self
    have hral : Aligned r := (hwf.free_page r hrfree).2
    rw [kalloc_cons hfree]
    dsimp only
    rw [if_neg (hwf.free_page r hrfree).1]
    -- `kalloc` fills `r` with junk, `uvmalloc` zeroes it
    have hm : PageFrame s.mem (memset (memset s.mem r 5 PGSIZE) r 0 PGSIZE) (· = r) :=
      ((pageFrame_memset hral 5 : PageFrame s.mem _ _).trans (pageFrame_memset hral 0)).mono
        fun _ hp => hp.elim id id
    obtain ⟨hwf₁, hag₁⟩ := hwf.take_with hfree hm
    have hv : translate (memset (memset s.mem r 5 PGSIZE) r 0 PGSIZE) root a &&& PTE_V = 0 := by
      rw [hag₁.translate, hzero a (inRange_of_page ha le_rfl hlt' ha38 rfl)]
      rfl
    obtain ⟨⟨s₂, ret⟩, hmap⟩ :=
      mappages_page_total r ((PTE_W ||| PTE_X ||| PTE_R ||| PTE_U).setWidth 32) hwf₁ ha ha38 hv
    have hret : ret = -1 ∨ ret = 0 := (mappages_page hwf₁ ha hmap).2.2.2.imp And.left And.left
    split
    · rename_i heq
      rw [hmap] at heq
      cases heq
    rename_i s₂' ret' heq
    rw [hmap, Option.some.injEq, Prod.mk.injEq] at heq
    obtain ⟨rfl, rfl⟩ := heq
    rcases hret with rfl | rfl
    · -- `mappages` ran out of pages: free `r` and give back
      rw [if_pos (by decide)]
      obtain ⟨s₃, hk, hwf₃, hram₃, ho₃, htr₃, hpool₃, hw₃⟩ :=
        mappages_fail_kfree hendk hwf hram hfree hm ha ho hmap
      rw [hk]
      dsimp only
      obtain ⟨s', hd, hwf', hram', hgb⟩ := uvmdealloc_giveBack hendk hwf₃ hram₃ hlo ha hle ha38.le
        ho₃ hsub fun va hin => (htr₃ va).trans (hzero va hin)
      exact ⟨s', 0, by rw [hd]; rfl, hwf', hram', .inr ⟨rfl, hgb.pre htr₃ hpool₃ hw₃⟩⟩
    · -- `r` is mapped at `a`: the round, then the loop from the next page
      rw [if_neg (by decide)]
      obtain ⟨hwf₂, hR, hrmem⟩ := round_of_mappages hwf hfree hm ha (by rw [perm_uvmalloc]; decide)
        (by rw [perm_uvmalloc]; decide) hmap
      rw [perm_uvmalloc] at hR
      have hr := userPte_fields hral
      -- the page of `a`: the flags `V|R|W|X|U`, and the zeros of `r`
      have hQ : ∀ (va : BitVec 64) (mem : Memory), va.toNat / PGSIZE = a.toNat / PGSIZE →
          (∀ b, PGROUNDDOWN b = r → mem b = s₂.mem b) → Fresh (PA2PTE r ||| 0x1E ||| PTE_V) mem :=
        fun _ mem _ hmem => ⟨hr.2, fun b hb => by
          rw [hr.1] at hb
          rw [hmem b hb, hrmem b hb]
          exact memset_of_page hral hb 0⟩
      have hlt₂ : 2 ^ 38 - (a + (PGSIZE : BitVec 64)).toNat < n := by
        rw [toNat_add_PGSIZE ha38]
        unfold PGSIZE
        omega
      have hle₂ : lo.toNat ≤ (a + (PGSIZE : BitVec 64)).toNat := by
        rw [toNat_add_PGSIZE ha38]
        omega
      have hsub₂ : ∀ va, InRange lo (a + (PGSIZE : BitVec 64)) va → InRange lo newsz va := by
        intro va hin
        rcases (inRange_next_stop hlo ha hle ha38).1 hin with hold | ⟨hva, hpage⟩
        exacts [hsub va hold, inRange_of_page ha hle hlt' hva hpage]
      have hzero₂ : ∀ va, InRange (a + (PGSIZE : BitVec 64)) newsz va →
          translate s₂.mem root va = 0 := by
        intro va hin
        rw [hR.pte va hin.1, if_neg fun h => not_inRange_next_of_page ha38 h hin,
          hzero va ((inRange_iff_next ha ha38 hlt').2 (.inr hin))]
      obtain ⟨s', sz, hloop, hwf', hram', hres'⟩ := ih _ hlt₂ (a + (PGSIZE : BitVec 64)) rfl s₂
        hwf₂ (fun x hx => hram x (hR.free_sub hwf hx).1) (aligned_add_PGSIZE ha ha38) hle₂
        (hR.owned hwf hlo ha hle ha38 ho hram) hsub₂ hzero₂
      refine ⟨s', sz, hloop, hwf', hram', hres'.imp (fun h => ⟨h.1, ?_⟩) (fun h => ⟨h.1, ?_⟩)⟩
      exacts [Grew.cons hR hwf hlo ha hle hlt' ha38 hQ h.2,
        GaveBack.cons hR hlo ha hle hlt' ha38 h.2]

/-- **`uvmalloc` grows the process, or gives back everything it took.** With the pages from
`PGROUNDUP(oldsz)` below `newsz ≤ MAXVA` unmapped, `uvmalloc` returns; either it returns
`newsz`, the process owning every page from `PGROUNDUP(oldsz)` below `newsz`, each mapped with
the flags `V|R|W|X|U` and holding zeros, and no other translation changed, or it returns 0 and
no translation changed. The pages free or page-table pages before are those free, page-table
pages or newly owned after: none is lost and none is handed out twice; and no byte outside them
changed. -/
theorem uvmalloc_spec {s : VmState} {root endk oldsz newsz : BitVec 64} (hendk : endk ≠ 0)
    (hwf : Wf s root) (hram : Ram endk s) (hle : oldsz ≤ newsz) (hnew : newsz.toNat ≤ 2 ^ 38)
    (hzero : ∀ va, InRange (PGROUNDUP oldsz) newsz va → translate s.mem root va = 0) :
    ∃ s' sz, uvmalloc endk s root oldsz newsz = some (s', sz) ∧ Wf s' root ∧ Ram endk s' ∧
      (sz = newsz ∧ Owned s' root endk (PGROUNDUP oldsz) newsz ∧
          (∀ va, InRange (PGROUNDUP oldsz) newsz va →
            PTE_FLAGS (translate s'.mem root va) = 0x1F) ∧
          (∀ va, InRange (PGROUNDUP oldsz) newsz va →
            ∀ b, PGROUNDDOWN b = PTE2PA (translate s'.mem root va) → s'.mem b = 0) ∧
          (∀ va, va.toNat < 2 ^ 38 → ¬ InRange (PGROUNDUP oldsz) newsz va →
            translate s'.mem root va = translate s.mem root va) ∨
        sz = 0 ∧ ∀ va, va.toNat < 2 ^ 38 → translate s'.mem root va = translate s.mem root va) ∧
      (∀ x, x ∈ s.free ∨ Table s.mem root x ↔ Pool s' root (PGROUNDUP oldsz) sz x) ∧
      PageFrame s.mem s'.mem fun p => p ∈ s.free ∨ Table s.mem root p := by
  have hlo := aligned_PGROUNDUP oldsz
  have hlo38 : (PGROUNDUP oldsz).toNat ≤ 2 ^ 38 :=
    toNat_PGROUNDUP_le (Nat.le_trans (BitVec.le_def.1 hle) hnew)
  -- the loop starts with nothing owned
  obtain ⟨s', sz, hloop, hwf', hram', hres⟩ := uvmallocLoop_spec hendk hlo hnew (PGROUNDUP oldsz) s
    hwf hram hlo le_rfl (Owned.empty hlo) (fun va h => absurd h (not_inRange_of_le hlo le_rfl)) hzero
  have hpool₀ : ∀ x, x ∈ s.free ∨ Table s.mem root x ↔
      Pool s root (PGROUNDUP oldsz) (PGROUNDUP oldsz) x :=
    fun x => (pool_empty_range hlo le_rfl).symm
  refine ⟨s', sz, by rw [uvmalloc, if_neg (BitVec.not_lt.2 hle), hloop], hwf', hram', ?_⟩
  rcases hres with ⟨rfl, hg⟩ | ⟨rfl, hb⟩
  · exact ⟨.inl ⟨rfl, hg.owned, fun va hin => (hg.new va hin).1, fun va hin => (hg.new va hin).2,
      hg.frame⟩, fun x => (hpool₀ x).trans (hg.pool x),
      hg.writes.mono fun p hp => hp.symm⟩
  · refine ⟨.inr ⟨rfl, fun va hva => ?_⟩, fun x => ?_, hb.writes.mono fun p hp => (hpool₀ p).2 hp⟩
    · -- the pages of the range are unmapped again, as they were
      by_cases hin : InRange (PGROUNDUP oldsz) newsz va
      · rw [hb.cleared va hin, hzero va hin]
      · exact hb.frame va hva hin
    · rw [hpool₀ x, hb.pool x, pool_empty_range hlo le_rfl, pool_empty_range hlo (Nat.zero_le _)]

end Xv6.Vm
