import Mathlib
import Xv6.Vm.Copy
import Xv6.Vm.User

/-!
# Fork's copy of user memory (kernel/vm.c): uvmcopy

`uvmcopy(old, new, sz)` gives the child's page table `new` a copy of every page below `sz` of
the parent's page table `old`: for each page a page from the allocator, filled with the parent's
bytes by `memmove` and mapped with the parent's flags. When the allocator runs out it unmaps and
frees every page it mapped in `new` (the label `err`) and returns -1.

The two page tables share memory and the free list. The parent (`Parent`) owns its pages below
`sz` as valid leaves, and neither they nor its page-table pages are page-table pages of `new` or
free. A round of the loop is a `Round` of `Xv6.Vm.User` on `new`, so the loop writes only
page-table pages of `new` and free pages (`OnlyChild`), which leaves the parent as it was:

* `uvmcopyLoop_spec`: the loop from the page `i` returns, having copied every page from `i`, or
  having given back every page it mapped;
* `uvmcopy_spec`: `uvmcopy` returns 0 with the child owning a copy of each page, or -1 with the
  child's translations as they were; either way the parent's page table, its pages, and every
  byte outside the free pages and the child's page-table pages are unchanged, and no page is lost
  or handed out twice.

With a free page for each page-table page `walk` may need, `mappages` returns 0
(`mappages_page_of_room`), and a round maps the copy and goes on (`uvmcopyLoop_copy`): so
forking the process of `onePage_wf` copies its page.
-/

namespace Xv6.Vm

/-- `err:` of `uvmcopy`, `uvmunmap(new, 0, i / PGSIZE, 1); return -1;`. -/
def uvmcopyErr (endk : BitVec 64) (s : VmState) (new i : BitVec 64) : Option (VmState × ℤ) :=
  (uvmunmap endk s new 0 (i / (PGSIZE : BitVec 64)) true).map fun s => (s, -1)

/-- The loop of `uvmcopy`, `for(i = 0; i < sz; i += PGSIZE)`: 0, or -1 after `err`. -/
def uvmcopyLoop (endk old new sz : BitVec 64) (i : BitVec 64) (s : VmState) :
    Option (VmState × ℤ) :=
  if i < sz then
    match walk s old i false with
    | none => none
    | some (s, pte) =>
      if pte = 0 then none
      else if loadPte s.mem pte &&& PTE_V = 0 then none
      else
        let pa := PTE2PA (loadPte s.mem pte)
        -- `uint flags`, passed to `mappages` as `int perm`
        let flags : BitVec 32 := (PTE_FLAGS (loadPte s.mem pte)).setWidth 32
        let (s, mem) := kalloc s
        if mem = 0 then uvmcopyErr endk s new i
        else
          let s : VmState := ⟨memmove s.mem mem pa PGSIZE, s.free⟩
          match h : mappages s new i PGSIZE mem flags with
          | none => none
          | some (s, r) =>
            if r ≠ 0 then
              match kfree endk s mem with
              | none => none
              | some s => uvmcopyErr endk s new i
            else uvmcopyLoop endk old new sz (i + PGSIZE) s
  else some (s, 0)
termination_by 2 ^ 38 - i.toNat
decreasing_by
  have hi := lt_MAXVA_of_mappages h
  rw [toNat_PGROUNDDOWN] at hi
  have : (i + (PGSIZE : BitVec 64)).toNat = i.toNat + 4096 := by
    rw [BitVec.toNat_add, show (PGSIZE : BitVec 64).toNat = 4096 from rfl]
    omega
  omega

/-- `uvmcopy(old, new, sz)`. -/
def uvmcopy (endk : BitVec 64) (s : VmState) (old new sz : BitVec 64) : Option (VmState × ℤ) :=
  uvmcopyLoop endk old new sz 0 s

/-- The parent's side of `uvmcopy`: its pages below `sz` are valid leaves, and neither they nor
its page-table pages are page-table pages of the child's page table `new` or free. -/
structure Parent (s : VmState) (old new sz : BitVec 64) : Prop where
  valid : ∀ va, InRange 0 sz va → translate s.mem old va &&& PTE_V ≠ 0
  leaf : ∀ va, InRange 0 sz va → PTE_FLAGS (translate s.mem old va) ≠ PTE_V
  not_table : ∀ va, InRange 0 sz va → ¬ Table s.mem new (PTE2PA (translate s.mem old va))
  not_free : ∀ va, InRange 0 sz va → PTE2PA (translate s.mem old va) ∉ s.free
  apart : ∀ t, Table s.mem old t → ¬ Table s.mem new t

/-- The page `uvmcopy` maps for the parent's page `va`, read in `mem₀`: the parent's flags, and
the parent's bytes. -/
def Copied (mem₀ : Memory) (old va pte : BitVec 64) (mem : Memory) : Prop :=
  PTE_FLAGS pte = PTE_FLAGS (translate mem₀ old va) ∧
    ∀ off < PGSIZE, mem (PTE2PA pte + BitVec.ofNat 64 off) =
      mem₀ (PTE2PA (translate mem₀ old va) + BitVec.ofNat 64 off)

/-- From `s₀` to `s` only the child's side changed: only page-table pages of `new` and free
pages of `s₀` were written, and the page-table pages of `new` and the free pages come from
those of `s₀`. -/
structure OnlyChild (s₀ s : VmState) (new : BitVec 64) : Prop where
  writes : PageFrame s₀.mem s.mem fun p => Table s₀.mem new p ∨ p ∈ s₀.free
  table : ∀ t, Table s.mem new t → Table s₀.mem new t ∨ t ∈ s₀.free
  free : ∀ x ∈ s.free, x ∈ s₀.free

/-! ### Pages, flags and the label `err` -/

/-- A byte within the page `r`. -/
theorem PGROUNDDOWN_page_add {r : BitVec 64} (hr : Aligned r) {off : ℕ} (hoff : off < PGSIZE) :
    PGROUNDDOWN (r + BitVec.ofNat 64 off) = r := by
  rw [PGROUNDDOWN_add_of_page (by unfold Aligned at hr; omega), PGROUNDDOWN_of_aligned hr]

/-- A page ends below the top of the address space. -/
theorem add_PGSIZE_le {p : BitVec 64} (hp : Aligned p) : p.toNat + PGSIZE ≤ 2 ^ 64 := by
  have := p.isLt
  unfold Aligned PGSIZE at *
  omega

/-- `memmove` of a page writes that page. -/
theorem pageFrame_moved {m m' : Memory} {r src : BitVec 64} (hr : Aligned r)
    (h : ByteCopy.Moved m m' r src PGSIZE) : PageFrame m m' (· = r) :=
  fun b hb => h.frame b fun off hoff e => hb (by rw [e]; exact PGROUNDDOWN_page_add hr hoff)

/-- `kalloc`'s junk and then a page copied over it: only that page changes. -/
theorem pageFrame_copyPage {mem : Memory} {r src : BitVec 64} (hr : Aligned r) (hsrc : Aligned src) :
    PageFrame mem (memmove (memset mem r 5 PGSIZE) r src PGSIZE) (· = r) := by
  have hP32 : ((PGSIZE : ℕ) : BitVec 32).toNat = PGSIZE := rfl
  have hmv := memmove_moved (memset mem r 5 PGSIZE) r src PGSIZE
    (by rw [hP32]; exact add_PGSIZE_le hsrc) (by rw [hP32]; exact add_PGSIZE_le hr)
  rw [hP32] at hmv
  exact ((pageFrame_memset hr 5 : PageFrame mem _ _).trans (pageFrame_moved hr hmv)).mono
    fun _ hp => hp.elim id id

/-- The flags of a PTE survive `uint flags` and `int perm`. -/
theorem signExtend_flags (pte : BitVec 64) :
    ((PTE_FLAGS pte).setWidth 32).signExtend 64 = PTE_FLAGS pte :=
  signExtend_setWidth (by rw [toNat_PTE_FLAGS]; omega)

/-- The flags of a valid PTE hold `PTE_V`. -/
theorem PTE_FLAGS_or_PTE_V {pte : BitVec 64} (h : pte &&& PTE_V ≠ 0) :
    PTE_FLAGS pte ||| PTE_V = PTE_FLAGS pte := by
  rw [and_PTE_V_ne_zero] at h
  apply BitVec.eq_of_toNat_eq
  rw [BitVec.toNat_or, toNat_PTE_FLAGS, show PTE_V.toNat = 1 from rfl]
  apply Nat.eq_of_testBit_eq
  intro j
  rw [Nat.testBit_or]
  cases j with
  | zero =>
    simp [Nat.testBit_zero]
    omega
  | succ j => simp [Nat.testBit_succ]

/-- `err` runs the loop of `uvmunmap` over the pages below `i`. -/
theorem uvmcopyErr_eq (endk : BitVec 64) (s : VmState) (new : BitVec 64) {i : BitVec 64}
    (hi : Aligned i) :
    uvmcopyErr endk s new i = (uvmunmapLoop endk new i true 0 s).map fun s => (s, -1) := by
  have hstop : (0 : BitVec 64) + i / (PGSIZE : BitVec 64) * PGSIZE = i := by
    rw [zero_add]
    apply BitVec.eq_of_toNat_eq
    rw [BitVec.toNat_mul, BitVec.toNat_udiv]
    simp only [show (PGSIZE : BitVec 64).toNat = PGSIZE from rfl]
    unfold Aligned PGSIZE at *
    omega
  rw [uvmcopyErr, uvmunmap, if_neg (by decide), hstop]

/-- `walk(old, i, 0)` finds the slot of a valid PTE. -/
theorem walk_valid {s : VmState} {old i : BitVec 64} (hpt : PageTable s.mem old)
    (hv : translate s.mem old i &&& PTE_V ≠ 0) (hi : i.toNat < 2 ^ 38) :
    ∃ slot, walk s old i false = some (s, slot) ∧ slot ≠ 0 ∧
      loadPte s.mem slot = translate s.mem old i := by
  obtain ⟨t, ht⟩ : ∃ t, level0 s.mem old i = some t := by
    cases hl : level0 s.mem old i with
    | none =>
      have h0 : translate s.mem old i = 0 := Radix.lookup_of_node_none hl _
      rw [h0] at hv
      exact absurd rfl hv
    | some t => exact ⟨t, rfl⟩
  refine ⟨t + 8 * PX 0 i, ?_, ?_, loadPte_slot ht⟩
  · rw [walk_false s old (BitVec.lt_def.2 (by rw [toNat_MAXVA]; exact hi)), ht]
  · rw [← ofNat_px]
    exact hpt.slot_ne_zero (table_of_node (by simp) ht) _

/-! ### Only the child's side changes -/

section OnlyChild

variable {s₀ s : VmState} {old new sz : BitVec 64}

theorem OnlyChild.refl (s : VmState) (new : BitVec 64) : OnlyChild s s new :=
  ⟨PageFrame.refl _ _, fun _ ht => .inl ht, fun _ hx => hx⟩

/-- A round on `new` changes only the child's side. -/
theorem OnlyChild.round {s₂ : VmState} {i r v : BitVec 64} (h : OnlyChild s₀ s new)
    (hR : Round s s₂ new i r v) (hwf : Wf s new) : OnlyChild s₀ s₂ new := by
  refine ⟨(h.writes.trans hR.writes).mono fun p hp => ?_, fun t ht => ?_,
    fun x hx => h.free x (hR.free_sub hwf hx).1⟩
  · rcases hp with hp | ht | hf
    exacts [hp, h.table p ht, .inr (h.free p hf)]
  · rcases hR.table hwf ht with ht | ⟨hf, -⟩
    exacts [h.table t ht, .inr (h.free t hf)]

/-- The parent's page-table pages keep their entries. -/
theorem OnlyChild.agree (h : OnlyChild s₀ s new) (hwfo : Wf s₀ old) (hp : Parent s₀ old new sz) :
    Agree s₀.mem s.mem old :=
  h.writes.agree hwfo.toPageTable fun t ht hP => hP.elim (hp.apart t ht) (hwfo.fresh t · ht)

/-- The parent's pages keep their bytes. -/
theorem OnlyChild.page (h : OnlyChild s₀ s new) (hp : Parent s₀ old new sz) {va : BitVec 64}
    (hin : InRange 0 sz va) {b : BitVec 64} (hb : PGROUNDDOWN b = PTE2PA (translate s₀.mem old va)) :
    s.mem b = s₀.mem b :=
  h.writes b (by rw [hb]; exact not_or.2 ⟨hp.not_table va hin, hp.not_free va hin⟩)

/-- The parent's pages are still neither page-table pages of `new` nor free. -/
theorem OnlyChild.apart (h : OnlyChild s₀ s new) (hp : Parent s₀ old new sz) {va : BitVec 64}
    (hin : InRange 0 sz va) :
    ¬ Table s.mem new (PTE2PA (translate s₀.mem old va)) ∧ PTE2PA (translate s₀.mem old va) ∉ s.free :=
  ⟨fun ht => (h.table _ ht).elim (hp.not_table va hin) (hp.not_free va hin),
    fun hf => hp.not_free va hin (h.free _ hf)⟩

end OnlyChild

/-! ### The loop -/

/-- A round of the loop that maps the copy of the page `i`: the loop goes on from the next
page. -/
theorem uvmcopyLoop_copy {endk old new sz i slot r : BitVec 64} {s s₂ : VmState}
    {rest : List (BitVec 64)} (hlt : i < sz) (hw : walk s old i false = some (s, slot))
    (hslot : slot ≠ 0) (hv : loadPte s.mem slot &&& PTE_V ≠ 0) (hfree : s.free = r :: rest)
    (hr : r ≠ 0)
    (hmap : mappages ⟨memmove (memset s.mem r 5 PGSIZE) r (PTE2PA (loadPte s.mem slot)) PGSIZE, rest⟩
      new i PGSIZE r ((PTE_FLAGS (loadPte s.mem slot)).setWidth 32) = some (s₂, 0)) :
    uvmcopyLoop endk old new sz i s = uvmcopyLoop endk old new sz (i + PGSIZE) s₂ := by
  rw [uvmcopyLoop, if_pos hlt, hw]
  dsimp only
  rw [if_neg hslot, if_neg hv, kalloc_cons hfree]
  dsimp only
  rw [if_neg hr]
  split
  · rename_i heq
    rw [hmap] at heq
    cases heq
  rename_i s₃ ret heq
  rw [hmap, Option.some.injEq, Prod.mk.injEq] at heq
  obtain ⟨rfl, rfl⟩ := heq
  rw [if_neg (by decide)]

/-- **The loop of `uvmcopy` from the page `i`.** With the parent's side as in `s₀` (`Parent`),
only the child's side changed since `s₀`, the child owning the pages below `i`, and the pages
from `i` below `sz` unmapped in `new`, the loop returns: 0, having copied every page from `i` as
the parent has it in `s₀`, or -1, having given back every page it mapped. -/
theorem uvmcopyLoop_spec {s₀ : VmState} {endk old new sz : BitVec 64} (hendk : endk ≠ 0)
    (hsz : sz.toNat ≤ 2 ^ 38) (hwfo : Wf s₀ old) (hpar : Parent s₀ old new sz) (i : BitVec 64) :
    ∀ s : VmState, Wf s new → Ram endk s → OnlyChild s₀ s new → Aligned i →
      Owned s new endk 0 i → (∀ va, InRange 0 i va → InRange 0 sz va) →
      (∀ va, InRange i sz va → translate s.mem new va = 0) →
      ∃ s' r, uvmcopyLoop endk old new sz i s = some (s', r) ∧ Wf s' new ∧ Ram endk s' ∧
        (r = 0 ∧ Grew s s' new endk 0 i sz (Copied s₀.mem old) ∨
          r = -1 ∧ GaveBack s s' new 0 i sz) := by
  -- induction on the distance to `MAXVA`, which each round shortens by a page
  induction hn : 2 ^ 38 - i.toNat using Nat.strongRecOn generalizing i with
  | _ n ih =>
  intro s hwf hram hon hi ho hsub hzero
  have h0 : Aligned (0 : BitVec 64) := by decide
  rw [uvmcopyLoop]
  by_cases hlt : i < sz
  swap
  · rw [if_neg hlt]
    exact ⟨s, 0, rfl, hwf, hram,
      .inl ⟨rfl, Grew.stop hi (by rw [BitVec.lt_def] at hlt; omega) ho hsub _⟩⟩
  rw [if_pos hlt]
  have hlt' : i.toNat < sz.toNat := BitVec.lt_def.1 hlt
  have hi38 : i.toNat < 2 ^ 38 := by omega
  have hin : InRange 0 sz i := inRange_of_page hi (Nat.zero_le _) hlt' hi38 rfl
  -- `walk(old, i, 0)` finds the parent's PTE of `i`, as it is in `s₀`
  have hag := hon.agree hwfo hpar
  have hvq := hpar.valid i hin
  obtain ⟨slot, hw, hslot, hload⟩ :=
    walk_valid (hag.pageTable hwfo.toPageTable) (by rw [hag.translate]; exact hvq) hi38
  rw [hw]
  dsimp only
  rw [if_neg hslot, hload, hag.translate, if_neg hvq]
  set q := translate s₀.mem old i with hq_def
  cases hfree : s.free with
  | nil =>
    -- `kalloc` fails: `err`
    rw [kalloc_nil hfree]
    dsimp only
    rw [if_pos rfl, uvmcopyErr_eq endk s new hi]
    obtain ⟨s', hs', hwf', hram', hgb⟩ := unmap_giveBack hendk hwf hram h0 hi hi38.le ho hsub hzero
    exact ⟨s', -1, by rw [hs']; rfl, hwf', hram', .inr ⟨rfl, hgb⟩⟩
  | cons r rest =>
    have hrfree : r ∈ s.free := hfree ▸ List.mem_cons_self
    have hral : Aligned r := (hwf.free_page r hrfree).2
    rw [kalloc_cons hfree]
    dsimp only
    rw [if_neg (hwf.free_page r hrfree).1]
    -- the parent's page is not `r`: `memmove` copies it into `r` and writes nothing else
    have hpal : Aligned (PTE2PA q) := PTE2PA_mod _
    have hne : PTE2PA q ≠ r := fun e => (hon.apart hpar hin).2 (e ▸ hrfree)
    have hP32 : ((PGSIZE : ℕ) : BitVec 32).toNat = PGSIZE := rfl
    have hmv := memmove_moved (memset s.mem r 5 PGSIZE) r (PTE2PA q) PGSIZE
      (by rw [hP32]; exact add_PGSIZE_le hpal) (by rw [hP32]; exact add_PGSIZE_le hral)
    rw [hP32] at hmv
    have hm : PageFrame s.mem (memmove (memset s.mem r 5 PGSIZE) r (PTE2PA q) PGSIZE) (· = r) :=
      pageFrame_copyPage hral hpal
    obtain ⟨hwf₁, hag₁⟩ := hwf.take_with hfree hm
    have hv₁ : translate (memmove (memset s.mem r 5 PGSIZE) r (PTE2PA q) PGSIZE) new i &&& PTE_V = 0 := by
      rw [hag₁.translate, hzero i (inRange_of_page hi le_rfl hlt' hi38 rfl)]
      rfl
    obtain ⟨⟨s₂, ret⟩, hmap⟩ := mappages_page_total r ((PTE_FLAGS q).setWidth 32) hwf₁ hi hi38 hv₁
    have hret : ret = -1 ∨ ret = 0 := (mappages_page hwf₁ hi hmap).2.2.2.imp And.left And.left
    split
    · rename_i heq
      rw [hmap] at heq
      cases heq
    rename_i s₂' ret' heq
    rw [hmap, Option.some.injEq, Prod.mk.injEq] at heq
    obtain ⟨rfl, rfl⟩ := heq
    rcases hret with rfl | rfl
    · -- `mappages` ran out of pages: `kfree(mem)` and `err`
      rw [if_pos (by decide)]
      obtain ⟨s₃, hk, hwf₃, hram₃, ho₃, htr₃, hpool₃, hw₃⟩ :=
        mappages_fail_kfree hendk hwf hram hfree hm hi ho hmap
      rw [hk]
      dsimp only
      rw [uvmcopyErr_eq endk s₃ new hi]
      obtain ⟨s', hs', hwf', hram', hgb⟩ := unmap_giveBack hendk hwf₃ hram₃ h0 hi hi38.le ho₃ hsub
        fun va hin => (htr₃ va).trans (hzero va hin)
      exact ⟨s', -1, by rw [hs']; rfl, hwf', hram', .inr ⟨rfl, hgb.pre htr₃ hpool₃ hw₃⟩⟩
    · -- `r` is mapped at `i`: the round, then the loop from the next page
      rw [if_neg (by decide)]
      obtain ⟨hwf₂, hR, hrmem⟩ := round_of_mappages hwf hfree hm hi
        (by rw [signExtend_flags, toNat_PTE_FLAGS]; omega)
        (by rw [signExtend_flags, PTE_FLAGS_or_PTE_V hvq]; exact hpar.leaf i hin) hmap
      rw [signExtend_flags] at hR
      -- the page of `i` holds the parent's flags and the parent's bytes as in `s₀`
      have hQ : ∀ (va : BitVec 64) (mem : Memory), va.toNat / PGSIZE = i.toNat / PGSIZE →
          (∀ b, PGROUNDDOWN b = r → mem b = s₂.mem b) →
          Copied s₀.mem old va (PA2PTE r ||| PTE_FLAGS q ||| PTE_V) mem := by
        intro va mem hpage hmem
        have hq : translate s₀.mem old va = q := translate_eq_of_div hpage
        have hf : (PTE_FLAGS q ||| PTE_V).toNat < 1024 :=
          toNat_or_PTE_V (by rw [toNat_PTE_FLAGS]; omega)
        refine ⟨by rw [hq, BitVec.or_assoc, PTE_FLAGS_PA2PTE_or r _ hf, PTE_FLAGS_or_PTE_V hvq],
          fun off hoff => ?_⟩
        have hb := PGROUNDDOWN_page_add hral hoff
        have hb' := PGROUNDDOWN_page_add hpal hoff
        rw [hR.names, hq, hmem _ hb, hrmem _ hb, hmv.copied off hoff,
          pageFrame_memset hral 5 _ (by rw [hb']; exact hne), hon.page hpar hin hb']
      have hlt₂ : 2 ^ 38 - (i + (PGSIZE : BitVec 64)).toNat < n := by
        rw [toNat_add_PGSIZE hi38]
        unfold PGSIZE
        omega
      have hsub₂ : ∀ va, InRange 0 (i + (PGSIZE : BitVec 64)) va → InRange 0 sz va := by
        intro va hin
        rcases (inRange_next_stop h0 hi (Nat.zero_le _) hi38).1 hin with hold | ⟨hva, hpage⟩
        exacts [hsub va hold, inRange_of_page hi (Nat.zero_le _) hlt' hva hpage]
      have hzero₂ : ∀ va, InRange (i + (PGSIZE : BitVec 64)) sz va →
          translate s₂.mem new va = 0 := by
        intro va hin
        rw [hR.pte va hin.1, if_neg fun h => not_inRange_next_of_page hi38 h hin,
          hzero va ((inRange_iff_next hi hi38 hlt').2 (.inr hin))]
      obtain ⟨s', r', hloop, hwf', hram', hres'⟩ := ih _ hlt₂ (i + (PGSIZE : BitVec 64)) rfl s₂
        hwf₂ (fun x hx => hram x (hR.free_sub hwf hx).1) (hon.round hR hwf)
        (aligned_add_PGSIZE hi hi38) (hR.owned hwf h0 hi (Nat.zero_le _) hi38 ho hram) hsub₂ hzero₂
      refine ⟨s', r', hloop, hwf', hram', hres'.imp (fun h => ⟨h.1, ?_⟩) (fun h => ⟨h.1, ?_⟩)⟩
      exacts [Grew.cons hR hwf h0 hi (Nat.zero_le _) hlt' hi38 hQ h.2,
        GaveBack.cons hR h0 hi (Nat.zero_le _) hlt' hi38 h.2]

/-- **`uvmcopy` copies the parent's memory, or gives back everything it took.** With the parent
owning its pages below `sz ≤ MAXVA` as valid leaves apart from the child's page table `new`, in
which those pages are unmapped, `uvmcopy` returns. Either it returns 0, the child owning every
page below `sz`, each with the parent's flags and bytes, and no other translation of `new`
changed; or it returns -1 and no translation of `new` changed. Either way the parent's page table
and pages are as they were, no byte outside the free pages and the child's page-table pages
changed, and the pages free or page-table pages of `new` before are those free, page-table pages
of `new` or the child's after. -/
theorem uvmcopy_spec {s : VmState} {endk old new sz : BitVec 64} (hendk : endk ≠ 0)
    (hwfo : Wf s old) (hwf : Wf s new) (hram : Ram endk s) (hsz : sz.toNat ≤ 2 ^ 38)
    (hpar : Parent s old new sz) (hzero : ∀ va, InRange 0 sz va → translate s.mem new va = 0) :
    ∃ s' r, uvmcopy endk s old new sz = some (s', r) ∧ Wf s' new ∧ Wf s' old ∧ Ram endk s' ∧
      Agree s.mem s'.mem old ∧
      (∀ va, InRange 0 sz va → ∀ b, PGROUNDDOWN b = PTE2PA (translate s.mem old va) →
        s'.mem b = s.mem b) ∧
      PageFrame s.mem s'.mem (fun p => p ∈ s.free ∨ Table s.mem new p) ∧
      (r = 0 ∧ Owned s' new endk 0 sz ∧
          (∀ va, InRange 0 sz va → Copied s.mem old va (translate s'.mem new va) s'.mem) ∧
          (∀ va, va.toNat < 2 ^ 38 → ¬ InRange 0 sz va →
            translate s'.mem new va = translate s.mem new va) ∧
          (∀ x, x ∈ s.free ∨ Table s.mem new x ↔ Pool s' new 0 sz x) ∨
        r = -1 ∧ (∀ va, va.toNat < 2 ^ 38 → translate s'.mem new va = translate s.mem new va) ∧
          ∀ x, x ∈ s.free ∨ Table s.mem new x ↔ x ∈ s'.free ∨ Table s'.mem new x) := by
  have h0 : Aligned (0 : BitVec 64) := by decide
  obtain ⟨s', r, hloop, hwf', hram', hres⟩ := uvmcopyLoop_spec hendk hsz hwfo hpar 0 s hwf hram
    (OnlyChild.refl s new) h0 (Owned.empty h0) (fun va h => absurd h (not_inRange_of_le h0 le_rfl))
    hzero
  have hpool₀ : ∀ x, x ∈ s.free ∨ Table s.mem new x ↔ Pool s new 0 0 x :=
    fun x => (pool_empty_range h0 le_rfl).symm
  -- what the loop wrote, and where the free pages after it come from
  have hw : PageFrame s.mem s'.mem (fun p => p ∈ s.free ∨ Table s.mem new p) := by
    rcases hres with ⟨-, hg⟩ | ⟨-, hb⟩
    · exact hg.writes.mono fun p hp => hp.symm
    · exact hb.writes.mono fun p hp => (hpool₀ p).2 hp
  have hback : ∀ x ∈ s'.free, x ∈ s.free ∨ Table s.mem new x := by
    intro x hx
    rcases hres with ⟨-, hg⟩ | ⟨-, hb⟩
    · exact (hpool₀ x).2 ((hg.pool x).2 (.inl hx))
    · exact (hpool₀ x).2 ((hb.pool x).2 (.inl hx))
  -- the parent's page-table pages are neither free nor page-table pages of `new`
  have hag : Agree s.mem s'.mem old :=
    (hw.mono fun p hp => hp.symm).agree hwfo.toPageTable
      fun t ht hP => hP.elim (hpar.apart t ht) (hwfo.fresh t · ht)
  refine ⟨s', r, hloop, hwf', ⟨hag.pageTable hwfo.toPageTable, hag.links hwfo.links,
    hag.high hwfo.high, hwf'.nodup, hwf'.free_page,
    fun x hx ht => ?_⟩, hram', hag, fun va hin b hb => hw b ?_, hw, ?_⟩
  · rw [hag.table] at ht
    rcases hback x hx with hf | hn
    exacts [hwfo.fresh x hf ht, hpar.apart x ht hn]
  · rw [hb]
    exact not_or.2 ⟨hpar.not_free va hin, hpar.not_table va hin⟩
  rcases hres with ⟨rfl, hg⟩ | ⟨rfl, hb⟩
  · exact .inl ⟨rfl, hg.owned, hg.new, hg.frame, fun x => (hpool₀ x).trans (hg.pool x)⟩
  · refine .inr ⟨rfl, fun va hva => ?_, fun x => ?_⟩
    · -- the pages below `sz` are unmapped again, as they were
      by_cases hin : InRange 0 sz va
      · rw [hb.cleared va hin, hzero va hin]
      · exact hb.frame va hva hin
    · rw [hpool₀ x, hb.pool x, pool_empty_range h0 le_rfl]

/-- Forking the process with one page: `uvmcreate` gives the child the root 0x80006000, and
`uvmcopy` copies the page into 0x80007000 and maps it, `walk` taking 0x80008000 and 0x80009000
for the child's page-table pages. -/
theorem uvmcopy_spec_onePage :
    ∃ s', uvmcopy 0x80000000
        (uvmcreate ⟨onePageMem, [0x80006000, 0x80007000, 0x80008000, 0x80009000]⟩).1
        0x80001000 0x80006000 4096 = some (s', 0) ∧ Wf s' 0x80006000 ∧
      Copied (uvmcreate ⟨onePageMem, [0x80006000, 0x80007000, 0x80008000, 0x80009000]⟩).1.mem
        0x80001000 0 (translate s'.mem 0x80006000 0) s'.mem := by
  have hcreate : uvmcreate ⟨onePageMem, [0x80006000, 0x80007000, 0x80008000, 0x80009000]⟩ =
      (⟨memset (memset onePageMem 0x80006000 5 PGSIZE) 0x80006000 0 PGSIZE,
        [0x80007000, 0x80008000, 0x80009000]⟩, 0x80006000) := by
    rw [uvmcreate, kalloc_cons rfl]
    dsimp only
    rw [if_neg (by decide)]
  rw [hcreate]
  dsimp only
  obtain ⟨hwfR, htab, htr⟩ := onePage_wf [0x80006000, 0x80007000, 0x80008000, 0x80009000]
    (by simp) (by simp; decide) (by simp)
  obtain ⟨hwfo, hag⟩ := hwfR.take rfl
  dsimp only at hwfo hag
  have hz : ∀ i, entry (memset (memset onePageMem 0x80006000 5 PGSIZE) 0x80006000 0 PGSIZE)
      0x80006000 i = 0 := entry_memset_self (by decide)
  have hwfc : Wf ⟨memset (memset onePageMem 0x80006000 5 PGSIZE) 0x80006000 0 PGSIZE,
      [0x80007000, 0x80008000, 0x80009000]⟩ 0x80006000 :=
    wf_of_zero hz (by decide) (by decide) (by simp) (by simp; decide) (by simp)
  -- the parent maps its page 0 to 0x80004000
  have hq : ∀ va, InRange 0 4096 va →
      translate (memset (memset onePageMem 0x80006000 5 PGSIZE) 0x80006000 0 PGSIZE) 0x80001000 va =
        onePte := by
    intro va hin
    have hpg : va.toNat / PGSIZE * PGSIZE < 4096 := by
      have := hin.2.2
      rwa [toNat_PGROUNDDOWN] at this
    have hdiv : va.toNat / PGSIZE = (0 : BitVec 64).toNat / PGSIZE := by
      rw [show (0 : BitVec 64).toNat = 0 from rfl]
      unfold PGSIZE at *
      omega
    rw [hag.translate, translate_eq_of_div hdiv, htr, if_pos ⟨rfl, rfl, rfl⟩]
  have hpar : Parent ⟨memset (memset onePageMem 0x80006000 5 PGSIZE) 0x80006000 0 PGSIZE,
      [0x80007000, 0x80008000, 0x80009000]⟩ 0x80001000 0x80006000 4096 := by
    refine ⟨fun va hin => ?_, fun va hin => ?_, fun va hin ht => ?_, fun va hin => ?_,
      fun t ht htc => ?_⟩
    · rw [hq va hin]
      decide
    · rw [hq va hin]
      decide
    · rw [hq va hin] at ht
      exact absurd (table_of_zero hz ht) (by decide)
    · rw [hq va hin]
      simp
      decide
    · rw [hag.table, htab, table_of_zero hz htc] at ht
      revert ht
      decide
  obtain ⟨s', r, h, hwf', -, -, -, -, -, hres⟩ := @uvmcopy_spec _ 0x80000000 0x80001000 0x80006000 4096
    (by decide) hwfo hwfc (by simp [Ram]; decide) (by decide) hpar fun va _ => translate_of_zero hz va
  -- one round copies the page into 0x80007000 and maps it, with two pages left for `walk`
  have hrun : ∃ s₂, uvmcopy 0x80000000 ⟨memset (memset onePageMem 0x80006000 5 PGSIZE) 0x80006000 0
      PGSIZE, [0x80007000, 0x80008000, 0x80009000]⟩ 0x80001000 0x80006000 4096 = some (s₂, 0) := by
    have h0 : InRange 0 4096 0 := by
      unfold InRange
      decide
    obtain ⟨slot, hw, hslot, hload⟩ := walk_valid hwfo.toPageTable (by rw [hq 0 h0]; decide)
      (show (0 : BitVec 64).toNat < 2 ^ 38 by decide)
    rw [hq 0 h0] at hload
    obtain ⟨hwf₁, hag₁⟩ := hwfc.take_with rfl (pageFrame_copyPage (r := 0x80007000) (by decide)
      (PTE2PA_mod onePte))
    obtain ⟨s₂, hmap⟩ := mappages_page_of_room 0x80007000 ((PTE_FLAGS onePte).setWidth 32) hwf₁
      (show Aligned (0 : BitVec 64) by decide) (by decide)
      (by rw [hag₁.translate, translate_of_zero hz]; rfl) (by decide)
    rw [← hload] at hmap
    rw [uvmcopy, uvmcopyLoop_copy (by decide) hw hslot (by rw [hload]; decide) rfl (by decide) hmap,
      uvmcopyLoop, if_neg (by decide)]
    exact ⟨_, rfl⟩
  obtain ⟨s₂, hs₂⟩ := hrun
  rw [hs₂, Option.some.injEq, Prod.mk.injEq] at h
  obtain ⟨rfl, rfl⟩ := h
  rcases hres with ⟨-, -, hcopy, -⟩ | ⟨h1, -⟩
  · exact ⟨_, hs₂, hwf', hcopy 0 (by unfold InRange; decide)⟩
  · exact absurd h1 (by decide)

end Xv6.Vm
