import Mathlib
import Xv6.Vm.PageTable

/-!
# Copying between the kernel and user memory (kernel/vm.c): copyout, copyin, copyinstr

`copyout` and `copyin` run one loop (`copyLoop`): a page at a time, they find the physical page
of the next user byte with `walkaddr`, fail with -1 when it is not mapped for the user, and
`memmove` the rest of the page, or of the length, between it and the kernel buffer. `copyinstr`
runs the same loop over pages with a loop over bytes inside, which stops after the first NUL.

Read through the page table, the user bytes from `va` lie at `physaddr s root (va + i)`.
The loops are copies between those addresses and the kernel buffer (`ByteCopy.Transfer`), when
the copies change no page-table page (`OffTable`) and the kernel buffer is not one of the user
bytes (`Apart`):

* `copyLoop_spec`: the loop returns 0 exactly when every byte lies in a page mapped for the
  user (`UserMapped`), leaves the page tables and the free list as they were, and then has
  copied the bytes;
* `copyinstr_spec`: `copyinstr` returns 0 exactly when the user string ends within `max`
  bytes (`UserString`), and then has copied it with its NUL.

`onePage_wf` builds a user page table as `uvmcreate`, `walk` and `mappages` do, mapping one
page; each of the results above is then applied where its copy succeeds.
-/

namespace Xv6.Vm

open ByteCopy

/-! ### The loops -/

/-- Within a page there is no wrap past the top of the address space. -/
theorem toNat_add_ofNat_of_page {va : BitVec 64} {i : ℕ} (h : va.toNat % PGSIZE + i < PGSIZE) :
    (va + BitVec.ofNat 64 i).toNat = va.toNat + i := by
  have hlt : va.toNat + i < 2 ^ 64 := by
    have := va.isLt
    unfold PGSIZE at h
    omega
  exact toNat_add_ofNat va hlt

theorem toNat_sub_PGROUNDDOWN (va : BitVec 64) : (va - PGROUNDDOWN va).toNat = va.toNat % PGSIZE := by
  have hle : (PGROUNDDOWN va).toNat ≤ va.toNat := by
    rw [toNat_PGROUNDDOWN]
    exact Nat.div_mul_le_self _ _
  rw [BitVec.toNat_sub_of_le (BitVec.le_def.2 hle), toNat_PGROUNDDOWN]
  unfold PGSIZE
  omega

/-- The count of one round, `n = PGSIZE - (va - va0); if(n > len) n = len;`: the rest of the
page, or of the length. -/
theorem toNat_chunk (va len : BitVec 64) :
    (if (PGSIZE : BitVec 64) - (va - PGROUNDDOWN va) > len then len
      else (PGSIZE : BitVec 64) - (va - PGROUNDDOWN va)).toNat =
      min (PGSIZE - va.toNat % PGSIZE) len.toNat := by
  have hoff := toNat_sub_PGROUNDDOWN va
  have hlt : va.toNat % PGSIZE < PGSIZE := Nat.mod_lt _ (by decide)
  have hrest : ((PGSIZE : BitVec 64) - (va - PGROUNDDOWN va)).toNat = PGSIZE - va.toNat % PGSIZE := by
    rw [BitVec.toNat_sub_of_le (BitVec.le_def.2 (by rw [hoff]; exact Nat.le_of_lt hlt)), hoff]
    rfl
  split_ifs with h
  · rw [gt_iff_lt, BitVec.lt_def, hrest] at h
    omega
  · rw [BitVec.not_lt, BitVec.le_def, hrest] at h
    rw [hrest]
    omega

/-- The loop of `copyout` (`toUser`) and of `copyin`: `len` bytes between the user address `uva`
and the kernel address `kva`, 0, or -1 at the first page not mapped for the user. -/
def copyLoop (toUser : Bool) (s : VmState) (pagetable uva kva len : BitVec 64) : VmState × ℤ :=
  if len = 0 then (s, 0)
  else
    let va0 := PGROUNDDOWN uva
    let pa0 := walkaddr s pagetable va0
    if pa0 = 0 then (s, -1)
    else
      let n := if (PGSIZE : BitVec 64) - (uva - va0) > len then len
        else (PGSIZE : BitVec 64) - (uva - va0)
      -- `memmove((void *)(pa0 + (dstva - va0)), src, n)` or `memmove(dst, (void *)(pa0 + (srcva - va0)), n)`
      let mem := if toUser then memmove s.mem (pa0 + (uva - va0)) kva (n.setWidth 32)
        else memmove s.mem kva (pa0 + (uva - va0)) (n.setWidth 32)
      copyLoop toUser ⟨mem, s.free⟩ pagetable (va0 + PGSIZE) (kva + n) (len - n)
termination_by len.toNat
decreasing_by
  have hn := toNat_chunk uva len
  have hpos : 0 < len.toNat := Nat.pos_of_ne_zero fun h => ‹¬len = 0› (BitVec.eq_of_toNat_eq h)
  have hlt : uva.toNat % PGSIZE < PGSIZE := Nat.mod_lt _ (by decide)
  simp only [dite_eq_ite]
  rw [BitVec.toNat_sub_of_le (BitVec.le_def.2 (by rw [hn]; exact Nat.min_le_right _ _)), hn]
  omega

/-- `copyout(pagetable, dstva, src, len)`. -/
def copyout (s : VmState) (pagetable dstva src len : BitVec 64) : VmState × ℤ :=
  copyLoop true s pagetable dstva src len

/-- `copyin(pagetable, dst, srcva, len)`. -/
def copyin (s : VmState) (pagetable dst srcva len : BitVec 64) : VmState × ℤ :=
  copyLoop false s pagetable srcva dst len

/-- The loop over bytes of `copyinstr`, `n` bytes from the physical address `p` to `dst`: memory,
`max`, `dst`, and `got_null`. -/
def copyinstrPage (mem : Memory) (p dst max : BitVec 64) : ℕ → Memory × BitVec 64 × BitVec 64 × Bool
  | 0 => (mem, max, dst, false)
  | n + 1 =>
    if mem p = 0 then (Function.update mem dst 0, max, dst, true)
    else copyinstrPage (Function.update mem dst (mem p)) (p + 1) (dst + 1) (max - 1) n

/-- Without a NUL the loop over bytes runs to its end, and takes `n` from `max`. -/
theorem copyinstrPage_max (mem : Memory) (p dst max : BitVec 64) (n : ℕ)
    (h : (copyinstrPage mem p dst max n).2.2.2 = false) :
    (copyinstrPage mem p dst max n).2.1 = max - BitVec.ofNat 64 n := by
  induction n generalizing mem p dst max with
  | zero => exact (BitVec.sub_zero max).symm
  | succ n ih =>
    rw [copyinstrPage] at h ⊢
    -- a NUL sets `got_null`, so the loop went on
    split_ifs at h ⊢ with hp
    rw [ih _ _ _ _ h, BitVec.sub_sub, BitVec.ofNat_add, BitVec.add_comm]
    rfl

/-- `copyinstr(pagetable, dst, srcva, max)`. -/
def copyinstr (s : VmState) (pagetable dst srcva max : BitVec 64) : VmState × ℤ :=
  -- `while(got_null == 0 && max > 0)`: past the first round `got_null` is 0 here
  if hmax : max = 0 then (s, -1)
  else
    let va0 := PGROUNDDOWN srcva
    let pa0 := walkaddr s pagetable va0
    if pa0 = 0 then (s, -1)
    else
      let n := if (PGSIZE : BitVec 64) - (srcva - va0) > max then max
        else (PGSIZE : BitVec 64) - (srcva - va0)
      match hpage : copyinstrPage s.mem (pa0 + (srcva - va0)) dst max n.toNat with
      | (mem, max', dst', got_null) =>
        if got_null then (⟨mem, s.free⟩, 0)
        else copyinstr ⟨mem, s.free⟩ pagetable dst' (va0 + PGSIZE) max'
termination_by max.toNat
decreasing_by
  have hn := toNat_chunk srcva max
  have hpos : 0 < max.toNat := Nat.pos_of_ne_zero fun h => hmax (BitVec.eq_of_toNat_eq h)
  have hlt : srcva.toNat % PGSIZE < PGSIZE := Nat.mod_lt _ (by decide)
  have hmax' := copyinstrPage_max s.mem (pa0 + (srcva - va0)) dst max n.toNat
    (by rw [hpage]; simpa using ‹¬got_null = true›)
  rw [hpage] at hmax'
  have hn' : n.toNat = min (PGSIZE - srcva.toNat % PGSIZE) max.toNat := by
    simp only [n, va0, dite_eq_ite]
    exact hn
  change max' = _ at hmax'
  rw [hmax', BitVec.toNat_sub, BitVec.toNat_ofNat, hn']
  omega

/-! ### User bytes through the page table -/

/-- The physical address of the user address `va`: its offset in the page that `walkaddr` finds
for it, or in page 0 when there is none. -/
def physaddr (s : VmState) (pagetable va : BitVec 64) : BitVec 64 :=
  walkaddr s pagetable (PGROUNDDOWN va) + (va - PGROUNDDOWN va)

/-- The `len` bytes from the user address `va` lie in pages mapped for the user. -/
def UserMapped (s : VmState) (pagetable va : BitVec 64) (len : ℕ) : Prop :=
  ∀ i < len, walkaddr s pagetable (PGROUNDDOWN (va + BitVec.ofNat 64 i)) ≠ 0

instance (s : VmState) (pagetable va : BitVec 64) (len : ℕ) :
    Decidable (UserMapped s pagetable va len) :=
  inferInstanceAs (Decidable (∀ i < len, _))

/-- None of the `n` addresses `dst i` lies in a page-table page. -/
def OffTable (mem : Memory) (root : BitVec 64) (dst : ℕ → BitVec 64) (n : ℕ) : Prop :=
  ∀ i < n, ¬ Table mem root (PGROUNDDOWN (dst i))

/-- No byte of the `len` from the user address `va` that lies in a page mapped for the user is
one of the `len` bytes of the kernel buffer at `ka`. -/
def Apart (s : VmState) (pagetable va ka : BitVec 64) (len : ℕ) : Prop :=
  ∀ i < len, walkaddr s pagetable (PGROUNDDOWN (va + BitVec.ofNat 64 i)) ≠ 0 →
    ∀ j < len, physaddr s pagetable (va + BitVec.ofNat 64 i) ≠ ka + BitVec.ofNat 64 j

/-- The user string at `va` ends at byte `k`: that byte is a NUL, none before it is, and all of
them lie in pages mapped for the user. -/
def UserString (s : VmState) (pagetable va : BitVec 64) (k : ℕ) : Prop :=
  UserMapped s pagetable va (k + 1) ∧ s.mem (physaddr s pagetable (va + BitVec.ofNat 64 k)) = 0 ∧
    ∀ j < k, s.mem (physaddr s pagetable (va + BitVec.ofNat 64 j)) ≠ 0

theorem walkaddr_aligned (s : VmState) (pagetable va : BitVec 64) :
    Aligned (walkaddr s pagetable va) := by
  have h0 : Aligned 0 := rfl
  rw [walkaddr]
  split
  · exact h0
  · dsimp only
    split
    · exact h0
    split
    · exact h0
    split
    · exact h0
    · exact PTE2PA_mod _

/-- `walkaddr` reads only the page-table pages. -/
theorem walkaddr_congr {s₀ s : VmState} {root : BitVec 64} (hpt : PageTable s₀.mem root)
    (h : Agree s₀.mem s.mem root) (va : BitVec 64) : walkaddr s root va = walkaddr s₀ root va := by
  rw [walkaddr_eq (h.pageTable hpt), walkaddr_eq hpt, h.translate]

/-- A page of zeros maps no user page. -/
theorem walkaddr_of_zero {s : VmState} {root : BitVec 64} (hpt : PageTable s.mem root)
    (hz : ∀ i, entry s.mem root i = 0) (va : BitVec 64) : walkaddr s root va = 0 := by
  rw [walkaddr_eq hpt, translate_of_zero hz]
  simp

theorem toNat_physaddr (s : VmState) (pagetable va : BitVec 64) :
    (physaddr s pagetable va).toNat = (walkaddr s pagetable (PGROUNDDOWN va)).toNat + va.toNat % PGSIZE := by
  have hal := walkaddr_aligned s pagetable (PGROUNDDOWN va)
  have hlt := (walkaddr s pagetable (PGROUNDDOWN va)).isLt
  have hoff : va.toNat % PGSIZE < PGSIZE := Nat.mod_lt _ (by decide)
  rw [physaddr, BitVec.toNat_add, toNat_sub_PGROUNDDOWN]
  unfold Aligned PGSIZE at *
  omega

/-- Read through the page table, `va` lies in the page `walkaddr` finds for it. -/
theorem PGROUNDDOWN_physaddr (s : VmState) (pagetable va : BitVec 64) :
    PGROUNDDOWN (physaddr s pagetable va) = walkaddr s pagetable (PGROUNDDOWN va) := by
  have hal := walkaddr_aligned s pagetable (PGROUNDDOWN va)
  have hoff : va.toNat % PGSIZE < PGSIZE := Nat.mod_lt _ (by decide)
  apply PGROUNDDOWN_eq hal
  rw [toNat_physaddr]
  unfold Aligned PGSIZE at *
  omega

theorem PGROUNDDOWN_add_of_page {va : BitVec 64} {i : ℕ} (h : va.toNat % PGSIZE + i < PGSIZE) :
    PGROUNDDOWN (va + BitVec.ofNat 64 i) = PGROUNDDOWN va := by
  apply PGROUNDDOWN_eq (aligned_PGROUNDDOWN va)
  rw [toNat_add_ofNat_of_page h, toNat_PGROUNDDOWN]
  unfold PGSIZE at *
  omega

/-- Within a page, the physical addresses of user bytes follow one another. -/
theorem physaddr_add (s : VmState) (pagetable : BitVec 64) {va : BitVec 64} {i : ℕ}
    (h : va.toNat % PGSIZE + i < PGSIZE) :
    physaddr s pagetable (va + BitVec.ofNat 64 i) = physaddr s pagetable va + BitVec.ofNat 64 i := by
  rw [physaddr, physaddr, PGROUNDDOWN_add_of_page h]
  abel

/-- The byte after the rest of the page of `va` starts the next page. -/
theorem add_rest_of_page (va : BitVec 64) :
    va + BitVec.ofNat 64 (PGSIZE - va.toNat % PGSIZE) = PGROUNDDOWN va + (PGSIZE : BitVec 64) := by
  have hoff : va.toNat % PGSIZE < PGSIZE := Nat.mod_lt _ (by decide)
  apply BitVec.eq_of_toNat_eq
  rw [BitVec.toNat_add, BitVec.toNat_add, BitVec.toNat_ofNat, toNat_PGROUNDDOWN,
    show (PGSIZE : BitVec 64).toNat = PGSIZE from rfl]
  unfold PGSIZE at *
  omega

/-! ### What the loops ask of the bytes -/

/-- The bytes from `va` are the first `k`, then the bytes from `va'`. -/
theorem userMapped_append {s : VmState} {pagetable va va' : BitVec 64} {k l : ℕ}
    (hshift : ∀ i < l, va + BitVec.ofNat 64 (k + i) = va' + BitVec.ofNat 64 i) :
    UserMapped s pagetable va (k + l) ↔
      UserMapped s pagetable va k ∧ UserMapped s pagetable va' l := by
  constructor
  · intro h
    refine ⟨fun i hi => h i (by omega), fun i hi => ?_⟩
    rw [← hshift i hi]
    exact h (k + i) (by omega)
  · rintro ⟨h₁, h₂⟩ i hi
    rcases Nat.lt_or_ge i k with hik | hki
    · exact h₁ i hik
    · obtain ⟨j, rfl⟩ := Nat.exists_eq_add_of_le hki
      rw [hshift j (by omega)]
      exact h₂ j (by omega)

/-- The bytes of one page are mapped when the page is. -/
theorem userMapped_page {s : VmState} {pagetable va : BitVec 64} {n : ℕ}
    (hn : va.toNat % PGSIZE + n ≤ PGSIZE) (h0 : 0 < n) :
    UserMapped s pagetable va n ↔ walkaddr s pagetable (PGROUNDDOWN va) ≠ 0 := by
  constructor
  · intro h
    simpa [add_ofNat_zero] using h 0 h0
  · intro h i hi
    rwa [PGROUNDDOWN_add_of_page (by omega)]

/-- A copy that changes no byte of a page-table page of `root` leaves the page tables alone. -/
theorem agree_of_transfer {m₀ m m' : Memory} {root : BitVec 64} {dst src : ℕ → BitVec 64} {n : ℕ}
    (hpt : PageTable m₀ root) (hag : Agree m₀ m root) (h : Transfer m m' dst src n)
    (hoff : OffTable m₀ root dst n) : Agree m₀ m' root := by
  refine hag.trans (agree_of_outside (hag.pageTable hpt) fun b t ht hlo hhi => ?_)
  refine h.frame b fun i hi he => hoff i hi ?_
  -- `b` lies in the page-table page `t`, which is the page of `dst i`
  have hal := (hag.pageTable hpt).aligned_of_table ht
  have hpage : PGROUNDDOWN b = t := PGROUNDDOWN_eq hal (by unfold Aligned PGSIZE at *; omega)
  rw [← he, hpage]
  exact (hag.table t).1 ht

theorem Apart.rest {s : VmState} {pagetable va va' ka : BitVec 64} {k l : ℕ}
    (hshift : ∀ i < l, va + BitVec.ofNat 64 (k + i) = va' + BitVec.ofNat 64 i)
    (h : Apart s pagetable va ka (k + l)) : Apart s pagetable va' (ka + BitVec.ofNat 64 k) l := by
  intro i hi hmapped j hj
  rw [← hshift i hi] at hmapped ⊢
  rw [BitVec.add_assoc, ← BitVec.ofNat_add]
  exact h (k + i) (by omega) hmapped (k + j) (by omega)

theorem physaddr_congr {s₀ s : VmState} {root : BitVec 64} (hpt : PageTable s₀.mem root)
    (h : Agree s₀.mem s.mem root) (va : BitVec 64) : physaddr s root va = physaddr s₀ root va := by
  rw [physaddr, physaddr, walkaddr_congr hpt h]

/-- A kernel buffer within one page that is not a page-table page lies off the page table. -/
theorem offTable_of_page {mem : Memory} {root k : BitVec 64} (hk : Aligned k)
    (hT : ¬ Table mem root k) {n : ℕ} (hn : n ≤ PGSIZE) :
    OffTable mem root (fun i => k + BitVec.ofNat 64 i) n := by
  intro i hi ht
  unfold Aligned at hk
  rw [PGROUNDDOWN_add_of_page (by omega), PGROUNDDOWN_of_aligned hk] at ht
  exact hT ht

/-! ### A process with one page

A user page table as `uvmcreate` and `mappages` build it: the root 0x80001000, the level-1 and
level-0 pages 0x80002000 and 0x80003000 that `walk` links, and the user page 0 mapped to
0x80004000, which holds "hi". The page 0x80005000 holds "ok" for the kernel. -/

/-- The bytes before the page table is built, the root page zeroed by `uvmcreate`. -/
def hiMem : Memory :=
  memset (fun a => if a = 0x80004000 then 104 else if a = 0x80004001 then 105
    else if a = 0x80005000 then 111 else if a = 0x80005001 then 107 else 0) 0x80001000 0 PGSIZE

/-- The leaf PTE of the user page, `PTE_R|PTE_W|PTE_U`. -/
def onePte : BitVec 64 := PA2PTE 0x80004000 ||| PTE_V ||| PTE_R ||| PTE_W ||| PTE_U

/-- Memory after `walk` has linked the two fresh page-table pages and `mappages` has stored the
leaf PTE. -/
def onePageMem : Memory :=
  storePte
    (storePte
      (memset (memset
        (storePte (memset (memset hiMem 0x80002000 5 PGSIZE) 0x80002000 0 PGSIZE)
          (0x80001000 + 8 * BitVec.ofNat 64 (0 : Fin 512)) (PA2PTE 0x80002000 ||| PTE_V))
        0x80003000 5 PGSIZE) 0x80003000 0 PGSIZE)
      (0x80002000 + 8 * BitVec.ofNat 64 (0 : Fin 512)) (PA2PTE 0x80003000 ||| PTE_V))
    (0x80003000 + 8 * PX 0 0) onePte

/-- The page table is well formed, has three page-table pages, and maps the page 0 only. -/
theorem onePage_wf (rest : List (BitVec 64)) (hnd : (0x80002000 :: 0x80003000 :: rest).Nodup)
    (hfree : ∀ a ∈ (0x80002000 :: 0x80003000 :: rest : List (BitVec 64)), a ≠ 0 ∧ Aligned a)
    (hroot : (0x80001000 : BitVec 64) ∉ (0x80002000 :: 0x80003000 :: rest : List (BitVec 64))) :
    Wf ⟨onePageMem, rest⟩ 0x80001000 ∧
      (∀ t, Table onePageMem 0x80001000 t ↔ t = 0x80001000 ∨ t = 0x80002000 ∨ t = 0x80003000) ∧
      ∀ va, translate onePageMem 0x80001000 va =
        if px 2 va = px 2 0 ∧ px 1 va = px 1 0 ∧ px 0 va = px 0 0 then onePte else 0 := by
  have hz : ∀ i, entry hiMem 0x80001000 i = 0 := entry_memset_self (by decide)
  have hwf₀ : Wf ⟨hiMem, 0x80002000 :: 0x80003000 :: rest⟩ 0x80001000 :=
    wf_of_zero hz (by decide) (by decide) hnd hfree hroot
  -- `walk` links the level-1 page under entry 0 of the root, then the level-0 page under it
  obtain ⟨hwf₁, hn₁, htr₁, htab₁⟩ := hwf₀.link (show Radix.node child (entry hiMem) 0x80001000 [] =
    some 0x80001000 from rfl) (by decide) (i := 0) (by rw [hz]; rfl) (fun _ => by decide) rfl 5
  dsimp only at hwf₁ hn₁ htr₁ htab₁
  obtain ⟨hwf₂, hn₂, htr₂, htab₂⟩ := hwf₁.link hn₁ (by decide) (i := 0) (by dsimp only; decide)
    (fun h => absurd h (by simp)) rfl 5
  dsimp only at hwf₂ hn₂ htr₂ htab₂
  -- and `mappages` stores the leaf PTE in slot 0 of the level-0 page
  obtain ⟨hwf₃, htab₃, htr₃⟩ := hwf₂.store (show level0 _ _ (0 : BitVec 64) = some 0x80003000 by
    rw [level0, show [px 2 (0 : BitVec 64), px 1 0] = [] ++ [0] ++ [0] by decide]
    exact hn₂) onePte
  dsimp only at hwf₃ htab₃ htr₃
  refine ⟨hwf₃, fun t => (htab₃ t).trans ?_, fun va => (htr₃ va).trans ?_⟩
  · rw [htab₂, htab₁, or_assoc]
    exact or_congr_left ⟨table_of_zero hz, fun e => e ▸ ⟨[], Nat.zero_le _, rfl⟩⟩
  · rw [htr₂, htr₁, translate_of_zero hz]

theorem onePage_pageTable : PageTable onePageMem 0x80001000 :=
  (onePage_wf [] (by simp) (by simp; decide) (by simp)).1.toPageTable

theorem onePage_not_table {k : BitVec 64} (h₁ : k ≠ 0x80001000) (h₂ : k ≠ 0x80002000)
    (h₃ : k ≠ 0x80003000) : ¬ Table onePageMem 0x80001000 k := fun ht => by
  rcases ((onePage_wf [] (by simp) (by simp; decide) (by simp)).2.1 k).1 ht with h | h | h
  exacts [h₁ h, h₂ h, h₃ h]

/-- The user bytes from 0 lie in the page 0x80004000. -/
theorem physaddr_onePage : ∀ i < 3, physaddr ⟨onePageMem, []⟩ 0x80001000 (0 + BitVec.ofNat 64 i) =
    0x80004000 + BitVec.ofNat 64 i := by
  decide

theorem onePage_userMapped : UserMapped ⟨onePageMem, []⟩ 0x80001000 0 2 := by
  decide

theorem physaddr_onePage_inj : ∀ i < 2, ∀ j < 2,
    physaddr ⟨onePageMem, []⟩ 0x80001000 (0 + BitVec.ofNat 64 i) =
      physaddr ⟨onePageMem, []⟩ 0x80001000 (0 + BitVec.ofNat 64 j) → i = j := by
  decide

/-- The user bytes are not the kernel's page 0x80005000. -/
theorem onePage_apart : Apart ⟨onePageMem, []⟩ 0x80001000 0 0x80005000 2 := by
  unfold Apart
  decide

/-- The user page is not a page-table page. -/
theorem onePage_user_offTable : OffTable onePageMem 0x80001000
    (fun i => physaddr ⟨onePageMem, []⟩ 0x80001000 (0 + BitVec.ofNat 64 i)) (2 : BitVec 64).toNat :=
  fun i (hi : i < 2) => by
    dsimp only
    rw [physaddr_onePage i (by omega)]
    exact offTable_of_page (by decide) (onePage_not_table (by decide) (by decide) (by decide))
      (by decide) i hi

/-! ### `copyout` and `copyin` -/

/-- Where the loop writes its `i`-th byte: to the user for `copyout`, to the kernel for
`copyin`. -/
def loopDst (toUser : Bool) (s : VmState) (pagetable uva kva : BitVec 64) (i : ℕ) : BitVec 64 :=
  if toUser then physaddr s pagetable (uva + BitVec.ofNat 64 i) else kva + BitVec.ofNat 64 i

/-- Where the loop reads its `i`-th byte. -/
def loopSrc (toUser : Bool) (s : VmState) (pagetable uva kva : BitVec 64) (i : ℕ) : BitVec 64 :=
  if toUser then kva + BitVec.ofNat 64 i else physaddr s pagetable (uva + BitVec.ofNat 64 i)

section Shift

variable {toUser : Bool} {s : VmState} {pagetable uva uva' kva : BitVec 64} {k i : ℕ}

theorem loopDst_shift (h : uva + BitVec.ofNat 64 (k + i) = uva' + BitVec.ofNat 64 i) :
    loopDst toUser s pagetable uva kva (k + i) =
      loopDst toUser s pagetable uva' (kva + BitVec.ofNat 64 k) i := by
  unfold loopDst
  rw [h, BitVec.ofNat_add, BitVec.add_assoc]

theorem loopSrc_shift (h : uva + BitVec.ofNat 64 (k + i) = uva' + BitVec.ofNat 64 i) :
    loopSrc toUser s pagetable uva kva (k + i) =
      loopSrc toUser s pagetable uva' (kva + BitVec.ofNat 64 k) i := by
  unfold loopSrc
  rw [h, BitVec.ofNat_add, BitVec.add_assoc]

end Shift

/-- Over mapped bytes, the loop never reads a byte it writes. -/
theorem Apart.src_ne_dst {toUser : Bool} {s : VmState} {pagetable uva kva : BitVec 64} {len i j : ℕ}
    (hA : Apart s pagetable uva kva len) (hU : UserMapped s pagetable uva len) (hi : i < len)
    (hj : j < len) : loopSrc toUser s pagetable uva kva i ≠ loopDst toUser s pagetable uva kva j := by
  cases toUser with
  | true => exact (hA j hj (hU j hj) i hi).symm
  | false => exact hA i hi (hU i hi) j hj

/-- One round moves the `n` bytes from `uva` within its page. -/
theorem round_transfer (toUser : Bool) (m : Memory) (s : VmState) (pagetable kva : BitVec 64)
    {uva n : BitVec 64}
    (hn : uva.toNat % PGSIZE + n.toNat ≤ PGSIZE) (hk : kva.toNat + n.toNat ≤ 2 ^ 64) :
    Transfer m (if toUser then memmove m (physaddr s pagetable uva) kva (n.setWidth 32)
        else memmove m kva (physaddr s pagetable uva) (n.setWidth 32))
      (loopDst toUser s pagetable uva kva) (loopSrc toUser s pagetable uva kva) n.toNat := by
  have hw : (n.setWidth 32).toNat = n.toNat := by
    rw [BitVec.toNat_setWidth]
    exact Nat.mod_eq_of_lt (by unfold PGSIZE at hn; omega)
  have hp : (physaddr s pagetable uva).toNat + n.toNat ≤ 2 ^ 64 := by
    have hal := walkaddr_aligned s pagetable (PGROUNDDOWN uva)
    have hlt := (walkaddr s pagetable (PGROUNDDOWN uva)).isLt
    rw [toNat_physaddr]
    unfold Aligned PGSIZE at *
    omega
  -- within the page the user bytes follow one another
  have hpage : ∀ i < n.toNat, physaddr s pagetable (uva + BitVec.ofNat 64 i) =
      physaddr s pagetable uva + BitVec.ofNat 64 i := fun i hi => physaddr_add s pagetable (by omega)
  cases toUser with
  | true =>
    have h := (memmove_moved m (physaddr s pagetable uva) kva (n.setWidth 32) (by rwa [hw])
      (by rwa [hw])).transfer
    rw [hw] at h
    exact h.congr (fun i hi => hpage i hi) (fun _ _ => rfl)
  | false =>
    have h := (memmove_moved m kva (physaddr s pagetable uva) (n.setWidth 32) (by rwa [hw])
      (by rwa [hw])).transfer
    rw [hw] at h
    exact h.congr (fun _ _ => rfl) (fun i hi => hpage i hi)

theorem copyLoop_zero (toUser : Bool) (s : VmState) (pagetable uva kva : BitVec 64) :
    copyLoop toUser s pagetable uva kva 0 = (s, 0) := by
  rw [copyLoop, if_pos rfl]

theorem copyLoop_unmapped {toUser : Bool} {s : VmState} {pagetable uva kva len : BitVec 64}
    (hlen : len ≠ 0) (hpa : walkaddr s pagetable (PGROUNDDOWN uva) = 0) :
    copyLoop toUser s pagetable uva kva len = (s, -1) := by
  rw [copyLoop, if_neg hlen]
  dsimp only
  rw [if_pos hpa]

/-- A round over a mapped page, and the loop from the next page. -/
theorem copyLoop_mapped (toUser : Bool) {s : VmState} {pagetable uva : BitVec 64} (kva : BitVec 64)
    {len : BitVec 64} (hlen : len ≠ 0) (hpa : walkaddr s pagetable (PGROUNDDOWN uva) ≠ 0) :
    ∃ n : BitVec 64, n.toNat = min (PGSIZE - uva.toNat % PGSIZE) len.toNat ∧
      copyLoop toUser s pagetable uva kva len =
        copyLoop toUser ⟨if toUser then memmove s.mem (physaddr s pagetable uva) kva (n.setWidth 32)
            else memmove s.mem kva (physaddr s pagetable uva) (n.setWidth 32), s.free⟩
          pagetable (PGROUNDDOWN uva + PGSIZE) (kva + n) (len - n) := by
  refine ⟨_, toNat_chunk uva len, ?_⟩
  rw [copyLoop, if_neg hlen]
  dsimp only
  rw [if_neg hpa]
  rfl

/-- The loop from a state whose page tables are those of `s₀`, when it writes no page-table page
and the kernel buffer does not wrap: it returns 0 exactly when the bytes are mapped for the user,
changes no page-table page and no free page, and has then copied the bytes, if it writes each
at its own address and never where it still has to read. -/
theorem copyLoop_spec {root : BitVec 64} {s₀ : VmState} (hpt : PageTable s₀.mem root) (toUser : Bool)
    (len : BitVec 64) (s : VmState) (uva kva : BitVec 64) (hag : Agree s₀.mem s.mem root)
    (hoff : OffTable s₀.mem root (loopDst toUser s₀ root uva kva) len.toNat)
    (hk : kva.toNat + len.toNat ≤ 2 ^ 64) :
    ((copyLoop toUser s root uva kva len).2 = 0 ↔ UserMapped s₀ root uva len.toNat) ∧
      Agree s₀.mem (copyLoop toUser s root uva kva len).1.mem root ∧
      (copyLoop toUser s root uva kva len).1.free = s.free ∧
      (UserMapped s₀ root uva len.toNat →
        (∀ i < len.toNat, ∀ j < len.toNat,
          loopDst toUser s₀ root uva kva i = loopDst toUser s₀ root uva kva j → i = j) →
        Apart s₀ root uva kva len.toNat →
        Transfer s.mem (copyLoop toUser s root uva kva len).1.mem
          (loopDst toUser s₀ root uva kva) (loopSrc toUser s₀ root uva kva) len.toNat) := by
  by_cases hlen : len = 0
  · -- `while(len > 0)` is done
    subst hlen
    have h0 : (0 : BitVec 64).toNat = 0 := rfl
    rw [copyLoop_zero, h0]
    exact ⟨⟨fun _ i hi => absurd hi (Nat.not_lt_zero i), fun _ => rfl⟩, hag, rfl,
      fun _ _ _ => Transfer.zero _ _ _⟩
  have hpos : 0 < len.toNat := Nat.pos_of_ne_zero fun h => hlen (BitVec.eq_of_toNat_eq h)
  by_cases hpa : walkaddr s₀ root (PGROUNDDOWN uva) = 0
  · -- `if(pa0 == 0) return -1;`
    rw [copyLoop_unmapped hlen (by rwa [walkaddr_congr hpt hag])]
    have hnot : ¬ UserMapped s₀ root uva len.toNat := fun h => h 0 hpos (by rwa [add_ofNat_zero])
    exact ⟨⟨fun h => absurd h (by simp), fun h => absurd h hnot⟩, hag, rfl, fun h => absurd h hnot⟩
  -- a round over the page of `uva`, then the loop from the next page
  obtain ⟨n, hn, heq⟩ := copyLoop_mapped toUser kva hlen (by rwa [walkaddr_congr hpt hag])
  rw [heq, physaddr_congr hpt hag]
  have hoffn : uva.toNat % PGSIZE + n.toNat ≤ PGSIZE := by
    have := Nat.mod_lt uva.toNat (show 0 < PGSIZE by decide)
    omega
  have hnpos : 0 < n.toNat := by
    have := Nat.mod_lt uva.toNat (show 0 < PGSIZE by decide)
    omega
  have hrest : (len - n).toNat = len.toNat - n.toNat :=
    BitVec.toNat_sub_of_le (BitVec.le_def.2 (by omega))
  have hsplit : len.toNat = n.toNat + (len - n).toNat := by omega
  have hround := round_transfer toUser s.mem s₀ root kva hoffn (by omega)
  generalize (if toUser then memmove s.mem (physaddr s₀ root uva) kva (n.setWidth 32)
    else memmove s.mem kva (physaddr s₀ root uva) (n.setWidth 32)) = mem₁ at hround ⊢
  have hag₁ : Agree s₀.mem mem₁ root := agree_of_transfer hpt hag hround fun i hi => hoff i (by omega)
  -- the rest of the bytes start the next page
  have hshift : ∀ i < (len - n).toNat,
      uva + BitVec.ofNat 64 (n.toNat + i) = PGROUNDDOWN uva + (PGSIZE : BitVec 64) + BitVec.ofNat 64 i := by
    intro i hi
    have hfull : n.toNat = PGSIZE - uva.toNat % PGSIZE := by omega
    rw [BitVec.ofNat_add, ← BitVec.add_assoc, hfull, add_rest_of_page]
  have hkn : kva + n = kva + BitVec.ofNat 64 n.toNat := by
    rw [BitVec.ofNat_toNat, BitVec.setWidth_eq]
  have hoff' : OffTable s₀.mem root
      (loopDst toUser s₀ root (PGROUNDDOWN uva + PGSIZE) (kva + n)) (len - n).toNat := by
    intro i hi
    rw [hkn, ← loopDst_shift (hshift i hi)]
    exact hoff (n.toNat + i) (by omega)
  have hk' : (kva + n).toNat + (len - n).toNat ≤ 2 ^ 64 := by
    have : (kva + n).toNat ≤ kva.toNat + n.toNat := by
      rw [BitVec.toNat_add]
      exact Nat.mod_le _ _
    omega
  obtain ⟨ih_ret, ih_agree, ih_free, ih_transfer⟩ :=
    copyLoop_spec hpt toUser (len - n) ⟨mem₁, s.free⟩ (PGROUNDDOWN uva + PGSIZE) (kva + n) hag₁ hoff' hk'
  have hmapped : UserMapped s₀ root uva len.toNat ↔
      UserMapped s₀ root (PGROUNDDOWN uva + PGSIZE) (len - n).toNat := by
    rw [hsplit, userMapped_append hshift, userMapped_page hoffn hnpos]
    exact and_iff_right hpa
  refine ⟨ih_ret.trans hmapped.symm, ih_agree, ih_free, fun hU hinj hA => ?_⟩
  have hU₂ := hmapped.1 hU
  rw [hsplit] at hinj hA ⊢
  -- the rest, read from the first byte of the loop
  have hinj₂ : ∀ i < (len - n).toNat, ∀ j < (len - n).toNat,
      loopDst toUser s₀ root (PGROUNDDOWN uva + PGSIZE) (kva + n) i =
        loopDst toUser s₀ root (PGROUNDDOWN uva + PGSIZE) (kva + n) j → i = j := by
    intro i hi j hj he
    rw [hkn, ← loopDst_shift (hshift i hi), ← loopDst_shift (hshift j hj)] at he
    have := hinj _ (by omega) _ (by omega) he
    omega
  have hA₂ : Apart s₀ root (PGROUNDDOWN uva + PGSIZE) (kva + n) (len - n).toNat := by
    rw [hkn]
    exact hA.rest hshift
  have h₂ : Transfer mem₁ (copyLoop toUser ⟨mem₁, s.free⟩ root (PGROUNDDOWN uva + PGSIZE) (kva + n) (len - n)).1.mem
      (fun i => loopDst toUser s₀ root uva kva (n.toNat + i))
      (fun i => loopSrc toUser s₀ root uva kva (n.toNat + i)) (len - n).toNat :=
    (ih_transfer hU₂ hinj₂ hA₂).congr (fun i hi => by rw [hkn, loopDst_shift (hshift i hi)])
      (fun i hi => by rw [hkn, loopSrc_shift (hshift i hi)])
  refine hround.append h₂ (fun i hi j hj => hA.src_ne_dst (hsplit ▸ hU) (by omega) (by omega))
    (fun i hi j hj he => ?_)
  have := hinj _ (by omega) _ (by omega) he
  omega
termination_by len.toNat
decreasing_by omega

/-- `copyout` returns 0 exactly when the `len` bytes at the user address `dstva` lie in pages
mapped for the user, changes no page-table page and no free page, and has then written byte `i`
of the kernel buffer `src` at the physical address of `dstva + i`: when none of those pages is a
page-table page, the buffer does not wrap, and the user bytes are distinct physical bytes apart
from the buffer. -/
theorem copyout_spec {s : VmState} {root dstva src len : BitVec 64} (hpt : PageTable s.mem root)
    (huser : OffTable s.mem root (fun i => physaddr s root (dstva + BitVec.ofNat 64 i)) len.toNat)
    (hsrc : src.toNat + len.toNat ≤ 2 ^ 64) :
    ((copyout s root dstva src len).2 = 0 ↔ UserMapped s root dstva len.toNat) ∧
      Agree s.mem (copyout s root dstva src len).1.mem root ∧
      (copyout s root dstva src len).1.free = s.free ∧
      (UserMapped s root dstva len.toNat →
        (∀ i < len.toNat, ∀ j < len.toNat, physaddr s root (dstva + BitVec.ofNat 64 i) =
          physaddr s root (dstva + BitVec.ofNat 64 j) → i = j) →
        Apart s root dstva src len.toNat →
        Transfer s.mem (copyout s root dstva src len).1.mem
          (fun i => physaddr s root (dstva + BitVec.ofNat 64 i)) (fun i => src + BitVec.ofNat 64 i)
          len.toNat) :=
  copyLoop_spec hpt true len s dstva src (Agree.refl _ _) huser hsrc

/-- `copyout` of "ok" to the user page 0 succeeds and writes it to 0x80004000. -/
theorem copyout_spec_onePage :
    (copyout ⟨onePageMem, []⟩ 0x80001000 0 0x80005000 2).2 = 0 ∧
      ∀ i < 2, (copyout ⟨onePageMem, []⟩ 0x80001000 0 0x80005000 2).1.mem
        (0x80004000 + BitVec.ofNat 64 i) = onePageMem (0x80005000 + BitVec.ofNat 64 i) := by
  obtain ⟨hret, -, -, htr⟩ := @copyout_spec ⟨onePageMem, []⟩ 0x80001000 0 0x80005000 2
    onePage_pageTable onePage_user_offTable (by decide)
  refine ⟨hret.2 onePage_userMapped, fun i hi => ?_⟩
  rw [← physaddr_onePage i (by omega)]
  exact (htr onePage_userMapped physaddr_onePage_inj onePage_apart).copied i hi

/-- `copyin` returns 0 exactly when the `len` bytes at the user address `srcva` lie in pages
mapped for the user, changes no page-table page and no free page, and has then written the byte
at the physical address of `srcva + i` at `dst + i`: when the kernel buffer `dst` has no byte in
a page-table page, does not wrap, and is apart from the user bytes. -/
theorem copyin_spec {s : VmState} {root dst srcva len : BitVec 64} (hpt : PageTable s.mem root)
    (hdst : OffTable s.mem root (fun i => dst + BitVec.ofNat 64 i) len.toNat)
    (hwrap : dst.toNat + len.toNat ≤ 2 ^ 64) :
    ((copyin s root dst srcva len).2 = 0 ↔ UserMapped s root srcva len.toNat) ∧
      Agree s.mem (copyin s root dst srcva len).1.mem root ∧
      (copyin s root dst srcva len).1.free = s.free ∧
      (UserMapped s root srcva len.toNat → Apart s root srcva dst len.toNat →
        Transfer s.mem (copyin s root dst srcva len).1.mem (fun i => dst + BitVec.ofNat 64 i)
          (fun i => physaddr s root (srcva + BitVec.ofNat 64 i)) len.toNat) := by
  obtain ⟨hret, hag, hfree, htr⟩ := copyLoop_spec hpt false len s srcva dst (Agree.refl _ _) hdst hwrap
  refine ⟨hret, hag, hfree, fun hU hA => htr hU (fun i hi j hj he => ?_) hA⟩
  -- the kernel buffer does not wrap, so its bytes are distinct
  by_contra hne
  exact add_ofNat_ne (by omega) (by omega) (by omega) he

/-- `copyin` of the user page's "hi" into 0x80005000 succeeds. -/
theorem copyin_spec_onePage :
    (copyin ⟨onePageMem, []⟩ 0x80001000 0x80005000 0 2).2 = 0 ∧
      ∀ i < 2, (copyin ⟨onePageMem, []⟩ 0x80001000 0x80005000 0 2).1.mem
        (0x80005000 + BitVec.ofNat 64 i) = onePageMem (0x80004000 + BitVec.ofNat 64 i) := by
  obtain ⟨hret, -, -, htr⟩ := @copyin_spec ⟨onePageMem, []⟩ 0x80001000 0x80005000 0 2
    onePage_pageTable (offTable_of_page (by decide)
      (onePage_not_table (by decide) (by decide) (by decide)) (by decide)) (by decide)
  refine ⟨hret.2 onePage_userMapped, fun i hi => ?_⟩
  rw [← physaddr_onePage i (by omega)]
  exact (htr onePage_userMapped onePage_apart).copied i hi

/-! ### `copyinstr` -/

/-- The loop over bytes copies the bytes from `p` up to the first NUL among the `n` and the NUL,
and sets `got_null`; without a NUL it copies all `n` and ends at `dst + n`. -/
theorem copyinstrPage_spec (n : ℕ) : ∀ (mem : Memory) (p dst max : BitVec 64),
    dst.toNat + n ≤ 2 ^ 64 → (∀ i < n, ∀ j < n, p + BitVec.ofNat 64 i ≠ dst + BitVec.ofNat 64 j) →
    (∀ k < n, mem (p + BitVec.ofNat 64 k) = 0 → (∀ j < k, mem (p + BitVec.ofNat 64 j) ≠ 0) →
      (copyinstrPage mem p dst max n).2.2.2 = true ∧
        Transfer mem (copyinstrPage mem p dst max n).1 (fun i => dst + BitVec.ofNat 64 i)
          (fun i => p + BitVec.ofNat 64 i) (k + 1)) ∧
    ((∀ k < n, mem (p + BitVec.ofNat 64 k) ≠ 0) →
      (copyinstrPage mem p dst max n).2.2.2 = false ∧
        (copyinstrPage mem p dst max n).2.2.1 = dst + BitVec.ofNat 64 n ∧
        Transfer mem (copyinstrPage mem p dst max n).1 (fun i => dst + BitVec.ofNat 64 i)
          (fun i => p + BitVec.ofNat 64 i) n) := by
  induction n with
  | zero =>
    intro mem p dst max _ _
    exact ⟨fun k hk => absurd hk (Nat.not_lt_zero k),
      fun _ => ⟨rfl, (add_ofNat_zero dst).symm, Transfer.zero _ _ _⟩⟩
  | succ n ih =>
    intro mem p dst max hd hapart
    -- the first byte goes to `dst`, which the loop never reads nor writes again
    have hread : ∀ i < n, p + BitVec.ofNat 64 (i + 1) ≠ dst + BitVec.ofNat 64 0 :=
      fun i hi => hapart _ (by omega) _ (by omega)
    have hwrite : ∀ i < n, dst + BitVec.ofNat 64 (i + 1) ≠ dst + BitVec.ofNat 64 0 :=
      fun i hi => add_ofNat_ne (by omega) (by omega) (by omega)
    by_cases hp : mem p = 0
    · -- `*p == '\0'`: the NUL goes to `dst`, and the loop stops
      have hstep : copyinstrPage mem p dst max (n + 1) = (Function.update mem dst 0, max, dst, true) := by
        rw [copyinstrPage, if_pos hp]
      have hone : Transfer mem (Function.update mem dst 0) (fun i => dst + BitVec.ofNat 64 i)
          (fun i => p + BitVec.ofNat 64 i) 1 := by
        have h := Transfer.single mem (fun i => dst + BitVec.ofNat 64 i) (fun i => p + BitVec.ofNat 64 i)
        rwa [add_ofNat_zero, add_ofNat_zero, hp] at h
      refine ⟨fun k hk hk0 hbefore => ?_, fun hall => absurd hp ?_⟩
      · -- the first NUL is this one
        have hk : k = 0 := by
          by_contra hne
          exact hbefore 0 (by omega) (by rw [add_ofNat_zero]; exact hp)
        subst hk
        rw [hstep]
        exact ⟨rfl, hone⟩
      · simpa [add_ofNat_zero] using hall 0 (by omega)
    · -- `*dst = *p`, and the loop goes on from the next byte
      have hstep : copyinstrPage mem p dst max (n + 1) =
          copyinstrPage (Function.update mem dst (mem p)) (p + 1) (dst + 1) (max - 1) n := by
        rw [copyinstrPage, if_neg hp]
      -- the next bytes read as they were
      have hbyte : ∀ i < n, Function.update mem dst (mem p) (p + 1 + BitVec.ofNat 64 i) =
          mem (p + BitVec.ofNat 64 (i + 1)) := fun i hi => by
        rw [add_one_add_ofNat]
        exact Function.update_of_ne (by simpa [add_ofNat_zero] using hread i hi) _ _
      have hd' : (dst + 1).toNat + n ≤ 2 ^ 64 := by
        have : (dst + 1).toNat ≤ dst.toNat + 1 := by
          rw [BitVec.toNat_add]
          exact Nat.mod_le _ _
        have : (1 : BitVec 64).toNat = 1 := rfl
        omega
      obtain ⟨ihnul, ihall⟩ := ih (Function.update mem dst (mem p)) (p + 1) (dst + 1) (max - 1) hd'
        (fun i hi j hj => by
          rw [add_one_add_ofNat, add_one_add_ofNat]
          exact hapart _ (by omega) _ (by omega))
      -- what the rest copies, read from the first byte
      have hrest : ∀ {l : ℕ}, l ≤ n → Transfer (Function.update mem dst (mem p))
            (copyinstrPage (Function.update mem dst (mem p)) (p + 1) (dst + 1) (max - 1) n).1
            (fun i => dst + 1 + BitVec.ofNat 64 i) (fun i => p + 1 + BitVec.ofNat 64 i) l →
          Transfer mem (copyinstrPage mem p dst max (n + 1)).1 (fun i => dst + BitVec.ofNat 64 i)
            (fun i => p + BitVec.ofNat 64 i) (l + 1) := fun {l} hl htr => by
        have htr' : Transfer (Function.update mem (dst + BitVec.ofNat 64 0) (mem (p + BitVec.ofNat 64 0)))
            (copyinstrPage (Function.update mem dst (mem p)) (p + 1) (dst + 1) (max - 1) n).1
            (fun i => dst + BitVec.ofNat 64 (i + 1)) (fun i => p + BitVec.ofNat 64 (i + 1)) l := by
          rw [add_ofNat_zero, add_ofNat_zero]
          exact htr.congr (fun i _ => (add_one_add_ofNat dst i).symm)
            (fun i _ => (add_one_add_ofNat p i).symm)
        rw [hstep]
        exact Transfer.cons htr' (fun i hi => hread i (by omega)) (fun i hi => hwrite i (by omega))
      refine ⟨fun k hk hk0 hbefore => ?_, fun hall => ?_⟩
      · -- the NUL lies further on
        obtain ⟨k, rfl⟩ : ∃ k', k = k' + 1 := by
          rcases k with _ | k
          · exact absurd (by rwa [add_ofNat_zero] at hk0) hp
          · exact ⟨k, rfl⟩
        obtain ⟨hgot, htr⟩ := ihnul k (by omega) (by rw [hbyte k (by omega)]; exact hk0)
          (fun j hj => by rw [hbyte j (by omega)]; exact hbefore (j + 1) (by omega))
        refine ⟨by rw [hstep]; exact hgot, hrest (by omega) htr⟩
      · obtain ⟨hgot, hdst, htr⟩ := ihall fun k hk => by
          rw [hbyte k hk]
          exact hall (k + 1) (by omega)
        refine ⟨by rw [hstep]; exact hgot, by rw [hstep, hdst, add_one_add_ofNat], hrest le_rfl htr⟩

theorem copyinstr_zero (s : VmState) (pagetable dst srcva : BitVec 64) :
    copyinstr s pagetable dst srcva 0 = (s, -1) := by
  rw [copyinstr, dif_pos rfl]

theorem copyinstr_unmapped {s : VmState} {pagetable dst srcva max : BitVec 64} (hmax : max ≠ 0)
    (hpa : walkaddr s pagetable (PGROUNDDOWN srcva) = 0) : copyinstr s pagetable dst srcva max = (s, -1) := by
  rw [copyinstr, dif_neg hmax]
  dsimp only
  rw [if_pos hpa]

/-- A round over a mapped page: the loop over its bytes, and then the return or the loop from the
next page. -/
theorem copyinstr_mapped {s : VmState} {pagetable srcva max : BitVec 64} (dst : BitVec 64)
    (hmax : max ≠ 0) (hpa : walkaddr s pagetable (PGROUNDDOWN srcva) ≠ 0) :
    ∃ n : BitVec 64, n.toNat = min (PGSIZE - srcva.toNat % PGSIZE) max.toNat ∧
      copyinstr s pagetable dst srcva max =
        let r := copyinstrPage s.mem (physaddr s pagetable srcva) dst max n.toNat
        if r.2.2.2 then (⟨r.1, s.free⟩, 0)
        else copyinstr ⟨r.1, s.free⟩ pagetable r.2.2.1 (PGROUNDDOWN srcva + PGSIZE) r.2.1 := by
  refine ⟨_, toNat_chunk srcva max, ?_⟩
  rw [copyinstr, dif_neg hmax]
  dsimp only
  rw [if_neg hpa, physaddr]

/-- Past `k` bytes that are mapped and not NUL, the string goes on from `va'`. -/
theorem userString_append {s : VmState} {pagetable va va' : BitVec 64} {k l : ℕ}
    (hshift : ∀ i < l, va + BitVec.ofNat 64 (k + i) = va' + BitVec.ofNat 64 i)
    (hmapped : UserMapped s pagetable va k)
    (hnz : ∀ j < k, s.mem (physaddr s pagetable (va + BitVec.ofNat 64 j)) ≠ 0) {i : ℕ} (hi : i < l) :
    UserString s pagetable va (k + i) ↔ UserString s pagetable va' i := by
  have hshift' : ∀ j < i + 1, va + BitVec.ofNat 64 (k + j) = va' + BitVec.ofNat 64 j :=
    fun j hj => hshift j (by omega)
  unfold UserString
  rw [show k + i + 1 = k + (i + 1) by omega, userMapped_append hshift', hshift i hi,
    and_iff_right hmapped]
  refine and_congr_right fun _ => and_congr_right fun _ => ⟨fun h j hj => ?_, fun h j hj => ?_⟩
  · rw [← hshift j (by omega)]
    exact h (k + j) (by omega)
  · rcases Nat.lt_or_ge j k with hjk | hkj
    · exact hnz j hjk
    · obtain ⟨j, rfl⟩ := Nat.exists_eq_add_of_le hkj
      rw [hshift j (by omega)]
      exact h j (by omega)

/-- The end of a string is its first NUL. -/
theorem UserString.unique {s : VmState} {pagetable va : BitVec 64} {k k' : ℕ}
    (h : UserString s pagetable va k) (h' : UserString s pagetable va k') : k = k' := by
  rcases Nat.lt_trichotomy k k' with hlt | heq | hgt
  · exact absurd h.2.1 (h'.2.2 k hlt)
  · exact heq
  · exact absurd h'.2.1 (h.2.2 k' hgt)

/-- `copyinstr` from a state whose page tables are those of `s₀` and whose user bytes read as in
`s₀`: it returns 0 exactly when the string ends within `max` bytes, changes no page-table page
and no free page, and has then copied the string with its NUL. -/
theorem copyinstr_loop {root : BitVec 64} {s₀ : VmState} (hpt : PageTable s₀.mem root)
    (max : BitVec 64) (s : VmState) (dst srcva : BitVec 64) (hag : Agree s₀.mem s.mem root)
    (hoff : OffTable s₀.mem root (fun i => dst + BitVec.ofNat 64 i) max.toNat)
    (hwrap : dst.toNat + max.toNat ≤ 2 ^ 64) (hA : Apart s₀ root srcva dst max.toNat)
    (hsame : ∀ i < max.toNat, walkaddr s₀ root (PGROUNDDOWN (srcva + BitVec.ofNat 64 i)) ≠ 0 →
      s.mem (physaddr s₀ root (srcva + BitVec.ofNat 64 i)) =
        s₀.mem (physaddr s₀ root (srcva + BitVec.ofNat 64 i))) :
    ((copyinstr s root dst srcva max).2 = 0 ↔ ∃ k < max.toNat, UserString s₀ root srcva k) ∧
      Agree s₀.mem (copyinstr s root dst srcva max).1.mem root ∧
      (copyinstr s root dst srcva max).1.free = s.free ∧
      ∀ k < max.toNat, UserString s₀ root srcva k →
        Transfer s.mem (copyinstr s root dst srcva max).1.mem (fun i => dst + BitVec.ofNat 64 i)
          (fun i => physaddr s₀ root (srcva + BitVec.ofNat 64 i)) (k + 1) := by
  by_cases hmax : max = 0
  · -- `max > 0` fails before a NUL: -1
    subst hmax
    have h0 : (0 : BitVec 64).toNat = 0 := rfl
    rw [copyinstr_zero, h0]
    refine ⟨⟨fun h => absurd h (by simp), fun h => ?_⟩, hag, rfl,
      fun k hk => absurd hk (Nat.not_lt_zero k)⟩
    obtain ⟨k, hk, -⟩ := h
    exact absurd hk (Nat.not_lt_zero k)
  have hpos : 0 < max.toNat := Nat.pos_of_ne_zero fun h => hmax (BitVec.eq_of_toNat_eq h)
  by_cases hpa : walkaddr s₀ root (PGROUNDDOWN srcva) = 0
  · -- `if(pa0 == 0) return -1;`
    rw [copyinstr_unmapped hmax (by rwa [walkaddr_congr hpt hag])]
    have hnot : ∀ k, ¬ UserString s₀ root srcva k :=
      fun k hk => hk.1 0 (by omega) (by rwa [add_ofNat_zero])
    refine ⟨⟨fun h => absurd h (by simp), fun h => ?_⟩, hag, rfl, fun k _ hk => absurd hk (hnot k)⟩
    obtain ⟨k, -, hk⟩ := h
    exact absurd hk (hnot k)
  obtain ⟨n, hn, heq⟩ := copyinstr_mapped dst hmax (by rwa [walkaddr_congr hpt hag])
  rw [heq, physaddr_congr hpt hag]
  have hoffn : srcva.toNat % PGSIZE + n.toNat ≤ PGSIZE := by
    have := Nat.mod_lt srcva.toNat (show 0 < PGSIZE by decide)
    omega
  have hnpos : 0 < n.toNat := by
    have := Nat.mod_lt srcva.toNat (show 0 < PGSIZE by decide)
    omega
  -- the bytes of this page, as the loop over bytes reads them
  have hpage : ∀ i < n.toNat, physaddr s₀ root (srcva + BitVec.ofNat 64 i) =
      physaddr s₀ root srcva + BitVec.ofNat 64 i := fun i hi => physaddr_add s₀ root (by omega)
  have hmappedn : UserMapped s₀ root srcva n.toNat := (userMapped_page hoffn hnpos).2 hpa
  have hbyte : ∀ i < n.toNat, s.mem (physaddr s₀ root srcva + BitVec.ofNat 64 i) =
      s₀.mem (physaddr s₀ root (srcva + BitVec.ofNat 64 i)) := fun i hi => by
    rw [← hpage i hi]
    exact hsame i (by omega) (hmappedn i hi)
  obtain ⟨hnul, hall⟩ := copyinstrPage_spec n.toNat s.mem (physaddr s₀ root srcva) dst max (by omega)
    (fun i hi j hj => by
      rw [← hpage i hi]
      exact hA i (by omega) (hmappedn i hi) j (by omega))
  have hmax' := copyinstrPage_max s.mem (physaddr s₀ root srcva) dst max n.toNat
  generalize copyinstrPage s.mem (physaddr s₀ root srcva) dst max n.toNat = r at hnul hall hmax' ⊢
  by_cases hz : ∃ k < n.toNat, s₀.mem (physaddr s₀ root (srcva + BitVec.ofNat 64 k)) = 0
  · -- a NUL in this page: the first one ends the string and the copy
    classical
    have hz' : ∃ k, k < n.toNat ∧ s₀.mem (physaddr s₀ root (srcva + BitVec.ofNat 64 k)) = 0 := hz
    obtain ⟨hk, hk0⟩ := Nat.find_spec hz'
    have hbefore : ∀ j < Nat.find hz', s₀.mem (physaddr s₀ root (srcva + BitVec.ofNat 64 j)) ≠ 0 :=
      fun j hj h0 => Nat.find_min hz' hj ⟨by omega, h0⟩
    obtain ⟨hgot, htr⟩ := hnul (Nat.find hz') hk (by rw [hbyte _ hk]; exact hk0)
      (fun j hj => by rw [hbyte j (by omega)]; exact hbefore j hj)
    have hstr : UserString s₀ root srcva (Nat.find hz') :=
      ⟨(userMapped_page (by omega) (by omega)).2 hpa, hk0, hbefore⟩
    rw [if_pos hgot]
    refine ⟨⟨fun _ => ⟨_, by omega, hstr⟩, fun _ => rfl⟩,
      agree_of_transfer hpt hag htr fun i hi => hoff i (by omega), rfl, fun k _ hk => ?_⟩
    rw [← hstr.unique hk]
    exact htr.congr (fun _ _ => rfl) fun i hi => hpage i (by omega)
  -- no NUL in this page: all of it is copied, and the loop goes on from the next page
  simp only [not_exists, not_and] at hz
  obtain ⟨hgot, hdst, htr⟩ := hall fun k hk => by
    rw [hbyte k hk]
    exact hz k hk
  have hnn : BitVec.ofNat 64 n.toNat = n := by rw [BitVec.ofNat_toNat, BitVec.setWidth_eq]
  rw [if_neg (by rw [hgot]; decide), hdst, hmax' hgot, hnn]
  have hrest : (max - n).toNat = max.toNat - n.toNat :=
    BitVec.toNat_sub_of_le (BitVec.le_def.2 (by omega))
  have hsplit : max.toNat = n.toNat + (max - n).toNat := by omega
  have hshift : ∀ i < (max - n).toNat, srcva + BitVec.ofNat 64 (n.toNat + i) =
      PGROUNDDOWN srcva + (PGSIZE : BitVec 64) + BitVec.ofNat 64 i := by
    intro i hi
    have hfull : n.toNat = PGSIZE - srcva.toNat % PGSIZE := by omega
    rw [BitVec.ofNat_add, ← BitVec.add_assoc, hfull, add_rest_of_page]
  have hdn : ∀ i, dst + n + BitVec.ofNat 64 i = dst + BitVec.ofNat 64 (n.toNat + i) := fun i => by
    rw [BitVec.ofNat_add, hnn, BitVec.add_assoc]
  have hag₁ := agree_of_transfer hpt hag htr fun i hi => hoff i (by omega)
  have hoff' : OffTable s₀.mem root (fun i => dst + n + BitVec.ofNat 64 i) (max - n).toNat :=
    fun i hi => by
      dsimp only
      rw [hdn]
      exact hoff _ (by omega)
  have hwrap' : (dst + n).toNat + (max - n).toNat ≤ 2 ^ 64 := by
    have : (dst + n).toNat ≤ dst.toNat + n.toNat := by
      rw [BitVec.toNat_add]
      exact Nat.mod_le _ _
    omega
  have hA' : Apart s₀ root (PGROUNDDOWN srcva + PGSIZE) (dst + n) (max - n).toNat := by
    have h := (hsplit ▸ hA).rest hshift
    rwa [hnn] at h
  -- the bytes still to read are not among those written
  have hsame' : ∀ i < (max - n).toNat,
      walkaddr s₀ root (PGROUNDDOWN (PGROUNDDOWN srcva + PGSIZE + BitVec.ofNat 64 i)) ≠ 0 →
        r.1 (physaddr s₀ root (PGROUNDDOWN srcva + PGSIZE + BitVec.ofNat 64 i)) =
          s₀.mem (physaddr s₀ root (PGROUNDDOWN srcva + PGSIZE + BitVec.ofNat 64 i)) := by
    intro i hi hmapped
    rw [← hshift i hi] at hmapped ⊢
    rw [htr.frame _ fun j hj => hA _ (by omega) hmapped j (by omega)]
    exact hsame _ (by omega) hmapped
  obtain ⟨ih_ret, ih_agree, ih_free, ih_tr⟩ :=
    copyinstr_loop hpt (max - n) ⟨r.1, s.free⟩ (dst + n) (PGROUNDDOWN srcva + PGSIZE) hag₁ hoff'
      hwrap' hA' hsame'
  -- a string of this page's bytes and then more
  have hnz : ∀ j < n.toNat, s₀.mem (physaddr s₀ root (srcva + BitVec.ofNat 64 j)) ≠ 0 := hz
  have hge : ∀ k, UserString s₀ root srcva k → n.toNat ≤ k := fun k hk => by
    by_contra hlt
    exact hnz k (by omega) hk.2.1
  refine ⟨ih_ret.trans ⟨fun h => ?_, fun h => ?_⟩, ih_agree, ih_free, fun k hk hs => ?_⟩
  · obtain ⟨i, hi, hs⟩ := h
    exact ⟨n.toNat + i, by omega, (userString_append hshift hmappedn hnz hi).2 hs⟩
  · obtain ⟨k, hk, hs⟩ := h
    obtain ⟨i, rfl⟩ := Nat.exists_eq_add_of_le (hge k hs)
    exact ⟨i, by omega, (userString_append hshift hmappedn hnz (by omega)).1 hs⟩
  · obtain ⟨i, rfl⟩ := Nat.exists_eq_add_of_le (hge k hs)
    have h₁ := htr.congr (fun _ _ => rfl) fun j hj => hpage j hj
    have h₂ := ih_tr i (by omega) ((userString_append hshift hmappedn hnz (by omega)).1 hs)
    rw [Nat.add_assoc]
    exact h₁.append (h₂.congr (fun j _ => (hdn j).symm) fun j hj => by rw [hshift j (by omega)])
      (fun j hj l hl => hA _ (by omega) (hs.1 _ (by omega)) _ (by omega))
      (fun j hj l hl => add_ofNat_ne (by omega) (by omega) (by omega))
termination_by max.toNat
decreasing_by omega

/-- `copyinstr` returns 0 exactly when the user string at `srcva` ends within `max` bytes,
changes no page-table page and no free page, and has then copied the string and its NUL to
`dst`: when the kernel buffer has no byte in a page-table page, does not wrap, and is apart
from the user bytes. -/
theorem copyinstr_spec {s : VmState} {root dst srcva max : BitVec 64} (hpt : PageTable s.mem root)
    (hdst : OffTable s.mem root (fun i => dst + BitVec.ofNat 64 i) max.toNat)
    (hwrap : dst.toNat + max.toNat ≤ 2 ^ 64) (hA : Apart s root srcva dst max.toNat) :
    ((copyinstr s root dst srcva max).2 = 0 ↔ ∃ k < max.toNat, UserString s root srcva k) ∧
      Agree s.mem (copyinstr s root dst srcva max).1.mem root ∧
      (copyinstr s root dst srcva max).1.free = s.free ∧
      ∀ k < max.toNat, UserString s root srcva k →
        Transfer s.mem (copyinstr s root dst srcva max).1.mem (fun i => dst + BitVec.ofNat 64 i)
          (fun i => physaddr s root (srcva + BitVec.ofNat 64 i)) (k + 1) :=
  copyinstr_loop hpt max s dst srcva (Agree.refl _ _) hdst hwrap hA fun _ _ _ => rfl

/-- `copyinstr` of at most 3 bytes from the user page copies "hi" and its NUL. -/
theorem copyinstr_spec_onePage :
    (copyinstr ⟨onePageMem, []⟩ 0x80001000 0x80005000 0 3).2 = 0 ∧
      ∀ i < 3, (copyinstr ⟨onePageMem, []⟩ 0x80001000 0x80005000 0 3).1.mem
        (0x80005000 + BitVec.ofNat 64 i) = onePageMem (0x80004000 + BitVec.ofNat 64 i) := by
  have hA : Apart ⟨onePageMem, []⟩ 0x80001000 0 0x80005000 3 := by unfold Apart; decide
  obtain ⟨hret, -, -, htr⟩ := @copyinstr_spec ⟨onePageMem, []⟩ 0x80001000 0x80005000 0 3
    onePage_pageTable (offTable_of_page (by decide)
      (onePage_not_table (by decide) (by decide) (by decide)) (by decide)) (by decide) hA
  -- the string ends at byte 2
  have hS : UserString ⟨onePageMem, []⟩ 0x80001000 0 2 := by unfold UserString; decide
  refine ⟨hret.2 ⟨2, by decide, hS⟩, fun i hi => ?_⟩
  rw [← physaddr_onePage i hi]
  exact (htr 2 (by decide) hS).copied i hi

/-- What `copyout` writes to user memory, `copyin` reads back: after `copyout` succeeds,
`copyin` of the same user bytes succeeds and fills `dst` with the bytes of `src`. -/
theorem copyin_copyout {s : VmState} {root va src dst len : BitVec 64} (hpt : PageTable s.mem root)
    (huser : OffTable s.mem root (fun i => physaddr s root (va + BitVec.ofNat 64 i)) len.toNat)
    (hdst : OffTable s.mem root (fun i => dst + BitVec.ofNat 64 i) len.toNat)
    (hsrc : src.toNat + len.toNat ≤ 2 ^ 64) (hwrap : dst.toNat + len.toNat ≤ 2 ^ 64)
    (hinj : ∀ i < len.toNat, ∀ j < len.toNat, physaddr s root (va + BitVec.ofNat 64 i) =
      physaddr s root (va + BitVec.ofNat 64 j) → i = j)
    (hsrcA : Apart s root va src len.toNat) (hdstA : Apart s root va dst len.toNat)
    (hout : (copyout s root va src len).2 = 0) :
    (copyin (copyout s root va src len).1 root dst va len).2 = 0 ∧
      ∀ i < len.toNat, (copyin (copyout s root va src len).1 root dst va len).1.mem
        (dst + BitVec.ofNat 64 i) = s.mem (src + BitVec.ofNat 64 i) := by
  unfold copyout copyin at *
  obtain ⟨hret, hag, -, htr⟩ := copyLoop_spec hpt true len s va src (Agree.refl _ _) huser hsrc
  have hU : UserMapped s root va len.toNat := hret.1 hout
  have htr₀ := htr hU hinj hsrcA
  -- after `copyout` the page tables, and so the user bytes' addresses, are those of `s`
  have hwalk := walkaddr_congr hpt hag
  have hphys := physaddr_congr hpt hag
  obtain ⟨hret₁, -, -, htr₁⟩ := copyLoop_spec (hag.pageTable hpt) false len (copyLoop true s root va src len).1
    va dst (Agree.refl _ _) (fun i hi ht => hdst i hi ((hag.table _).1 ht)) hwrap
  have hU₁ : UserMapped (copyLoop true s root va src len).1 root va len.toNat := fun i hi => by
    rw [hwalk]
    exact hU i hi
  have hA₁ : Apart (copyLoop true s root va src len).1 root va dst len.toNat := fun i hi hm j hj => by
    rw [hphys]
    exact hdstA i hi (by rwa [hwalk] at hm) j hj
  refine ⟨hret₁.2 hU₁, fun i hi => ?_⟩
  have hinj₁ : ∀ i < len.toNat, ∀ j < len.toNat, loopDst false (copyLoop true s root va src len).1 root va dst i =
      loopDst false (copyLoop true s root va src len).1 root va dst j → i = j := fun i hi j hj he => by
    by_contra hne
    exact add_ofNat_ne (by omega) (by omega) (by omega) he
  refine ((htr₁ hU₁ hinj₁ hA₁).copied i hi).trans ?_
  show (copyLoop true s root va src len).1.mem (physaddr _ root (va + BitVec.ofNat 64 i)) = _
  rw [hphys]
  exact htr₀.copied i hi

/-- "ok" goes out to the user page and comes back into 0x80007000. -/
theorem copyin_copyout_onePage :
    (copyin (copyout ⟨onePageMem, []⟩ 0x80001000 0 0x80005000 2).1 0x80001000 0x80007000 0 2).2 = 0 ∧
      ∀ i < 2, (copyin (copyout ⟨onePageMem, []⟩ 0x80001000 0 0x80005000 2).1 0x80001000
        0x80007000 0 2).1.mem (0x80007000 + BitVec.ofNat 64 i) =
          onePageMem (0x80005000 + BitVec.ofNat 64 i) := by
  -- `copyout` succeeds: its loop returns 0 on mapped bytes
  have hout : (copyout ⟨onePageMem, []⟩ 0x80001000 0 0x80005000 2).2 = 0 :=
    (@copyLoop_spec 0x80001000 ⟨onePageMem, []⟩ onePage_pageTable true 2 _ 0 0x80005000
      (Agree.refl _ _) onePage_user_offTable (by decide)).1.2 onePage_userMapped
  exact @copyin_copyout ⟨onePageMem, []⟩ 0x80001000 0 0x80005000 0x80007000 2 onePage_pageTable
    onePage_user_offTable
    (offTable_of_page (by decide) (onePage_not_table (by decide) (by decide) (by decide)) (by decide))
    (by decide) (by decide) physaddr_onePage_inj onePage_apart (by unfold Apart; decide) hout

end Xv6.Vm
