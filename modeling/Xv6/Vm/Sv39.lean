import Xv6.Kalloc
import Xv6.String
import Xv6.Lib.LittleEndian
import Xv6.Lib.Radix

/-!
# Sv39 page tables (kernel/riscv.h)

The macros of riscv.h on 64-bit words, and page-table pages in physical memory. Memory holds a
byte at every 64-bit address; a PTE is the little-endian word of eight bytes (`loadPte`,
`storePte`), and entry `i` of the page-table page at `t` is the word at `t + 8 * i` (`entry`). A
valid entry of a non-leaf level names the page `PTE2PA` of it (`child`), so the page-table pages
reachable from a root form a radix table of depth 2 (`Radix`) whose keys are the indices
`PX(2, va)`, `PX(1, va)`, `PX(0, va)`: `translate` is the leaf PTE of `va`, or 0 when a
page-table page on the way is missing, and stands for the map from virtual pages to PTEs.

* `toNat_PX`, `toNat_PTE2PA`, `toNat_PA2PTE_or`, `toNat_PGROUNDDOWN`, `and_PTE_V_ne_zero`,
  `and_PTE_U_ne_zero`: the macros as arithmetic;
* `entry_congr`, `entry_storePte`, `entry_memset_self`: what a store does to the entries of a
  page-table page;
* `px_eq_iff`: below `MAXVA`, the three indices are the page number;
* `aligned_of_node`: every page-table page reachable from an aligned root is a page.
-/

namespace Xv6.Vm

/-! ## The macros of riscv.h -/

/-- Bits of offset within a page (`PGSHIFT`). -/
def PGSHIFT : ℕ := 12

/-- `PGROUNDDOWN(a)`, `a & ~(PGSIZE-1)`. -/
def PGROUNDDOWN (a : BitVec 64) : BitVec 64 := a &&& ~~~((PGSIZE : BitVec 64) - 1)

/-- `PTE_V`: the entry is valid. -/
def PTE_V : BitVec 64 := (1 : BitVec 64) <<< 0

/-- `PTE_R`, `PTE_W`, `PTE_X`: the page can be read, written, executed. -/
def PTE_R : BitVec 64 := (1 : BitVec 64) <<< 1

def PTE_W : BitVec 64 := (1 : BitVec 64) <<< 2

def PTE_X : BitVec 64 := (1 : BitVec 64) <<< 3

/-- `PTE_U`: user code can access the page. -/
def PTE_U : BitVec 64 := (1 : BitVec 64) <<< 4

/-- `PA2PTE(pa)`: the physical page number of `pa` at bit 10. -/
def PA2PTE (pa : BitVec 64) : BitVec 64 := (pa >>> 12) <<< 10

/-- `PTE2PA(pte)`: the physical address of the page an entry names. -/
def PTE2PA (pte : BitVec 64) : BitVec 64 := (pte >>> 10) <<< 12

/-- `PTE_FLAGS(pte)`: the low ten bits. -/
def PTE_FLAGS (pte : BitVec 64) : BitVec 64 := pte &&& 0x3FF

/-- `PXMASK`: nine bits. -/
def PXMASK : BitVec 64 := 0x1FF

/-- `PXSHIFT(level)`. -/
def PXSHIFT (level : ℕ) : ℕ := PGSHIFT + 9 * level

/-- `PX(level, va)`: the nine bits of `va` that index the page-table page of `level`. -/
def PX (level : ℕ) (va : BitVec 64) : BitVec 64 := (va >>> PXSHIFT level) &&& PXMASK

/-- `MAXVA`: one beyond the highest virtual address, a bit below Sv39's top. -/
def MAXVA : BitVec 64 := (1 : BitVec 64) <<< (9 + 9 + 9 + 12 - 1)

/-! ## The macros as arithmetic -/

theorem toNat_PX (level : ℕ) (va : BitVec 64) :
    (PX level va).toNat = va.toNat / 2 ^ (12 + 9 * level) % 512 := by
  rw [PX, BitVec.toNat_and, BitVec.toNat_ushiftRight, Nat.shiftRight_eq_div_pow,
    show PXMASK.toNat = 2 ^ 9 - 1 by decide, Nat.and_two_pow_sub_one_eq_mod]
  rfl

theorem PX_lt (level : ℕ) (va : BitVec 64) : (PX level va).toNat < 512 := by
  rw [toNat_PX]
  exact Nat.mod_lt _ (by decide)

theorem toNat_PTE2PA (pte : BitVec 64) : (PTE2PA pte).toNat = pte.toNat / 1024 * 4096 % 2 ^ 64 := by
  rw [PTE2PA, BitVec.toNat_shiftLeft, BitVec.toNat_ushiftRight, Nat.shiftRight_eq_div_pow,
    Nat.shiftLeft_eq]

/-- What `PTE2PA` gives is a page. -/
theorem PTE2PA_mod (pte : BitVec 64) : (PTE2PA pte).toNat % 4096 = 0 := by
  rw [toNat_PTE2PA]
  omega

theorem toNat_PA2PTE (pa : BitVec 64) : (PA2PTE pa).toNat = pa.toNat / 4096 * 1024 := by
  rw [PA2PTE, BitVec.toNat_shiftLeft, BitVec.toNat_ushiftRight, Nat.shiftRight_eq_div_pow,
    Nat.shiftLeft_eq]
  have := pa.isLt
  change pa.toNat / 4096 * 1024 % 2 ^ 64 = _
  omega

/-- A page number and flags below bit 10 do not overlap. -/
theorem toNat_PA2PTE_or (pa f : BitVec 64) (hf : f.toNat < 1024) :
    (PA2PTE pa ||| f).toNat = pa.toNat / 4096 * 1024 + f.toNat := by
  rw [BitVec.toNat_or, toNat_PA2PTE, show pa.toNat / 4096 * 1024 = (pa.toNat / 4096) <<< 10 by
    rw [Nat.shiftLeft_eq], ← Nat.shiftLeft_add_eq_or_of_lt (show f.toNat < 2 ^ 10 from hf),
    Nat.shiftLeft_eq]

theorem toNat_PGROUNDDOWN (a : BitVec 64) : (PGROUNDDOWN a).toNat = a.toNat / 4096 * 4096 := by
  have hmask : (~~~((PGSIZE : BitVec 64) - 1)).toNat = (2 ^ 52 - 1) <<< 12 := by decide
  have hdown : a.toNat / 4096 * 4096 = a.toNat >>> 12 <<< 12 := by
    rw [Nat.shiftRight_eq_div_pow, Nat.shiftLeft_eq]
  rw [PGROUNDDOWN, BitVec.toNat_and, hmask, hdown]
  apply Nat.eq_of_testBit_eq
  intro i
  rw [Nat.testBit_and, Nat.testBit_shiftLeft, Nat.testBit_shiftLeft, Nat.testBit_shiftRight,
    Nat.testBit_two_pow_sub_one]
  by_cases hi : 12 ≤ i
  · rw [Nat.add_sub_cancel' hi]
    by_cases h64 : i < 64
    · simp [hi, show i - 12 < 52 by omega]
    · -- no bit of `a` at or above 64
      have hbit : a.toNat.testBit i = false :=
        Nat.testBit_lt_two_pow (Nat.lt_of_lt_of_le a.isLt (Nat.pow_le_pow_right (by decide) (by omega)))
      simp [hbit]
  · simp [hi]

theorem toNat_MAXVA : MAXVA.toNat = 2 ^ 38 := by decide

theorem and_PTE_V_ne_zero (pte : BitVec 64) : pte &&& PTE_V ≠ 0 ↔ pte.toNat % 2 = 1 := by
  rw [Ne, BitVec.toNat_eq, BitVec.toNat_and, show PTE_V.toNat = 1 by decide, Nat.and_one_is_mod]
  show ¬pte.toNat % 2 = 0 ↔ _
  omega

theorem getLsbD_PTE_U (i : ℕ) : PTE_U.getLsbD i = decide (i = 4) := by
  simp only [PTE_U, BitVec.getLsbD_shiftLeft]
  by_cases h : i = 4
  · simp [h]
  · simp [h]
    omega

theorem and_PTE_U_ne_zero (pte : BitVec 64) : pte &&& PTE_U ≠ 0 ↔ pte.toNat / 16 % 2 = 1 := by
  have hbit : pte.getLsbD 4 = decide (pte.toNat / 16 % 2 = 1) := by
    rw [BitVec.getLsbD, Nat.testBit_eq_decide_div_mod_eq]
  constructor
  · intro h
    by_contra hb
    -- bit 4 is the only bit the mask keeps
    apply h
    apply BitVec.eq_of_getLsbD_eq
    intro i _
    rw [BitVec.getLsbD_and, getLsbD_PTE_U]
    by_cases h4 : i = 4
    · subst h4
      rw [hbit, decide_eq_false hb]
      simp
    · simp [h4]
  · intro h hzero
    have := congrArg (BitVec.getLsbD · 4) hzero
    simp only [BitVec.getLsbD_and, getLsbD_PTE_U, hbit, h] at this
    simp at this

theorem toNat_PTE_FLAGS (pte : BitVec 64) : (PTE_FLAGS pte).toNat = pte.toNat % 1024 := by
  rw [PTE_FLAGS, BitVec.toNat_and, show (0x3FF : BitVec 64).toNat = 2 ^ 10 - 1 by decide,
    Nat.and_two_pow_sub_one_eq_mod]

/-! ## The PTEs that `walk` and `mappages` write -/

theorem PGROUNDDOWN_of_aligned {pa : BitVec 64} (h : pa.toNat % PGSIZE = 0) : PGROUNDDOWN pa = pa := by
  apply BitVec.eq_of_toNat_eq
  rw [toNat_PGROUNDDOWN]
  unfold PGSIZE at h
  omega

/-- `PTE2PA` undoes `PA2PTE` up to the offset in the page, whatever the flags below bit 10. -/
theorem PTE2PA_PA2PTE_or (pa f : BitVec 64) (hf : f.toNat < 1024) :
    PTE2PA (PA2PTE pa ||| f) = PGROUNDDOWN pa := by
  apply BitVec.eq_of_toNat_eq
  rw [toNat_PTE2PA, toNat_PA2PTE_or pa f hf, toNat_PGROUNDDOWN]
  have := pa.isLt
  omega

theorem PTE_FLAGS_PA2PTE_or (pa f : BitVec 64) (hf : f.toNat < 1024) :
    PTE_FLAGS (PA2PTE pa ||| f) = f := by
  apply BitVec.eq_of_toNat_eq
  rw [toNat_PTE_FLAGS, toNat_PA2PTE_or pa f hf]
  omega

/-- The permission bits are among the flags. -/
theorem and_RWX_eq (pte : BitVec 64) :
    pte &&& (PTE_R ||| PTE_W ||| PTE_X) = PTE_FLAGS pte &&& (PTE_R ||| PTE_W ||| PTE_X) := by
  rw [PTE_FLAGS, BitVec.and_assoc]
  rfl

/-- The link `walk` writes has no permission bit. -/
theorem PA2PTE_or_PTE_V_and_RWX (pa : BitVec 64) :
    (PA2PTE pa ||| PTE_V) &&& (PTE_R ||| PTE_W ||| PTE_X) = 0 := by
  rw [and_RWX_eq, PTE_FLAGS_PA2PTE_or pa PTE_V (by decide)]
  decide

theorem PA2PTE_or_and_PTE_V (pa f : BitVec 64) (hf : f.toNat < 1024) :
    (PA2PTE pa ||| f) &&& PTE_V ≠ 0 ↔ f &&& PTE_V ≠ 0 := by
  rw [and_PTE_V_ne_zero, and_PTE_V_ne_zero, toNat_PA2PTE_or pa f hf]
  omega

theorem PA2PTE_or_and_PTE_U (pa f : BitVec 64) (hf : f.toNat < 1024) :
    (PA2PTE pa ||| f) &&& PTE_U ≠ 0 ↔ f &&& PTE_U ≠ 0 := by
  rw [and_PTE_U_ne_zero, and_PTE_U_ne_zero, toNat_PA2PTE_or pa f hf]
  omega

theorem or_PTE_V_and_PTE_V (f : BitVec 64) : (f ||| PTE_V) &&& PTE_V ≠ 0 := by
  rw [BitVec.and_or_distrib_right, BitVec.and_self]
  intro h
  have := congrArg (BitVec.getLsbD · 0) h
  simp [PTE_V] at this

theorem toNat_or_PTE_V {f : BitVec 64} (hf : f.toNat < 1024) : (f ||| PTE_V).toNat < 1024 := by
  rw [BitVec.toNat_or, show PTE_V.toNat = 1 by decide]
  exact Nat.or_lt_two_pow (show f.toNat < 2 ^ 10 from hf) (by decide)

/-! ## Page-table pages in memory -/

/-- Physical memory: a byte at every 64-bit address. -/
abbrev Memory := BitVec 64 → UInt8

/-- The bytes of memory at natural-number addresses, which wrap at `2^64`. -/
def view (mem : Memory) : ℕ → UInt8 := fun k => mem (BitVec.ofNat 64 k)

/-- `*pte`: the little-endian word of the eight bytes at `a`. -/
def loadPte (mem : Memory) (a : BitVec 64) : BitVec 64 :=
  BitVec.ofNat 64 (LittleEndian.get 8 (view mem) a.toNat)

/-- `*pte = v`. -/
def storePte (mem : Memory) (a v : BitVec 64) : Memory :=
  fun b => LittleEndian.set 8 (view mem) a.toNat v.toNat b.toNat

/-- Entry `i` of the page-table page at `t`, `((pagetable_t)t)[i]`. -/
def entry (mem : Memory) (t : BitVec 64) (i : Fin 512) : BitVec 64 :=
  loadPte mem (t + 8 * BitVec.ofNat 64 i)

/-- The page-table page that a valid entry of a non-leaf level points to. -/
def child (pte : BitVec 64) : Option (BitVec 64) :=
  if pte &&& PTE_V ≠ 0 then some (PTE2PA pte) else none

/-- `PX(level, va)` as an index into a page-table page. -/
def px (level : ℕ) (va : BitVec 64) : Fin 512 := ⟨(PX level va).toNat, PX_lt level va⟩

/-- The level-0 page-table page of `va`, reached through `PX(2, va)` and `PX(1, va)`. -/
def level0 (mem : Memory) (root va : BitVec 64) : Option (BitVec 64) :=
  Radix.node child (entry mem) root [px 2 va, px 1 va]

/-- The leaf PTE of `va`, 0 when a page-table page on the way is missing. -/
def translate (mem : Memory) (root va : BitVec 64) : BitVec 64 :=
  Radix.lookup child 0 (entry mem) root [px 2 va, px 1 va] (px 0 va)

/-- `t` is one of the page-table pages of the page table at `root`. -/
def Table (mem : Memory) (root t : BitVec 64) : Prop :=
  Radix.Mem child (entry mem) root 2 t

/-- A page: the address of its first byte is a multiple of `PGSIZE`. -/
def Aligned (t : BitVec 64) : Prop := t.toNat % PGSIZE = 0

instance : DecidablePred Aligned := fun t => inferInstanceAs (Decidable (t.toNat % PGSIZE = 0))

/-! ## Entries and stores -/

theorem ofNat_px (level : ℕ) (va : BitVec 64) : BitVec.ofNat 64 (px level va) = PX level va := by
  rw [px, BitVec.ofNat_toNat, BitVec.setWidth_eq]

theorem entry_px (mem : Memory) (t : BitVec 64) (level : ℕ) (va : BitVec 64) :
    entry mem t (px level va) = loadPte mem (t + 8 * PX level va) := by
  rw [entry, ofNat_px]

theorem child_eq_none {pte : BitVec 64} : child pte = none ↔ pte &&& PTE_V = 0 := by
  unfold child
  split_ifs with h
  · exact ⟨False.elim, fun h' => absurd h' h⟩
  · exact ⟨fun _ => not_not.1 h, fun _ => rfl⟩

theorem child_eq_some {pte t : BitVec 64} :
    child pte = some t ↔ pte &&& PTE_V ≠ 0 ∧ PTE2PA pte = t := by
  unfold child
  split_ifs with h
  · exact ⟨fun h' => ⟨h, Option.some.inj h'⟩, fun h' => congrArg some h'.2⟩
  · exact ⟨False.elim, fun h' => absurd h'.1 h⟩

/-- The slot of entry `i` of a page lies in the page. -/
theorem toNat_slot {t : BitVec 64} (ht : Aligned t) (i : Fin 512) :
    (t + 8 * BitVec.ofNat 64 i).toNat = t.toNat + 8 * i := by
  have hi := i.isLt
  have hlt := t.isLt
  unfold Aligned PGSIZE at ht
  have h8 : (8 : BitVec 64).toNat = 8 := rfl
  have hi' : i.val % 2 ^ 64 = i.val := Nat.mod_eq_of_lt (by omega)
  rw [BitVec.toNat_add, BitVec.toNat_mul, BitVec.toNat_ofNat, h8, hi',
    Nat.mod_eq_of_lt (by omega : 8 * i.val < 2 ^ 64), Nat.mod_eq_of_lt (by omega)]

theorem view_storePte {mem : Memory} {a v : BitVec 64} {k : ℕ} (hk : k < 2 ^ 64) :
    view (storePte mem a v) k = LittleEndian.set 8 (view mem) a.toNat v.toNat k := by
  rw [view, storePte, BitVec.toNat_ofNat, Nat.mod_eq_of_lt hk]

/-- A word depends only on its own eight bytes. -/
theorem loadPte_congr {mem mem' : Memory} {a : BitVec 64}
    (h : ∀ k, a.toNat ≤ k → k < a.toNat + 8 → view mem' k = view mem k) :
    loadPte mem' a = loadPte mem a := by
  rw [loadPte, loadPte, LittleEndian.get_congr h]

theorem loadPte_storePte_self {mem : Memory} {a : BitVec 64} (v : BitVec 64)
    (ha : a.toNat + 8 ≤ 2 ^ 64) : loadPte (storePte mem a v) a = v := by
  have hview : LittleEndian.get 8 (view (storePte mem a v)) a.toNat =
      LittleEndian.get 8 (LittleEndian.set 8 (view mem) a.toNat v.toNat) a.toNat :=
    LittleEndian.get_congr fun k _ hk => view_storePte (by omega)
  have hget : LittleEndian.get 8 (view (storePte mem a v)) a.toNat = v.toNat := by
    rw [hview]
    exact LittleEndian.get_set_self v.isLt
  rw [loadPte, hget, BitVec.ofNat_toNat, BitVec.setWidth_eq]

theorem loadPte_storePte_of_disjoint {mem : Memory} {a b : BitVec 64} (v : BitVec 64)
    (hb : b.toNat + 8 ≤ 2 ^ 64)
    (hab : a.toNat + 8 ≤ b.toNat ∨ b.toNat + 8 ≤ a.toNat) :
    loadPte (storePte mem a v) b = loadPte mem b :=
  loadPte_congr fun k hk₁ hk₂ => by
    rw [view_storePte (by omega), LittleEndian.set_apply_of_not_mem (by omega)]

/-- Two stores that agree on a page agree on its entries. -/
theorem entry_congr {mem mem' : Memory} {t : BitVec 64} (ht : Aligned t)
    (h : ∀ b : BitVec 64, t.toNat ≤ b.toNat → b.toNat < t.toNat + PGSIZE → mem' b = mem b) :
    entry mem' t = entry mem t := by
  funext i
  have hslot := toNat_slot ht i
  have hi := i.isLt
  have hlt := t.isLt
  unfold Aligned PGSIZE at ht
  unfold PGSIZE at h
  refine loadPte_congr fun k hk₁ hk₂ => ?_
  have hk : (BitVec.ofNat 64 k).toNat = k := by
    rw [BitVec.toNat_ofNat]
    exact Nat.mod_eq_of_lt (by omega)
  have h₁ : t.toNat ≤ (BitVec.ofNat 64 k).toNat := by
    rw [hk]
    omega
  have h₂ : (BitVec.ofNat 64 k).toNat < t.toNat + 4096 := by
    rw [hk]
    omega
  exact h _ h₁ h₂

/-- A store of a word into one page-table page: the entry it writes holds the word, and every
other entry, of that page or of any other page, is unchanged. -/
theorem entry_storePte {mem : Memory} {u t : BitVec 64} (hu : Aligned u) (ht : Aligned t)
    (i : Fin 512) (v : BitVec 64) (j : Fin 512) :
    entry (storePte mem (u + 8 * BitVec.ofNat 64 i) v) t j =
      if t = u ∧ j = i then v else entry mem t j := by
  have hsi := toNat_slot hu i
  have hsj := toNat_slot ht j
  have hi := i.isLt
  have hj := j.isLt
  have hult := u.isLt
  have htlt := t.isLt
  unfold Aligned PGSIZE at hu ht
  by_cases htu : t = u ∧ j = i
  · obtain ⟨rfl, rfl⟩ := htu
    rw [if_pos ⟨rfl, rfl⟩, entry, loadPte_storePte_self v (by omega)]
  · rw [if_neg htu, entry, entry, loadPte_storePte_of_disjoint v (by omega)]
    -- distinct slots: other pages are at least a page away, other entries eight bytes
    by_cases h : t = u
    · subst h
      have hji : j.val ≠ i.val := fun e => htu ⟨rfl, Fin.ext e⟩
      omega
    · have hne : t.toNat ≠ u.toNat := fun e => h (BitVec.eq_of_toNat_eq e)
      omega

/-- `memset(pagetable, 0, PGSIZE)`: every entry of the page is 0. -/
theorem entry_memset_self {mem : Memory} {t : BitVec 64} (ht : Aligned t) (i : Fin 512) :
    entry (memset mem t 0 PGSIZE) t i = 0 := by
  have hslot := toNat_slot ht i
  have hi := i.isLt
  have hlt := t.isLt
  unfold Aligned PGSIZE at ht
  have hget : LittleEndian.get 8 (view (memset mem t 0 PGSIZE)) (t + 8 * BitVec.ofNat 64 i).toNat =
      LittleEndian.get 8 (fun _ => 0) (t + 8 * BitVec.ofNat 64 i).toNat := by
    refine LittleEndian.get_congr fun k hk₁ hk₂ => ?_
    -- the byte at `k` lies in the page
    have hk : (BitVec.ofNat 64 k - t).toNat = k - t.toNat := by
      rw [BitVec.toNat_sub, BitVec.toNat_ofNat, Nat.mod_eq_of_lt (show k < 2 ^ 64 by omega)]
      omega
    rw [view, memset, if_pos (by rw [hk, show ((PGSIZE : ℕ) : BitVec 32).toNat = 4096 by decide]; omega)]
  rw [entry, loadPte, hget, LittleEndian.get_zero]
  rfl

/-- `memset` of a page leaves the entries of every other page. -/
theorem entry_memset_of_ne {mem : Memory} {p t : BitVec 64} (hp : Aligned p) (ht : Aligned t)
    (hne : t ≠ p) (c : UInt8) : entry (memset mem p c PGSIZE) t = entry mem t := by
  refine entry_congr ht fun b hb₁ hb₂ => ?_
  have hplt := p.isLt
  have htlt := t.isLt
  have hne' : t.toNat ≠ p.toNat := fun e => hne (BitVec.eq_of_toNat_eq e)
  unfold Aligned PGSIZE at hp ht
  unfold PGSIZE at hb₂
  rw [memset, if_neg]
  rw [BitVec.toNat_sub]
  simp only [show (PGSIZE : BitVec 32).toNat = 4096 by decide]
  omega

/-- `memset` of a page writes exactly the bytes of that page. -/
theorem memset_page {mem : Memory} {r : BitVec 64} (hr : Aligned r) (c : UInt8) (b : BitVec 64) :
    memset mem r c PGSIZE b = if r.toNat ≤ b.toNat ∧ b.toNat < r.toNat + PGSIZE then c else mem b := by
  have hrlt := r.isLt
  have hblt := b.isLt
  unfold Aligned PGSIZE at hr
  have hiff : (b - r).toNat < ((PGSIZE : ℕ) : BitVec 32).toNat ↔
      r.toNat ≤ b.toNat ∧ b.toNat < r.toNat + PGSIZE := by
    rw [BitVec.toNat_sub, show ((PGSIZE : ℕ) : BitVec 32).toNat = 4096 from rfl]
    unfold PGSIZE
    omega
  exact if_congr hiff rfl rfl

/-- A link to the aligned page `r` is valid and names `r`. -/
theorem child_link {r : BitVec 64} (hr : Aligned r) : child (PA2PTE r ||| PTE_V) = some r := by
  refine child_eq_some.2 ⟨(PA2PTE_or_and_PTE_V r PTE_V (by decide)).2 (by decide), ?_⟩
  rw [PTE2PA_PA2PTE_or r PTE_V (by decide), PGROUNDDOWN_of_aligned hr]

/-- What `walk` does to memory when it links the fresh page `r` under entry `i` of `u`: the
entry holds the link, the fresh page is zeroed, and every other entry is unchanged. -/
theorem entry_link {mem : Memory} {u r t : BitVec 64} (hu : Aligned u) (hr : Aligned r)
    (ht : Aligned t) (i j : Fin 512) (v : BitVec 64) (c : UInt8) :
    entry (storePte (memset (memset mem r c PGSIZE) r 0 PGSIZE) (u + 8 * BitVec.ofNat 64 i) v) t j =
      if t = u ∧ j = i then v else if t = r then 0 else entry mem t j := by
  rw [entry_storePte hu ht]
  split_ifs with h₁ h₂
  · rfl
  · subst h₂
    exact entry_memset_self hr j
  · rw [entry_memset_of_ne hr ht h₂, entry_memset_of_ne hr ht h₂]

/-! ## The radix table of page-table pages -/

/-- Every page-table page reachable from an aligned root is a page: `PTE2PA` clears the low
twelve bits. -/
theorem aligned_of_node {mem : Memory} :
    ∀ (p : List (Fin 512)) {root t : BitVec 64}, Aligned root →
      Radix.node child (entry mem) root p = some t → Aligned t
  | [], _, _, hroot, h => by
    rw [Radix.node_nil] at h
    exact Option.some.inj h ▸ hroot
  | i :: p, root, t, _, h => by
    rw [Radix.node_cons] at h
    cases hc : child (entry mem root i) with
    | none => rw [hc] at h; cases h
    | some t' =>
      rw [hc, Option.bind_some] at h
      obtain ⟨-, rfl⟩ := child_eq_some.1 hc
      exact aligned_of_node p (PTE2PA_mod _) h

/-- The indices of `va` at the three levels are digits of its page number. -/
theorem px_val (level : ℕ) (va : BitVec 64) :
    (px level va).val = va.toNat / 2 ^ (12 + 9 * level) % 512 :=
  toNat_PX level va

/-- Below `2^39`, the three indices are the page number. -/
theorem px_eq_iff {va va' : BitVec 64} (h : va.toNat < 2 ^ 39) (h' : va'.toNat < 2 ^ 39) :
    (px 2 va = px 2 va' ∧ px 1 va = px 1 va' ∧ px 0 va = px 0 va') ↔
      va.toNat / PGSIZE = va'.toNat / PGSIZE := by
  simp only [Fin.ext_iff, px_val]
  rw [show (2 : ℕ) ^ (12 + 9 * 2) = 1073741824 from rfl, show (2 : ℕ) ^ (12 + 9 * 1) = 2097152 from rfl,
    show (2 : ℕ) ^ (12 + 9 * 0) = PGSIZE from rfl]
  unfold PGSIZE
  omega

/-- The leaf PTE of `va` depends on its page number only. -/
theorem translate_eq_of_div {mem : Memory} {root va va' : BitVec 64}
    (h : va.toNat / PGSIZE = va'.toNat / PGSIZE) : translate mem root va = translate mem root va' := by
  have hpx : ∀ level, px level va = px level va' := by
    intro level
    rw [Fin.ext_iff, px_val, px_val, Nat.pow_add, ← Nat.div_div_eq_div_mul,
      ← Nat.div_div_eq_div_mul, show (2 : ℕ) ^ 12 = PGSIZE from rfl, h]
  rw [translate, translate, hpx 0, hpx 1, hpx 2]

end Xv6.Vm
