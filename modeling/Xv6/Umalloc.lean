import Xv6.Lib.Blocks
import Xv6.Lib.Cycle
import Xv6.Lib.Run

/-!
# The user-space allocator (umalloc.c)

The allocator of Kernighan and Ritchie (The C Programming Language, 2nd ed., Section 8.7).
Memory is counted in headers (`Header`: a pointer and a `uint` size, 16 bytes with the
alignment of `long`). The free blocks form a circular list through the static header `base`,
kept in address order; `free` merges a block with the free blocks it touches, `malloc` takes
the first block that fits, from its end when it is larger, and asks `morecore` for at least
4096 units through `sbrk` after a full turn of the list.

The model keeps the header words as a function from byte addresses to `Header`, with
`freep` and the process size `p->sz` that `sbrk` moves (`Heap`). `growproc`, `sbrk`, `free`,
`morecore` and `malloc` follow the source statement by statement; their loops carry fuel,
more than any free list needs (`Shape.free`, `Shape.malloc`).

* `Shape`: the invariant, with the free list as the list `fl` of its blocks (`Blocks.Path`
  through `base`, `Blocks.Separated` in address order) and the live blocks beside it;
* `Shape.free`: free puts a live block back, merged with its neighbours, and the free list
  covers what it covered and that block;
* `Shape.morecore`, `Shape.malloc`: for requests whose `nu * sizeof(Header)` fits sbrk's
  int, malloc returns a block of at least the request inside the heap, apart from every free
  and live block, or 0 after sbrk failed;
* `Sys`, `Sys.run`: a program's calls of malloc and free on its live blocks, and
  `umalloc_sound`: every run of such calls keeps the invariant;
* `malloc_beyond_break`: malloc(0xFFFFFFFF) on a fresh heap returns a block that lies
  beyond the process size, since `nu * sizeof(Header)` wraps to 16 as an int.
-/

namespace Xv6.Umalloc

open Blocks

/-- `sizeof(Header)`: a pointer and a `uint`, padded to the alignment of `long`. -/
def HDR : ℕ := 16

/-- The header at the start of every block. -/
structure Header where
  ptr : ℕ
  size : UInt32
  deriving DecidableEq, Repr

/-- The allocator's state: the header words by byte address, `freep` (0 before the first
`malloc`) and the process size `p->sz`, which `sbrk` moves. -/
structure Heap where
  mem : ℕ → Header
  freep : ℕ
  sz : UInt32

/-- Write `s.ptr` of the header at `a`. -/
def setPtr (m : ℕ → Header) (a v : ℕ) : ℕ → Header :=
  Function.update m a { m a with ptr := v }

/-- Write `s.size` of the header at `a`. -/
def setSize (m : ℕ → Header) (a : ℕ) (v : UInt32) : ℕ → Header :=
  Function.update m a { m a with size := v }

/-! ### sbrk -/

/-- `growproc(n)` on its `uint` copy of `p->sz`; `none` is its -1. `uvmalloc` fails when the
pages up to the new size cannot all be allocated, which `avail` (how far physical memory lets
the process grow at this call) decides. -/
def growproc (avail : ℕ) (n : Int32) (sz : UInt32) : Option UInt32 :=
  if 0 < n then
    -- uvmalloc(pagetable, sz, sz + n)
    let newsz := sz + n.toUInt32
    if newsz < sz then some sz
    else if newsz.toNat ≤ avail then some newsz
    else none
  else if n < 0 then
    -- uvmdealloc(pagetable, sz, sz + n)
    let newsz := sz + n.toUInt32
    some (if newsz ≥ sz then sz else newsz)
  else some sz

/-- An `int` returned in a 64-bit register and read back as a pointer: sign-extended. -/
def toPtr (v : Int32) : ℕ := (v.toInt % 2 ^ 64).toNat

/-- `sbrk(n)`: `sys_sbrk` keeps `p->sz` in its `int addr` and returns it, or -1 when
`growproc` fails. -/
def sbrk (avail : ℕ) (n : Int32) (h : Heap) : ℕ × Heap :=
  match growproc avail n h.sz with
  | some sz => (toPtr h.sz.toInt32, { h with sz := sz })
  | none => (toPtr (-1), h)

/-! ### free -/

/-- The search loop of `free`: from `p`, the first header such that `bp` lies between it and
its successor, or, at the wrap point (`p >= p->s.ptr`), beyond either end of the list. -/
def freeScan (m : ℕ → Header) (bp : ℕ) : ℕ → ℕ → Option ℕ
  | 0, _ => none
  | fuel + 1, p =>
    if bp > p ∧ bp < (m p).ptr then some p
    else if p ≥ (m p).ptr ∧ (bp > p ∨ bp < (m p).ptr) then some p
    else freeScan m bp fuel (m p).ptr

/-- The first half of `free`'s insertion: `bp` takes in the block after `p` when it ends where
that one starts, and otherwise points to it. -/
def mergeNext (m : ℕ → Header) (bp p : ℕ) : ℕ → Header :=
  if bp + HDR * (m bp).size.toNat = (m p).ptr then
    let m := setSize m bp ((m bp).size + (m (m p).ptr).size)
    setPtr m bp (m (m p).ptr).ptr
  else setPtr m bp (m p).ptr

/-- The second half: `p` takes in `bp` when it ends where `bp` starts, and otherwise points
to it. -/
def mergePrev (m : ℕ → Header) (bp p : ℕ) : ℕ → Header :=
  if p + HDR * (m p).size.toNat = bp then
    let m := setSize m p ((m p).size + (m bp).size)
    setPtr m p (m bp).ptr
  else setPtr m p bp

/-- The fuel of the loops: more than the headers that fit below the break. -/
def fuel (h : Heap) : ℕ := h.sz.toNat / HDR + 2

/-- `free(ap)`: put the block back in address order, merged with the free blocks it
touches; `freep` moves to the block before it. -/
def free (ap : ℕ) (h : Heap) : Option Heap := do
  let bp := ap - HDR
  let p ← freeScan h.mem bp (fuel h) h.freep
  pure { h with mem := mergePrev (mergeNext h.mem bp p) bp p, freep := p }

/-! ### malloc -/

/-- `morecore(nu)`: ask `sbrk` for at least 4096 units and free the new block into the list;
it returns `freep`, or 0 when `sbrk` fails. -/
def morecore (nu : UInt32) (avail : ℕ) (h : Heap) : Option (ℕ × Heap) :=
  let nu := if nu < 4096 then 4096 else nu
  -- `nu * sizeof(Header)` is a `size_t`, passed to sbrk's `int` parameter
  let (p, h) := sbrk avail (Int32.ofNat (nu.toNat * HDR)) h
  if p = toPtr (-1) then some (0, h)
  else
    let h := { h with mem := setSize h.mem p nu }
    (free (p + HDR) h).map fun h => (h.freep, h)

/-- The loop of `malloc` from `prevp` and `p = prevp->s.ptr`: the first block that fits, taken
whole or from its end; after a full turn of the list (`p == freep`), `morecore`. -/
def mallocLoop (nunits : UInt32) (avail : ℕ) : ℕ → ℕ → ℕ → Heap → Option (ℕ × Heap)
  | 0, _, _, _ => none
  | fuel + 1, prevp, p, h =>
    if (h.mem p).size ≥ nunits then
      if (h.mem p).size = nunits then
        some (p + HDR, { h with mem := setPtr h.mem prevp (h.mem p).ptr, freep := prevp })
      else
        let m := setSize h.mem p ((h.mem p).size - nunits)
        let p := p + HDR * (m p).size.toNat
        let m := setSize m p nunits
        some (p + HDR, { h with mem := m, freep := prevp })
    else if p = h.freep then
      match morecore nunits avail h with
      | none => none
      | some (p, h) => if p = 0 then some (0, h) else mallocLoop nunits avail fuel p (h.mem p).ptr h
    else mallocLoop nunits avail fuel p (h.mem p).ptr h

/-- The units `malloc(nbytes)` takes: the bytes rounded up to whole headers, and one header
more, computed as a `size_t` and kept in a `uint`. -/
def nunits (nbytes : UInt32) : UInt32 := UInt32.ofNat ((nbytes.toNat + HDR - 1) / HDR + 1)

/-- `malloc(nbytes)`, with `base` the address of the static header `base`: the pointer it
returns (0 when `sbrk` fails) and the heap it leaves. -/
def malloc (base : ℕ) (nbytes : UInt32) (avail : ℕ) (h : Heap) : Option (ℕ × Heap) :=
  let h :=
    if h.freep = 0 then { h with mem := setSize (setPtr h.mem base base) base 0, freep := base }
    else h
  mallocLoop (nunits nbytes) avail (2 * fuel h) h.freep (h.mem h.freep).ptr h

/-! ### A program's calls -/

/-- Where the allocator's memory lies: the static header `base` below the heap, and the
process size when the program starts, page-aligned by exec. -/
structure Layout where
  base : ℕ
  heap0 : UInt32
  base_pos : 0 < base
  base_lt : base < heap0.toNat
  aligned : HDR ∣ heap0.toNat

/-- A program's state: the allocator's, and the blocks malloc returned that the program has
not freed, each as its header's address and its units. -/
structure Sys where
  heap : Heap
  live : List (ℕ × ℕ)

/-- Before the first call: `freep` and the header words zero, as static data and fresh pages
are. -/
def Sys.init (lay : Layout) : Sys := ⟨⟨fun _ => ⟨0, 0⟩, 0, lay.heap0⟩, []⟩

/-- The program calls `malloc(n)` (physical memory letting it grow to `avail`), or frees its
`i`-th live block. -/
inductive Event
  | malloc (n : UInt32) (avail : ℕ)
  | free (i : ℕ)

/-- One call; `none` only when a loop runs out of fuel. -/
def Sys.step (lay : Layout) (s : Sys) : Event → Option Sys
  | .malloc n avail => (malloc lay.base n avail s.heap).map fun (r, h) =>
      ⟨h, if r = 0 then s.live else s.live ++ [(r - HDR, (nunits n).toNat)]⟩
  | .free i =>
    match s.live[i]? with
    | some b => (free (b.1 + HDR) s.heap).map fun h => ⟨h, s.live.eraseIdx i⟩
    | none => some s

/-- The calls in order. -/
def Sys.run (lay : Layout) (s : Sys) (es : List Event) : Option Sys := es.foldlM (Sys.step lay) s

/-! ### Header words -/

section Memory

variable {m : ℕ → Header} {a x v : ℕ} {w : UInt32}

@[simp] theorem setPtr_self : setPtr m a v a = { m a with ptr := v } := Function.update_self ..

theorem setPtr_of_ne (hx : x ≠ a) : setPtr m a v x = m x := Function.update_of_ne hx ..

@[simp] theorem setSize_self : setSize m a w a = { m a with size := w } := Function.update_self ..

theorem setSize_of_ne (hx : x ≠ a) : setSize m a w x = m x := Function.update_of_ne hx ..

/-- The header at `a` read as (`s.ptr`, `s.size`). -/
def view (m : ℕ → Header) (a : ℕ) : ℕ × ℕ := ((m a).ptr, (m a).size.toNat)

@[simp] theorem setPtr_size : (setPtr m a v x).size = (m x).size := by
  by_cases hx : x = a
  · subst hx
    simp
  · rw [setPtr_of_ne hx]

theorem mergeNext_of_ne {bp p : ℕ} (hx : x ≠ bp) : mergeNext m bp p x = m x := by
  unfold mergeNext
  split_ifs
  · rw [setPtr_of_ne hx, setSize_of_ne hx]
  · rw [setPtr_of_ne hx]

theorem mergePrev_of_ne {bp p : ℕ} (hx : x ≠ p) : mergePrev m bp p x = m x := by
  unfold mergePrev
  split_ifs
  · rw [setPtr_of_ne hx, setSize_of_ne hx]
  · rw [setPtr_of_ne hx]

end Memory

/-! ### The invariant -/

/-- A block of the heap: nonempty, on a header boundary, inside the memory sbrk gave. -/
structure Placed (lay : Layout) (sz : ℕ) (b : ℕ × ℕ) : Prop where
  pos : 0 < b.2
  aligned : HDR ∣ b.1
  lo : lay.heap0.toNat ≤ b.1
  hi : stop HDR b ≤ sz

/-- The allocator's invariant once `malloc` has set up `base`, for the blocks `fl` of the free
list and the blocks `live` that malloc returned and free has not taken back, each given by the
address of its header and its size in units. -/
structure Shape (lay : Layout) (h : Heap) (fl live : List (ℕ × ℕ)) : Prop where
  /-- the free list is the cycle from `base` through the blocks of `fl` back to `base` -/
  path : Path (view h.mem) ((lay.base, 0) :: fl) lay.base
  /-- in increasing address order, each block ending before the next one starts: one wrap
  point, no two blocks overlapping or touching -/
  separated : Separated HDR ((lay.base, 0) :: fl)
  freep : h.freep ∈ lay.base :: fl.map Prod.fst
  placed : ∀ b ∈ fl ++ live, Placed lay h.sz.toNat b
  /-- a live block's header still holds its size, which `free` reads -/
  sizes : ∀ b ∈ live, (h.mem b.1).size.toNat = b.2
  live_disjoint : live.Pairwise fun a b => Disjoint (span HDR a) (span HDR b)
  free_disjoint : ∀ b ∈ live, Disjoint (span HDR b) (cover HDR fl)
  heap0_le : lay.heap0.toNat ≤ h.sz.toNat
  sz_aligned : HDR ∣ h.sz.toNat

section Placed

variable {lay : Layout} {sz : ℕ} {a b c : ℕ × ℕ}

theorem Placed.merge (h : stop HDR a = c.1) (ha : Placed lay sz a) (hc : Placed lay sz c) :
    Placed lay sz (a.1, a.2 + c.2) :=
  ⟨Nat.add_pos_left ha.pos _, ha.aligned, ha.lo, (stop_merge h).symm ▸ hc.hi⟩

theorem Placed.mono {sz' : ℕ} (h : sz ≤ sz') (hb : Placed lay sz b) : Placed lay sz' b :=
  ⟨hb.pos, hb.aligned, hb.lo, hb.hi.trans h⟩

theorem Placed.base_lt (hb : Placed lay sz b) : lay.base < b.1 := lay.base_lt.trans_le hb.lo

theorem Placed.start_mem (hb : Placed lay sz b) : b.1 ∈ span HDR b := by
  have := hb.pos
  simp only [mem_span, stop, HDR]
  omega

theorem Placed.size_lt (hb : Placed lay sz b) (hsz : sz < 2 ^ 32) : b.2 < 2 ^ 28 := by
  have := hb.hi
  simp only [stop, HDR] at this
  omega

/-- A placed block and a nonempty one are disjoint only when their starts differ. -/
theorem Placed.start_ne (hb : Placed lay sz b) (hc : Placed lay sz c)
    (h : Disjoint (span HDR b) (span HDR c)) : b.1 ≠ c.1 := fun hbc =>
  Set.disjoint_left.1 h hb.start_mem (hbc ▸ hc.start_mem)

end Placed

section Shape

variable {lay : Layout} {h : Heap} {fl live : List (ℕ × ℕ)}

theorem Shape.placed_free (hs : Shape lay h fl live) {b : ℕ × ℕ} (hb : b ∈ fl) :
    Placed lay h.sz.toNat b :=
  hs.placed b (List.mem_append_left _ hb)

theorem Shape.placed_live (hs : Shape lay h fl live) {b : ℕ × ℕ} (hb : b ∈ live) :
    Placed lay h.sz.toNat b :=
  hs.placed b (List.mem_append_right _ hb)

/-- A block of the cycle is `base`'s or a placed one. -/
theorem Shape.of_mem_cycle (hs : Shape lay h fl live) {c : ℕ × ℕ} (hc : c ∈ (lay.base, 0) :: fl) :
    c = (lay.base, 0) ∨ Placed lay h.sz.toNat c := by
  rcases List.mem_cons.1 hc with rfl | hc
  · exact .inl rfl
  · exact .inr (hs.placed_free hc)

/-- A live block starts elsewhere than every block of the cycle. -/
theorem Shape.live_ne_cycle (hs : Shape lay h fl live) {b c : ℕ × ℕ} (hb : b ∈ live)
    (hc : c ∈ (lay.base, 0) :: fl) : b.1 ≠ c.1 := by
  rcases hs.of_mem_cycle hc with rfl | hcp
  · exact (hs.placed_live hb).base_lt.ne'
  · have hc' : c ∈ fl := by
      rcases List.mem_cons.1 hc with rfl | hc
      · exact absurd hcp.base_lt (lt_irrefl _)
      · exact hc
    exact (hs.placed_live hb).start_ne hcp
      (Set.disjoint_of_subset_right (span_subset_cover hc') (hs.free_disjoint b hb))

/-- The free list has fewer blocks than headers fit below the break. -/
theorem Shape.length_le (hs : Shape lay h fl live) : fl.length ≤ h.sz.toNat / HDR := by
  have hsep : Separated HDR fl := (List.pairwise_cons.1 hs.separated).2
  have := hsep.length_mul_le (fun b hb => (hs.placed_free hb).pos)
    (fun b hb => (hs.placed_free hb).lo) (fun b hb => (hs.placed_free hb).hi)
  rw [Nat.le_div_iff_mul_le (by decide : 0 < HDR)]
  rw [Nat.mul_comm]
  omega

end Shape

/-! ### free -/

/-- The test at the head of `free`'s loop, at the header `x`. -/
def freeTest (m : ℕ → Header) (bp x : ℕ) : Bool :=
  decide (bp > x ∧ bp < (m x).ptr) || decide (x ≥ (m x).ptr ∧ (bp > x ∨ bp < (m x).ptr))

theorem freeScan_eq_scan (m : ℕ → Header) (bp : ℕ) :
    ∀ fuel x, freeScan m bp fuel x = scan (fun x => (m x).ptr) (freeTest m bp) fuel x
  | 0, _ => rfl
  | fuel + 1, x => by
    rw [freeScan, scan, freeScan_eq_scan m bp fuel]
    by_cases h₁ : bp > x ∧ bp < (m x).ptr
    · simp [freeTest, h₁]
    · by_cases h₂ : x ≥ (m x).ptr ∧ (bp > x ∨ bp < (m x).ptr)
      · simp [freeTest, h₂]
      · simp only [freeTest, if_neg h₁, if_neg h₂, decide_eq_false h₁, decide_eq_false h₂,
          Bool.or_false, Bool.false_eq_true, if_false]

/-- At a header of the sorted cycle, followed by the blocks `Y` and then `base`, `free`'s test
passes when the header starts below `bp` and the blocks after it above. -/
theorem freeTest_iff_lt {m : ℕ → Header} {bp base x : ℕ} {Y : List (ℕ × ℕ)}
    (hnext : (m x).ptr = first Y base) (hY : ∀ d ∈ Y, x < d.1) (hYs : ∀ d ∈ Y, first Y base ≤ d.1)
    (hbase : base ≤ x) (hbp : base < bp) :
    freeTest m bp x = true ↔ x < bp ∧ ∀ d ∈ Y, bp < d.1 := by
  cases Y with
  | nil =>
    simp only [freeTest, hnext, first_nil, Bool.or_eq_true, decide_eq_true_eq, List.not_mem_nil,
      false_imp_iff, imp_true_iff, and_true]
    omega
  | cons d Y =>
    simp only [first_cons] at hnext hYs
    have hxd := hY d (List.mem_cons_self ..)
    simp only [freeTest, hnext, Bool.or_eq_true, decide_eq_true_eq]
    constructor
    · rintro (⟨h₁, h₂⟩ | ⟨h₁, -⟩)
      · exact ⟨h₁, fun e he => lt_of_lt_of_le h₂ (hYs e he)⟩
      · omega
    · rintro ⟨h₁, h₂⟩
      exact .inl ⟨h₁, h₂ d (List.mem_cons_self ..)⟩

section Shape

variable {lay : Layout} {h : Heap} {fl live : List (ℕ × ℕ)}

/-- `free`'s test passes at exactly one block of the cycle: the last one that starts below the
freed block. -/
theorem Shape.freeTest_iff (hs : Shape lay h fl live) {b : ℕ × ℕ} (hb : b ∈ live)
    {pre post : List (ℕ × ℕ)} {a : ℕ × ℕ} (hcyc : (lay.base, 0) :: fl = pre ++ a :: post)
    (ha : a.1 < b.1) (hpost : ∀ c ∈ post, b.1 < c.1) {c : ℕ × ℕ} (hc : c ∈ (lay.base, 0) :: fl) :
    freeTest h.mem b.1 c.1 = true ↔ c = a := by
  obtain ⟨X, Y, hXY⟩ := List.append_of_mem hc
  have hsep := hs.separated
  have hpath := hs.path
  rw [hXY] at hsep hpath
  have hc' := ((path_append _ _ _).1 hpath).2.1
  have hXc := hsep.starts
  -- the blocks after `c` come in increasing order
  have hYs : ∀ d ∈ Y, first Y lay.base ≤ d.1 := by
    have hY : Separated HDR Y :=
      hsep.sublist ((List.sublist_cons_self c Y).trans (List.sublist_append_right X _))
    cases Y with
    | nil => simp
    | cons e Y =>
      intro d hd
      rcases List.mem_cons.1 hd with rfl | hd
      · exact le_rfl
      · exact ((show Separated HDR ([] ++ e :: Y) from hY).starts.2 d hd).le
  have hbase : lay.base ≤ c.1 := by
    rcases hs.of_mem_cycle hc with rfl | hcp
    · exact le_rfl
    · exact hcp.base_lt.le
  rw [freeTest_iff_lt (by simp only [view, Prod.mk.injEq] at hc'; exact hc'.1) hXc.2 hYs hbase
    (hs.placed_live hb).base_lt]
  have hpa := hs.separated
  rw [hcyc] at hpa
  have hsa := hpa.starts
  have haX : a ∈ X ++ c :: Y := hXY ▸ hcyc ▸ List.mem_append_right _ (List.mem_cons_self ..)
  have hcA : c ∈ pre ++ a :: post := hcyc ▸ hc
  constructor
  · rintro ⟨hcb, hY⟩
    rcases List.mem_append.1 hcA with hcp | hca
    · -- `c` before `a`, while `a` cannot come after `c`
      rcases List.mem_append.1 haX with haX | haY
      · exact absurd (hXc.1 a haX) (not_lt.2 (hsa.1 c hcp).le)
      · rcases List.mem_cons.1 haY with rfl | haY
        · rfl
        · exact absurd (hY a haY) (not_lt.2 ha.le)
    · rcases List.mem_cons.1 hca with rfl | hcp
      · rfl
      · exact absurd (hpost c hcp) (not_lt.2 hcb.le)
  · rintro rfl
    refine ⟨ha, fun d hd => ?_⟩
    have hcd := hXc.2 d hd
    have hdA : d ∈ pre ++ c :: post := hcyc ▸ hXY ▸ List.mem_append_right _ (List.mem_cons_of_mem _ hd)
    rcases List.mem_append.1 hdA with hdp | hdc
    · exact absurd (hsa.1 d hdp) (not_lt.2 hcd.le)
    · rcases List.mem_cons.1 hdc with rfl | hdp
      · exact absurd hcd (lt_irrefl _)
      · exact hpost d hdp

/-- From wherever `freep` points, `free`'s loop stops at the last block of the cycle that
starts below the freed block. -/
theorem Shape.freeScan (hs : Shape lay h fl live) {b : ℕ × ℕ} (hb : b ∈ live) :
    ∃ pre a post, (lay.base, 0) :: fl = pre ++ a :: post ∧ a.1 < b.1 ∧ (∀ c ∈ post, b.1 < c.1) ∧
      freeScan h.mem b.1 (fuel h) h.freep = some a.1 := by
  obtain ⟨pre, a, post, hcyc, ha, hpost⟩ := hs.separated.exists_split rfl
    (hs.placed_live hb).base_lt (fun c hc => (hs.live_ne_cycle hb hc).symm)
  refine ⟨pre, a, post, hcyc, ha, hpost, ?_⟩
  have haC : a ∈ (lay.base, 0) :: fl := by
    rw [hcyc]
    exact List.mem_append_right _ (List.mem_cons_self ..)
  -- the loop goes round the cycle, starting from `freep`
  have hfreep : h.freep ∈ ((lay.base, 0) :: fl).map Prod.fst := hs.freep
  obtain ⟨f, hf, hff⟩ := List.mem_map.1 hfreep
  obtain ⟨A, B, hAB⟩ := List.append_of_mem hf
  have hcyc' : Cycle (view h.mem) (A ++ f :: B) := hAB ▸ hs.path
  have hrot : Path (view h.mem) (f :: (B ++ A)) f.1 := hcyc'.rotate
  have hmem : ∀ x, x ∈ f :: (B ++ A) ↔ x ∈ (lay.base, 0) :: fl := by
    intro x
    rw [hAB]
    simp only [List.mem_cons, List.mem_append]
    tauto
  have hlen : (f :: (B ++ A)).length = fl.length + 1 := by
    have := congrArg List.length hAB
    simp only [List.length_cons, List.length_append] at this ⊢
    omega
  have hfuel : fuel h = (f :: (B ++ A)).length + (fuel h - (fl.length + 1)) := by
    have := hs.length_le
    rw [hlen, fuel]
    omega
  have hfind : (f :: (B ++ A)).find? (fun c => freeTest h.mem b.1 c.1) = some a :=
    LinkedCycle.find?_eq_some_of_unique ((hmem a).2 haC)
      ((hs.freeTest_iff hb hcyc ha hpost haC).2 rfl)
      (fun x hx hpx => (hs.freeTest_iff hb hcyc ha hpost ((hmem x).1 hx)).1 hpx)
  have hscan := scan_path hrot (freeTest h.mem b.1) (fuel h - (fl.length + 1))
  rw [hfind, first_cons] at hscan
  rw [freeScan_eq_scan, hfuel, ← hff]
  exact hscan

end Shape

theorem toNat_add_of_lt {x y : UInt32} (h : x.toNat + y.toNat < 2 ^ 32) :
    (x + y).toNat = x.toNat + y.toNat := by
  rw [UInt32.toNat_add, Nat.mod_eq_of_lt h]

/-- `free`'s first half, on the blocks that follow the freed block `b`: `b` followed by them, as
`Blocks.join` merges it with the first one. -/
theorem path_mergeNext {m : ℕ → Header} {b : ℕ × ℕ} {post : List (ℕ × ℕ)} {z p : ℕ}
    (hpath : Path (view m) post z) (hb : (m b.1).size.toNat = b.2) (hp : (m p).ptr = first post z)
    (hpb : p ≠ b.1) (hne : ∀ c ∈ post, c.1 ≠ b.1) (hz : post = [] → stop HDR b ≠ z)
    (hsum : ∀ c ∈ post, b.2 + c.2 < 2 ^ 32) :
    Path (view (mergeNext m b.1 p)) (join HDR b post) z := by
  cases post with
  | nil =>
    have hcond : ¬ b.1 + HDR * (m b.1).size.toNat = (m p).ptr := by
      rw [hb, hp]
      exact hz rfl
    rw [mergeNext, if_neg hcond, hp]
    simp [join, view, hb]
  | cons c l =>
    obtain ⟨hc, hl⟩ := hpath
    simp only [view, Prod.mk.injEq] at hc
    have hcb := hne c (List.mem_cons_self ..)
    have hlb : ∀ d ∈ l, d.1 ≠ b.1 := fun d hd => hne d (List.mem_cons_of_mem _ hd)
    by_cases hstop : stop HDR b = c.1
    · -- `b` takes in `c`
      have hcond : b.1 + HDR * (m b.1).size.toNat = (m p).ptr := by
        rw [hb, hp]
        exact hstop
      have hsize : ((m b.1).size + (m c.1).size).toNat = b.2 + c.2 := by
        rw [toNat_add_of_lt] <;> rw [hb, hc.2]
        exact hsum c (List.mem_cons_self ..)
      rw [mergeNext, if_pos hcond, join, if_pos hstop]
      refine ⟨?_, hl.congr fun d hd => ?_⟩
      · simp only [view, setPtr_self, setSize_of_ne hpb, hp, first_cons, setSize_of_ne hcb, hc.1,
          setSize_self, hsize]
      · simp only [view, setPtr_of_ne (hlb d hd), setSize_of_ne (hlb d hd)]
    · have hcond : ¬ b.1 + HDR * (m b.1).size.toNat = (m p).ptr := by
        rw [hb, hp]
        exact hstop
      rw [mergeNext, if_neg hcond, join, if_neg hstop]
      refine ⟨?_, ?_, hl.congr fun d hd => ?_⟩
      · simp only [view, setPtr_self, hp, first_cons, hb]
      · simp only [view, setPtr_of_ne hcb, hc.1, hc.2]
      · simp only [view, setPtr_of_ne (hlb d hd)]

/-- `free`'s second half, on the block `a` before the freed one and the list that now starts
with the freed block: `a` followed by it, merged when they touch. -/
theorem path_mergePrev {m : ℕ → Header} {a c : ℕ × ℕ} {l : List (ℕ × ℕ)} {z : ℕ}
    (hpath : Path (view m) (c :: l) z) (ha : (m a.1).size.toNat = a.2)
    (hne : ∀ d ∈ c :: l, d.1 ≠ a.1) (hsum : a.2 + c.2 < 2 ^ 32) :
    Path (view (mergePrev m c.1 a.1)) (join HDR a (c :: l)) z := by
  obtain ⟨hc, hl⟩ := hpath
  simp only [view, Prod.mk.injEq] at hc
  have hca := hne c (List.mem_cons_self ..)
  have hla : ∀ d ∈ l, d.1 ≠ a.1 := fun d hd => hne d (List.mem_cons_of_mem _ hd)
  by_cases hstop : stop HDR a = c.1
  · -- `a` takes in `c`
    have hcond : a.1 + HDR * (m a.1).size.toNat = c.1 := by
      rw [ha]
      exact hstop
    have hsize : ((m a.1).size + (m c.1).size).toNat = a.2 + c.2 := by
      rw [toNat_add_of_lt] <;> rw [ha, hc.2]
      exact hsum
    rw [mergePrev, if_pos hcond, join, if_pos hstop]
    refine ⟨?_, hl.congr fun d hd => ?_⟩
    · simp only [view, setPtr_self, setSize_of_ne hca, hc.1, setSize_self, hsize]
    · simp only [view, setPtr_of_ne (hla d hd), setSize_of_ne (hla d hd)]
  · have hcond : ¬ a.1 + HDR * (m a.1).size.toNat = c.1 := by
      rw [ha]
      exact hstop
    rw [mergePrev, if_neg hcond, join, if_neg hstop]
    refine ⟨?_, ?_, hl.congr fun d hd => ?_⟩
    · simp only [view, setPtr_self, first_cons, ha]
    · simp only [view, setPtr_of_ne hca, hc.1, hc.2]
    · simp only [view, setPtr_of_ne (hla d hd)]

section Shape

variable {lay : Layout} {h : Heap} {fl live : List (ℕ × ℕ)}

/-- A block of the cycle that starts above `base` is placed. -/
theorem Shape.placed_of_base_lt (hs : Shape lay h fl live) {c : ℕ × ℕ}
    (hc : c ∈ (lay.base, 0) :: fl) (hlt : lay.base < c.1) : Placed lay h.sz.toNat c := by
  rcases hs.of_mem_cycle hc with rfl | hcp
  · exact absurd hlt (lt_irrefl _)
  · exact hcp

/-- A live block and a block of the cycle that starts before it do not overlap. -/
theorem Shape.stop_le_of_lt (hs : Shape lay h fl live) {b c : ℕ × ℕ} (hb : b ∈ live)
    (hc : c ∈ (lay.base, 0) :: fl) (hcb : c.1 < b.1) : stop HDR c ≤ b.1 := by
  have hbp := hs.placed_live hb
  rcases hs.of_mem_cycle hc with rfl | hcp
  · simpa [stop] using hcb.le
  · have hcfl : c ∈ fl := by
      rcases List.mem_cons.1 hc with rfl | hc
      · exact absurd hcp.base_lt (lt_irrefl _)
      · exact hc
    have hdisj := Set.disjoint_of_subset_right (span_subset_cover hcfl) (hs.free_disjoint b hb)
    exact stop_le_of_disjoint hdisj.symm hcb.le (Nat.mul_pos (by decide) hbp.pos)

/-- A live block ends before every block of the cycle that starts after it. -/
theorem Shape.stop_le_of_gt (hs : Shape lay h fl live) {b c : ℕ × ℕ} (hb : b ∈ live)
    (hc : c ∈ (lay.base, 0) :: fl) (hbc : b.1 < c.1) : stop HDR b ≤ c.1 := by
  have hcp := hs.placed_of_base_lt hc ((hs.placed_live hb).base_lt.trans hbc)
  have hcfl : c ∈ fl := by
    rcases List.mem_cons.1 hc with rfl | hc
    · exact absurd hcp.base_lt (lt_irrefl _)
    · exact hc
  have hdisj := Set.disjoint_of_subset_right (span_subset_cover hcfl) (hs.free_disjoint b hb)
  exact stop_le_of_disjoint hdisj hbc.le (Nat.mul_pos (by decide) hcp.pos)

theorem mem_of_mem_erase {l₁ l₂ : List (ℕ × ℕ)} {b x : ℕ × ℕ} (hx : x ∈ l₁ ++ l₂) :
    x ∈ l₁ ++ b :: l₂ := by
  rcases List.mem_append.1 hx with hx | hx
  · exact List.mem_append_left _ hx
  · exact List.mem_append_right _ (List.mem_cons_of_mem _ hx)

/-- Two live blocks do not overlap. -/
theorem Shape.disjoint_live (hs : Shape lay h fl live) {l₁ l₂ : List (ℕ × ℕ)} {b x : ℕ × ℕ}
    (hlive : live = l₁ ++ b :: l₂) (hx : x ∈ l₁ ++ l₂) : Disjoint (span HDR x) (span HDR b) := by
  have hpw := hs.live_disjoint
  rw [hlive] at hpw
  obtain ⟨-, h₂, h₁₂⟩ := List.pairwise_append.1 hpw
  rcases List.mem_append.1 hx with hx | hx
  · exact h₁₂ x hx b (List.mem_cons_self ..)
  · exact ((List.pairwise_cons.1 h₂).1 x hx).symm

/-- Two live blocks start at different headers. -/
theorem Shape.live_start_ne (hs : Shape lay h fl live) {l₁ l₂ : List (ℕ × ℕ)} {b x : ℕ × ℕ}
    (hlive : live = l₁ ++ b :: l₂) (hx : x ∈ l₁ ++ l₂) : x.1 ≠ b.1 :=
  (hs.placed_live (hlive ▸ mem_of_mem_erase hx)).start_ne
    (hs.placed_live (hlive ▸ List.mem_append_right _ (List.mem_cons_self ..)))
    (hs.disjoint_live hlive hx)

/-- Merging keeps a block either `base`'s start or placed. -/
theorem Placed.merge_or {lay : Layout} {sz : ℕ} {a c : ℕ × ℕ} (h : stop HDR a = c.1)
    (ha : a.1 = lay.base ∨ Placed lay sz a) (hc : c.1 = lay.base ∨ Placed lay sz c) :
    (a.1, a.2 + c.2).1 = lay.base ∨ Placed lay sz (a.1, a.2 + c.2) := by
  rcases ha with ha | ha
  · exact .inl ha
  · rcases hc with hc | hc
    · -- a placed block ends above `base`
      have := ha.base_lt
      have := le_stop (u := HDR) a
      omega
    · exact .inr (ha.merge h hc)

/-- `free` puts the live block `b` back: the free list then covers what it covered and `b`,
merged with the blocks it touches, and `freep` moves to the block before it. -/
theorem Shape.free (hs : Shape lay h fl live) {l₁ l₂ : List (ℕ × ℕ)} {b : ℕ × ℕ}
    (hlive : live = l₁ ++ b :: l₂) :
    ∃ h' fl', free (b.1 + HDR) h = some h' ∧ Shape lay h' fl' (l₁ ++ l₂) ∧ h'.sz = h.sz ∧
      cover HDR fl' = cover HDR fl ∪ span HDR b ∧ fl'.length ≤ fl.length + 1 ∧
      ∃ c ∈ fl', b.2 ≤ c.2 := by
  have hb : b ∈ live := hlive ▸ List.mem_append_right _ (List.mem_cons_self ..)
  have hbp := hs.placed_live hb
  obtain ⟨pre, a, post, hcyc, ha, hpost, hscan⟩ := hs.freeScan hb
  have hmemC : ∀ x ∈ pre ++ a :: post, x ∈ (lay.base, 0) :: fl := fun x hx => hcyc ▸ hx
  have haC := hmemC a (List.mem_append_right _ (List.mem_cons_self ..))
  have hpostC : ∀ c ∈ post, c ∈ (lay.base, 0) :: fl :=
    fun c hc => hmemC c (List.mem_append_right _ (List.mem_cons_of_mem _ hc))
  have hpostP : ∀ c ∈ post, Placed lay h.sz.toNat c := fun c hc =>
    hs.placed_of_base_lt (hpostC c hc) (hbp.base_lt.trans (hpost c hc))
  have hsz : h.sz.toNat < 2 ^ 32 := h.sz.toNat_lt
  have hsep : Separated HDR (pre ++ a :: post) := hcyc ▸ hs.separated
  have hpath : Path (view h.mem) (pre ++ a :: post) lay.base := hcyc ▸ hs.path
  rw [path_append, path_cons] at hpath
  obtain ⟨hpre, haH, hpostH⟩ := hpath
  simp only [view, Prod.mk.injEq] at haH
  have hab : a.1 ≠ b.1 := ha.ne
  have ha2 : a.2 < 2 ^ 28 := by
    rcases hs.of_mem_cycle haC with rfl | hap
    · simp
    · exact hap.size_lt hsz
  -- the freed block followed by the blocks after it
  have hJ : Path (view (mergeNext h.mem b.1 a.1)) (join HDR b post) lay.base :=
    path_mergeNext hpostH (hs.sizes b hb) haH.1 hab (fun c hc => (hpost c hc).ne')
      (fun _ => (lt_of_lt_of_le hbp.base_lt (le_stop b)).ne')
      (fun c hc => by have := hbp.size_lt hsz; have := (hpostP c hc).size_lt hsz; omega)
  obtain ⟨c, l', hJeq, hc1, hc2⟩ := join_eq_cons (u := HDR) b post
  have hJstart : ∀ x ∈ join HDR b post, b.1 ≤ x.1 :=
    forall_mem_join (fun x => b.1 ≤ x.1) (fun _ _ _ h _ => h) le_rfl
      (fun c hc => (hpost c hc).le)
  have hJQ : ∀ x ∈ join HDR b post, x.1 = lay.base ∨ Placed lay h.sz.toNat x :=
    forall_mem_join _ (fun _ _ h => Placed.merge_or h) (.inr hbp) (fun c hc => .inr (hpostP c hc))
  have hcP : Placed lay h.sz.toNat c := by
    rcases hJQ c (hJeq ▸ List.mem_cons_self ..) with hcb | hcp
    · exact absurd (hc1 ▸ hcb) hbp.base_lt.ne'
    · exact hcp
  -- the block before it, followed by those
  have hAJ : Path (view (mergePrev (mergeNext h.mem b.1 a.1) b.1 a.1))
      (join HDR a (join HDR b post)) lay.base := by
    rw [hJeq] at hJ ⊢
    have := path_mergePrev hJ (by rw [mergeNext_of_ne hab]; exact haH.2)
      (fun d hd => (lt_of_lt_of_le ha (hJstart d (hJeq ▸ hd))).ne')
      (by have := hcP.size_lt hsz; omega)
    rwa [hc1] at this
  obtain ⟨d, l'', hAeq, hd1, -⟩ := join_eq_cons (u := HDR) a (join HDR b post)
  have hpath' : Path (view (mergePrev (mergeNext h.mem b.1 a.1) b.1 a.1))
      (pre ++ join HDR a (join HDR b post)) lay.base := by
    rw [path_append, hAeq, first_cons, hd1]
    refine ⟨hpre.congr fun x hx => ?_, hAeq ▸ hAJ⟩
    have hxa := hsep.starts.1 x hx
    simp only [view, mergePrev_of_ne hxa.ne, mergeNext_of_ne (hxa.trans ha).ne]
  -- the new list is still in address order
  have hsepJ : Separated HDR (join HDR b post) :=
    separated_join (hsep.sublist ((List.sublist_cons_self a post).trans (List.sublist_append_right pre _)))
      (fun c hc => hs.stop_le_of_gt hb (hpostC c hc) (hpost c hc))
  have hAstart : ∀ x ∈ join HDR a (join HDR b post), a.1 ≤ x.1 :=
    forall_mem_join (fun x => a.1 ≤ x.1) (fun _ _ _ h _ => h) le_rfl
      (fun x hx => ha.le.trans (hJstart x hx))
  have hsep' : Separated HDR (pre ++ join HDR a (join HDR b post)) := by
    obtain ⟨hpre, -, hpa⟩ := List.pairwise_append.1 hsep
    refine List.pairwise_append.2 ⟨hpre, separated_join hsepJ fun x hx => ?_, fun x hx y hy => ?_⟩
    · exact (hs.stop_le_of_lt hb haC ha).trans (hJstart x hx)
    · exact lt_of_lt_of_le (hpa x hx a (List.mem_cons_self ..)) (hAstart y hy)
  -- and it still starts at `base`
  obtain ⟨fl', hfl'⟩ : ∃ fl', pre ++ join HDR a (join HDR b post) = (lay.base, 0) :: fl' := by
    cases pre with
    | nil =>
      obtain ⟨rfl, rfl⟩ := List.cons.inj (hcyc.trans (List.nil_append _))
      refine ⟨c :: l', ?_⟩
      rw [List.nil_append, hJeq, join_cons_of_ne]
      simp only [stop, HDR, Nat.mul_zero, Nat.add_zero, hc1]
      exact hbp.base_lt.ne
    | cons e pre' =>
      obtain ⟨rfl, -⟩ := List.cons.inj hcyc
      exact ⟨pre' ++ join HDR a (join HDR b post), rfl⟩
  have hspan0 : span HDR (lay.base, 0) = ∅ := by
    simp [span, stop]
  have hflmem : ∀ x ∈ fl', x ∈ pre ++ join HDR a (join HDR b post) := fun x hx =>
    hfl' ▸ List.mem_cons_of_mem _ hx
  have hflbase : ∀ x ∈ fl', lay.base < x.1 := fun x hx => by
    have := (List.pairwise_cons.1 (hfl' ▸ hsep')).1 x hx
    simpa [stop] using this
  have hAQ : ∀ x ∈ join HDR a (join HDR b post), x.1 = lay.base ∨ Placed lay h.sz.toNat x := by
    refine forall_mem_join _ (fun _ _ h => Placed.merge_or h) ?_ hJQ
    rcases hs.of_mem_cycle haC with rfl | hap
    · exact .inl rfl
    · exact .inr hap
  have hflP : ∀ x ∈ fl', Placed lay h.sz.toNat x := by
    intro x hx
    rcases List.mem_append.1 (hflmem x hx) with hxp | hxA
    · exact hs.placed_of_base_lt (hmemC x (List.mem_append_left _ hxp)) (hflbase x hx)
    · rcases hAQ x hxA with hxb | hxp
      · exact absurd hxb (hflbase x hx).ne'
      · exact hxp
  have hcover : cover HDR fl' = cover HDR fl ∪ span HDR b := by
    have h₁ : cover HDR fl' = cover HDR (pre ++ join HDR a (join HDR b post)) := by
      rw [hfl', cover_cons, hspan0, Set.empty_union]
    have h₂ : cover HDR fl = cover HDR (pre ++ a :: post) := by
      rw [← hcyc, cover_cons, hspan0, Set.empty_union]
    rw [h₁, h₂, cover_append, cover_join, cover_join, cover_append, cover_cons]
    ext x
    simp only [Set.mem_union]
    tauto
  refine ⟨{ h with mem := mergePrev (mergeNext h.mem b.1 a.1) b.1 a.1, freep := a.1 }, fl', ?_, ?_,
    rfl, hcover, ?_, ?_⟩
  · simp [Xv6.Umalloc.free, hscan]
  · exact {
      path := hfl' ▸ hpath'
      separated := hfl' ▸ hsep'
      freep := by
        have : a.1 ∈ ((lay.base, 0) :: fl').map Prod.fst := by
          rw [← hfl', List.map_append, hAeq, List.map_cons, hd1]
          exact List.mem_append_right _ (List.mem_cons_self ..)
        exact this
      placed := by
        intro x hx
        rcases List.mem_append.1 hx with hx | hx
        · exact hflP x hx
        · exact hs.placed_live (hlive ▸ mem_of_mem_erase hx)
      sizes := by
        intro x hx
        have hxl := hlive ▸ mem_of_mem_erase hx
        dsimp only
        rw [mergePrev_of_ne (hs.live_ne_cycle hxl haC), mergeNext_of_ne (hs.live_start_ne hlive hx)]
        exact hs.sizes x hxl
      live_disjoint := hs.live_disjoint.sublist (hlive ▸ (List.sublist_cons_self b l₂).append_left l₁)
      free_disjoint := by
        intro x hx
        rw [hcover]
        exact Set.disjoint_union_right.2
          ⟨hs.free_disjoint x (hlive ▸ mem_of_mem_erase hx), hs.disjoint_live hlive hx⟩
      heap0_le := hs.heap0_le
      sz_aligned := hs.sz_aligned }
  · have h₁ := congrArg List.length hfl'
    have h₂ := congrArg List.length hcyc
    have h₃ := length_join_le (u := HDR) a (join HDR b post)
    have h₄ := length_join_le (u := HDR) b post
    simp only [List.length_cons, List.length_append] at h₁ h₂ h₃ h₄
    omega
  · obtain ⟨d, hd, hcd⟩ := exists_mem_join_ge (u := HDR) a c l'
    rw [← hJeq] at hd
    have hdC : d ∈ (lay.base, 0) :: fl' := hfl' ▸ List.mem_append_right _ hd
    refine ⟨d, ?_, hc2.trans hcd⟩
    rcases List.mem_cons.1 hdC with rfl | hdF
    · have := hbp.pos
      simp only at hc2 hcd
      omega
    · exact hdF

/-- The block `sbrk` just gave, its size written in its header, is a live block. -/
theorem Shape.grow (hs : Shape lay h fl live) {sz' : UInt32} {n : ℕ} (hn : 0 < n)
    (hnlt : n < 2 ^ 32) (hsz' : sz'.toNat = h.sz.toNat + HDR * n) :
    Shape lay { mem := setSize h.mem h.sz.toNat (UInt32.ofNat n), freep := h.freep, sz := sz' } fl
      (live ++ [(h.sz.toNat, n)]) := by
  have hle : h.sz.toNat ≤ sz'.toNat := by omega
  -- every block ends at or below the old break, where the new one starts
  have hbelow : ∀ c ∈ (lay.base, 0) :: fl, c.1 < h.sz.toNat := by
    intro c hc
    rcases hs.of_mem_cycle hc with rfl | hcp
    · exact lay.base_lt.trans_le hs.heap0_le
    · exact lt_of_lt_of_le (hcp.start_mem).2 hcp.hi
  have hstopN : ∀ b ∈ fl ++ live, stop HDR b ≤ h.sz.toNat := fun b hb => (hs.placed b hb).hi
  exact {
    path := hs.path.congr fun c hc => by simp only [view, setSize_of_ne (hbelow c hc).ne]
    separated := hs.separated
    freep := hs.freep
    placed := by
      intro b hb
      rw [← List.append_assoc] at hb
      rcases List.mem_append.1 hb with hb | hb
      · exact (hs.placed b hb).mono hle
      · rw [List.mem_singleton] at hb
        subst hb
        exact ⟨hn, hs.sz_aligned, hs.heap0_le, by simp only [stop]; omega⟩
    sizes := by
      intro b hb
      rcases List.mem_append.1 hb with hb | hb
      · have := (hs.placed_live hb).start_mem.2.trans_le (hs.placed_live hb).hi
        simp only [setSize_of_ne this.ne]
        exact hs.sizes b hb
      · rw [List.mem_singleton] at hb
        subst hb
        simp [UInt32.toNat_ofNat']
        omega
    live_disjoint := by
      refine List.pairwise_append.2 ⟨hs.live_disjoint, List.pairwise_singleton _ _, ?_⟩
      intro a ha b hb
      rw [List.mem_singleton] at hb
      subst hb
      exact disjoint_span (.inl (hstopN a (List.mem_append_right _ ha)))
    free_disjoint := by
      intro b hb
      rcases List.mem_append.1 hb with hb | hb
      · exact hs.free_disjoint b hb
      · rw [List.mem_singleton] at hb
        subst hb
        exact disjoint_cover.2 fun c hc =>
          disjoint_span (.inr (hstopN c (List.mem_append_left _ hc)))
    heap0_le := hs.heap0_le.trans hle
    sz_aligned := by
      rw [hsz']
      exact Nat.dvd_add hs.sz_aligned (Nat.dvd_mul_right HDR n) }

theorem Shape.freep_pos (hs : Shape lay h fl live) : 0 < h.freep := by
  have hf : h.freep ∈ ((lay.base, 0) :: fl).map Prod.fst := hs.freep
  obtain ⟨c, hc, hcf⟩ := List.mem_map.1 hf
  rw [← hcf]
  rcases hs.of_mem_cycle hc with rfl | hcp
  · exact lay.base_pos
  · exact lay.base_pos.trans hcp.base_lt

end Shape

/-! ### morecore -/

theorem toPtr_of_lt {sz : UInt32} (h : sz.toNat < 2 ^ 31) : toPtr sz.toInt32 = sz.toNat := by
  have : sz.toInt32 = Int32.ofNat sz.toNat := by
    rw [← UInt32.toInt32_ofNat', UInt32.ofNat_toNat]
  rw [toPtr, this, Int32.toInt_ofNat_of_lt h]
  omega

/-- A request for `k` more bytes, with `k` a positive `int` and the new size within 32 bits:
`growproc` grows the process by exactly `k` when memory allows, and fails otherwise. -/
theorem growproc_of_lt {avail k : ℕ} {sz : UInt32} (hk : 0 < k) (hk' : k < 2 ^ 31)
    (hsz : sz.toNat + k < 2 ^ 32) :
    growproc avail (Int32.ofNat k) sz =
      if sz.toNat + k ≤ avail then some (sz + UInt32.ofNat k) else none := by
  have hpos : (0 : Int32) < Int32.ofNat k := by
    rw [Int32.lt_iff_toInt_lt, Int32.toInt_ofNat_of_lt hk']
    simp only [Int32.toInt_zero]
    omega
  have hnew : (sz + UInt32.ofNat k).toNat = sz.toNat + k := by
    rw [UInt32.toNat_add, UInt32.toNat_ofNat', Nat.mod_eq_of_lt (show k < 2 ^ 32 by omega),
      Nat.mod_eq_of_lt hsz]
  have hlt : ¬ sz + UInt32.ofNat k < sz := by
    rw [UInt32.lt_iff_toNat_lt, hnew]
    omega
  simp only [growproc, if_pos hpos, Int32.toUInt32_ofNat', if_neg hlt, hnew]

theorem toNat_moreUnits (nu : UInt32) :
    (if nu < 4096 then 4096 else nu).toNat = max nu.toNat 4096 := by
  have h4096 : (4096 : UInt32).toNat = 4096 := rfl
  split_ifs with h
  · rw [UInt32.lt_iff_toNat_lt, h4096] at h
    omega
  · rw [UInt32.lt_iff_toNat_lt, h4096] at h
    omega

section Shape

variable {lay : Layout} {h : Heap} {fl live : List (ℕ × ℕ)}

/-- `morecore(nu)` for `nu` below 2^27, so that `nu * sizeof(Header)` is a positive `int`:
either `sbrk` fails and nothing changes, or the heap grows by the bytes asked for and the new
block joins the free list, where a block of at least `nu` units is then free. -/
theorem Shape.morecore (hs : Shape lay h fl live) (hsz : h.sz.toNat < 2 ^ 31) {nu : UInt32}
    {avail : ℕ} (hnu : nu.toNat < 2 ^ 27) (havail : avail < 2 ^ 31) :
    (sbrk avail (Int32.ofNat ((if nu < 4096 then 4096 else nu).toNat * HDR)) h = (toPtr (-1), h) ∧
        Xv6.Umalloc.morecore nu avail h = some (0, h)) ∨
      ∃ h' fl', Xv6.Umalloc.morecore nu avail h = some (h'.freep, h') ∧ Shape lay h' fl' live ∧
        h'.sz.toNat = h.sz.toNat + HDR * max nu.toNat 4096 ∧ h'.sz.toNat ≤ avail ∧
        fl'.length ≤ fl.length + 1 ∧ ∃ c ∈ fl', nu.toNat ≤ c.2 := by
  have hmore := toNat_moreUnits nu
  set nu' := if nu < 4096 then 4096 else nu with hnu'
  have hk : 0 < nu'.toNat * HDR := by simp only [HDR]; omega
  have hk' : nu'.toNat * HDR < 2 ^ 31 := by simp only [HDR]; omega
  have hg := @growproc_of_lt avail (nu'.toNat * HDR) h.sz hk hk' (by omega)
  by_cases hroom : h.sz.toNat + nu'.toNat * HDR ≤ avail
  · right
    rw [if_pos hroom] at hg
    have hsz' : (h.sz + UInt32.ofNat (nu'.toNat * HDR)).toNat = h.sz.toNat + HDR * nu'.toNat := by
      rw [UInt32.toNat_add, UInt32.toNat_ofNat', Nat.mod_eq_of_lt (show nu'.toNat * HDR < 2 ^ 32 by omega),
        Nat.mod_eq_of_lt (by omega), Nat.mul_comm]
    have hs₁ := hs.grow (n := nu'.toNat) (by omega) (by omega) hsz'
    obtain ⟨h', fl', hfree, hs', hsz'', -, hlen, c, hc, hcge⟩ := hs₁.free rfl
    rw [List.append_nil] at hs'
    refine ⟨h', fl', ?_, hs', ?_, ?_, hlen, c, hc, by omega⟩
    · have hp : h.sz.toNat ≠ toPtr (-1) := by
        have : toPtr (-1) = 2 ^ 64 - 1 := by decide
        omega
      simp only [UInt32.ofNat_toNat] at hfree
      simp only [Xv6.Umalloc.morecore, sbrk, ← hnu', hg, toPtr_of_lt hsz, if_neg hp, hfree]
      rfl
    · rw [hsz'', hsz', hmore]
    · rw [hsz'', hsz', Nat.mul_comm]
      exact hroom
  · left
    rw [if_neg hroom] at hg
    have hsbrk : sbrk avail (Int32.ofNat (nu'.toNat * HDR)) h = (toPtr (-1), h) := by
      simp only [sbrk, hg]
    refine ⟨hsbrk, ?_⟩
    simp only [Xv6.Umalloc.morecore, ← hnu', hsbrk, if_true]

end Shape

/-! ### malloc -/

/-- Blocks too small for the request, none of them `freep`, are walked past: the loop goes
on along the chain. -/
theorem mallocLoop_walk {nu : UInt32} {avail : ℕ} {h : Heap} {r : List (ℕ × ℕ)} {z : ℕ}
    (hp : Path (view h.mem) r z) (hfit : ∀ c ∈ r, c.2 < nu.toNat) (hfreep : ∀ c ∈ r, c.1 ≠ h.freep)
    (prevp fuel : ℕ) :
    mallocLoop nu avail (r.length + fuel) prevp (first r z) h =
      mallocLoop nu avail fuel (first r.reverse prevp) z h := by
  induction r generalizing prevp with
  | nil => simp
  | cons c r ih =>
    obtain ⟨hc, hr⟩ := hp
    simp only [view, Prod.mk.injEq] at hc
    have hsmall : ¬ (h.mem c.1).size ≥ nu := by
      rw [ge_iff_le, UInt32.le_iff_toNat_le, hc.2]
      exact not_le.2 (hfit c (List.mem_cons_self ..))
    rw [List.length_cons, show r.length + 1 + fuel = (r.length + fuel) + 1 by omega, first_cons,
      mallocLoop, if_neg hsmall, if_neg (hfreep c (List.mem_cons_self ..)), hc.1,
      ih hr (fun d hd => hfit d (List.mem_cons_of_mem _ hd))
        (fun d hd => hfreep d (List.mem_cons_of_mem _ hd)) c.1,
      List.reverse_cons, first_append, first_cons]

/-- After a full turn without a fit, at `freep`, the loop calls `morecore`. -/
theorem mallocLoop_more {nu : UInt32} {avail fuel prevp p : ℕ} {h : Heap}
    (hsmall : (h.mem p).size.toNat < nu.toNat) (hp : p = h.freep) :
    mallocLoop nu avail (fuel + 1) prevp p h =
      match morecore nu avail h with
      | none => none
      | some (q, h) => if q = 0 then some (0, h) else mallocLoop nu avail fuel q (h.mem q).ptr h := by
  rw [mallocLoop, if_neg (by rw [ge_iff_le, UInt32.le_iff_toNat_le]; omega), if_pos hp]

/-- A list with the same first block as another. -/
theorem exists_cons_of_head {x q : ℕ × ℕ} {l X Z : List (ℕ × ℕ)} (h : x :: l = X ++ q :: Z)
    (Z' : List (ℕ × ℕ)) : ∃ l', X ++ q :: Z' = x :: l' := by
  cases X with
  | nil =>
    obtain ⟨rfl, -⟩ := List.cons.inj h
    exact ⟨Z', rfl⟩
  | cons e X =>
    obtain ⟨rfl, -⟩ := List.cons.inj h
    exact ⟨X ++ q :: Z', rfl⟩

section Shape

variable {lay : Layout} {h : Heap} {fl live : List (ℕ × ℕ)}

/-- The facts about a block `c` of the cycle and the block `q` before it that taking `c`
needs. -/
theorem Shape.taken {X Y : List (ℕ × ℕ)} {q c : ℕ × ℕ} (hs : Shape lay h fl live)
    (hcyc : (lay.base, 0) :: fl = X ++ q :: c :: Y) :
    Placed lay h.sz.toNat c ∧ c ∈ fl ∧ Path (view h.mem) X q.1 ∧
      view h.mem q.1 = (c.1, q.2) ∧ view h.mem c.1 = (first Y lay.base, c.2) ∧
      Path (view h.mem) Y lay.base ∧ Separated HDR (X ++ q :: c :: Y) := by
  have hsep : Separated HDR (X ++ q :: c :: Y) := hcyc ▸ hs.separated
  have hpath : Path (view h.mem) (X ++ q :: c :: Y) lay.base := hcyc ▸ hs.path
  rw [path_append, path_cons, path_cons] at hpath
  have hcC : c ∈ (lay.base, 0) :: fl := by
    rw [hcyc]
    simp
  have hqc : q.1 < c.1 := (List.pairwise_cons.1 (List.pairwise_append.1 hsep).2.1).1 c
    (List.mem_cons_self ..) |> lt_of_le_of_lt (le_stop q)
  have hqC : q ∈ (lay.base, 0) :: fl := by
    rw [hcyc]
    simp
  have hbase : lay.base < c.1 := by
    rcases hs.of_mem_cycle hqC with rfl | hqp
    · exact hqc
    · exact hqp.base_lt.trans hqc
  have hcp := hs.placed_of_base_lt hcC hbase
  refine ⟨hcp, ?_, hpath.1, hpath.2.1, hpath.2.2.1, hpath.2.2.2, hsep⟩
  rcases List.mem_cons.1 hcC with rfl | hc
  · exact absurd hbase (lt_irrefl _)
  · exact hc

/-- Taking the whole block `c`: the block before it now points past it. -/
theorem Shape.takeWhole (hs : Shape lay h fl live) {X Y : List (ℕ × ℕ)} {q c : ℕ × ℕ}
    (hcyc : (lay.base, 0) :: fl = X ++ q :: c :: Y) :
    ∃ fl', Shape lay { h with mem := setPtr h.mem q.1 (h.mem c.1).ptr, freep := q.1 } fl'
        (live ++ [c]) ∧ cover HDR fl' ∪ span HDR c = cover HDR fl ∧ fl'.length ≤ fl.length := by
  obtain ⟨hcp, hcfl, hX, hq, hc, hY, hsep⟩ := hs.taken hcyc
  simp only [view, Prod.mk.injEq] at hq hc
  obtain ⟨fl', hfl'⟩ := exists_cons_of_head hcyc Y
  have hstarts := hsep.starts
  have hsub : (X ++ q :: Y).Sublist (X ++ q :: c :: Y) :=
    (((List.sublist_cons_self c Y).cons_cons q)).append_left X
  have hsep' : Separated HDR (X ++ q :: Y) := hsep.sublist hsub
  have hmem' : ∀ x ∈ fl', x ∈ (lay.base, 0) :: fl := fun x hx => by
    rw [hcyc]
    exact hsub.subset (hfl' ▸ List.mem_cons_of_mem _ hx)
  have hspan0 : span HDR (lay.base, 0) = ∅ := by
    simp [span, stop]
  -- the free list without `c`
  have hcov' : cover HDR fl' = cover HDR (X ++ q :: Y) := by
    rw [hfl', cover_cons, hspan0, Set.empty_union]
  have hcover : cover HDR fl' ∪ span HDR c = cover HDR fl := by
    have h₂ : cover HDR fl = cover HDR (X ++ q :: c :: Y) := by
      rw [← hcyc, cover_cons, hspan0, Set.empty_union]
    rw [hcov', h₂, cover_append, cover_append, cover_cons, cover_cons, cover_cons]
    ext x
    simp only [Set.mem_union]
    tauto
  have hdisj : Disjoint (span HDR c) (cover HDR fl') := by
    have := (show Separated HDR ((X ++ [q]) ++ c :: Y) by simpa using hsep).disjoint_span_cover
    rwa [List.append_assoc, List.singleton_append, ← hcov'] at this
  have hsub' : cover HDR fl' ⊆ cover HDR fl := hcover ▸ Set.subset_union_left
  have hfl'base : ∀ x ∈ fl', lay.base < x.1 := fun x hx => by
    have := (List.pairwise_cons.1 (hfl' ▸ hsep')).1 x hx
    simpa [stop] using this
  refine ⟨fl', {
      path := ?_
      separated := hfl' ▸ hsep'
      freep := ?_
      placed := ?_
      sizes := ?_
      live_disjoint := ?_
      free_disjoint := ?_
      heap0_le := hs.heap0_le
      sz_aligned := hs.sz_aligned }, hcover, ?_⟩
  · rw [← hfl', path_append, path_cons]
    refine ⟨hX.congr fun x hx => ?_, ?_, hY.congr fun y hy => ?_⟩
    · simp only [view, setPtr_of_ne (hstarts.1 x hx).ne]
    · simp only [view, setPtr_self, hc.1, hq.2]
    · simp only [view, setPtr_of_ne (hstarts.2 y (List.mem_cons_of_mem _ hy)).ne']
  · have : q.1 ∈ ((lay.base, 0) :: fl').map Prod.fst := by
      rw [← hfl', List.map_append, List.map_cons]
      exact List.mem_append_right _ (List.mem_cons_self ..)
    exact this
  · intro x hx
    rcases List.mem_append.1 hx with hx | hx
    · exact hs.placed_of_base_lt (hmem' x hx) (hfl'base x hx)
    · rcases List.mem_append.1 hx with hx | hx
      · exact hs.placed_live hx
      · rw [List.mem_singleton] at hx
        exact hx ▸ hcp
  · intro x hx
    simp only [setPtr_size]
    rcases List.mem_append.1 hx with hx | hx
    · exact hs.sizes x hx
    · rw [List.mem_singleton] at hx
      exact hx ▸ hc.2
  · refine List.pairwise_append.2 ⟨hs.live_disjoint, List.pairwise_singleton _ _, fun a ha b hb => ?_⟩
    rw [List.mem_singleton] at hb
    subst hb
    exact Set.disjoint_of_subset_right (span_subset_cover hcfl) (hs.free_disjoint a ha)
  · intro x hx
    rcases List.mem_append.1 hx with hx | hx
    · exact Set.disjoint_of_subset_right hsub' (hs.free_disjoint x hx)
    · rw [List.mem_singleton] at hx
      exact hx ▸ hdisj
  · have h₁ := congrArg List.length hfl'
    have h₂ := congrArg List.length hcyc
    simp only [List.length_cons, List.length_append] at h₁ h₂
    omega

/-- Taking the last `k` units of the larger block `c`: `c` keeps the rest, and the part taken
gets a header of its own, its size written as `w`. -/
theorem Shape.takeTail (hs : Shape lay h fl live) {X Y : List (ℕ × ℕ)} {q c : ℕ × ℕ}
    (hcyc : (lay.base, 0) :: fl = X ++ q :: c :: Y) {k : ℕ} {v w : UInt32} (hk : 0 < k)
    (hkc : k < c.2) (hv : v.toNat = c.2 - k) (hw : w.toNat = k) :
    ∃ fl', Shape lay
        { h with mem := setSize (setSize h.mem c.1 v) (c.1 + HDR * v.toNat) w, freep := q.1 } fl'
        (live ++ [(c.1 + HDR * v.toNat, k)]) ∧
      cover HDR fl' ∪ span HDR (c.1 + HDR * v.toNat, k) = cover HDR fl ∧
      fl'.length ≤ fl.length := by
  obtain ⟨hcp, hcfl, hX, hq, hc, hY, hsep⟩ := hs.taken hcyc
  simp only [view, Prod.mk.injEq] at hq hc
  rw [hv]
  -- what is left of `c`, and the part taken
  set c' : ℕ × ℕ := (c.1, c.2 - k) with hc'
  set a : ℕ × ℕ := (c.1 + HDR * (c.2 - k), k) with ha
  have hstop' : stop HDR c' = a.1 := rfl
  have hstopa : stop HDR a = stop HDR c := by
    simp only [ha, stop, HDR]
    omega
  have hac : c.1 < a.1 := by
    simp only [ha, HDR]
    omega
  obtain ⟨fl', hfl'⟩ := exists_cons_of_head hcyc (c' :: Y)
  have hstarts := hsep.starts
  have hY' : ∀ y ∈ Y, stop HDR c < y.1 := fun y hy =>
    (List.pairwise_cons.1 (List.pairwise_append.1 hsep).2.1).2 |> fun h =>
      (List.pairwise_cons.1 h).1 y hy
  have hsep' : Separated HDR (X ++ q :: c' :: Y) := by
    have := (show Separated HDR ((X ++ [q]) ++ c :: Y) by simpa using hsep).shrink
      (c := c') rfl (by simp only [hc', stop, HDR]; omega)
    simpa using this
  have hspan0 : span HDR (lay.base, 0) = ∅ := by
    simp [span, stop]
  have hcov' : cover HDR fl' = cover HDR (X ++ q :: c' :: Y) := by
    rw [hfl', cover_cons, hspan0, Set.empty_union]
  have hspan : span HDR c' ∪ span HDR a = span HDR c := by
    rw [← span_merge hstop']
    simp only [hc', ha, Nat.sub_add_cancel hkc.le]
  have hcover : cover HDR fl' ∪ span HDR a = cover HDR fl := by
    have h₂ : cover HDR fl = cover HDR (X ++ q :: c :: Y) := by
      rw [← hcyc, cover_cons, hspan0, Set.empty_union]
    rw [hcov', h₂, cover_append, cover_append, cover_cons, cover_cons, cover_cons, cover_cons,
      ← hspan]
    ext x
    simp only [Set.mem_union]
    tauto
  have haspan : span HDR a ⊆ span HDR c := hspan ▸ Set.subset_union_right
  have hdisj : Disjoint (span HDR a) (cover HDR fl') := by
    have hrest := (show Separated HDR ((X ++ [q]) ++ c :: Y) by simpa using hsep).disjoint_span_cover
    rw [List.append_assoc, List.singleton_append] at hrest
    rw [hcov', cover_append, cover_cons, cover_cons]
    have hca : Disjoint (span HDR a) (span HDR c') := disjoint_span (.inr le_rfl)
    rw [cover_append, cover_cons] at hrest
    have hrest' := Set.disjoint_of_subset_left haspan hrest
    simp only [Set.disjoint_union_right] at hrest' ⊢
    exact ⟨hrest'.1, hrest'.2.1, hca, hrest'.2.2⟩
  have hsub' : cover HDR fl' ⊆ cover HDR fl := hcover ▸ Set.subset_union_left
  have hfl'base : ∀ x ∈ fl', lay.base < x.1 := fun x hx => by
    have := (List.pairwise_cons.1 (hfl' ▸ hsep')).1 x hx
    simpa [stop] using this
  have hfl'mem : ∀ x ∈ fl', x = c' ∨ x ∈ (lay.base, 0) :: fl := by
    intro x hx
    have hx' : x ∈ X ++ q :: c' :: Y := hfl' ▸ List.mem_cons_of_mem _ hx
    rw [hcyc]
    simp only [List.mem_append, List.mem_cons] at hx' ⊢
    tauto
  have hmemA : a.1 ∈ span HDR c := haspan (by simp only [mem_span, ha, stop, HDR]; omega)
  refine ⟨fl', {
      path := ?_
      separated := hfl' ▸ hsep'
      freep := ?_
      placed := ?_
      sizes := ?_
      live_disjoint := ?_
      free_disjoint := ?_
      heap0_le := hs.heap0_le
      sz_aligned := hs.sz_aligned }, hcover, ?_⟩
  · -- only the headers of `c` and of the part taken change
    rw [← hfl', path_append, path_cons, path_cons]
    have hqa : q.1 < a.1 := (hstarts.2 c (List.mem_cons_self ..)).trans hac
    refine ⟨hX.congr fun x hx => ?_, ?_, ?_, hY.congr fun y hy => ?_⟩
    · have hxq := hstarts.1 x hx
      simp only [view, setSize_of_ne (show x.1 ≠ c.1 + HDR * (c.2 - k) from (hxq.trans hqa).ne),
        setSize_of_ne (hxq.trans (hstarts.2 c (List.mem_cons_self ..))).ne]
    · simp only [view, setSize_of_ne (show q.1 ≠ c.1 + HDR * (c.2 - k) from hqa.ne),
        setSize_of_ne (hstarts.2 c (List.mem_cons_self ..)).ne, hq.1, hq.2, first_cons, hc']
    · simp only [view, hc', setSize_of_ne (show c.1 ≠ c.1 + HDR * (c.2 - k) from hac.ne),
        setSize_self, hc.1, hv]
    · have hy := hY' y hy
      have : a.1 < y.1 := by
        simp only [ha, stop, HDR] at hy ⊢
        omega
      simp only [view, setSize_of_ne (show y.1 ≠ c.1 + HDR * (c.2 - k) from this.ne'),
        setSize_of_ne (lt_of_le_of_lt (le_stop c) hy).ne']
  · have : q.1 ∈ ((lay.base, 0) :: fl').map Prod.fst := by
      rw [← hfl', List.map_append, List.map_cons]
      exact List.mem_append_right _ (List.mem_cons_self ..)
    exact this
  · intro x hx
    rcases List.mem_append.1 hx with hx | hx
    · rcases hfl'mem x hx with rfl | hxC
      · exact ⟨by simp only [hc']; omega, hcp.aligned, hcp.lo,
          (show stop HDR (c.1, c.2 - k) ≤ stop HDR c by simp only [stop, HDR]; omega).trans hcp.hi⟩
      · exact hs.placed_of_base_lt hxC (hfl'base x hx)
    · rcases List.mem_append.1 hx with hx | hx
      · exact hs.placed_live hx
      · rw [List.mem_singleton] at hx
        subst hx
        exact ⟨hk, Nat.dvd_add hcp.aligned (Nat.dvd_mul_right _ _), hcp.lo.trans hac.le,
          hstopa ▸ hcp.hi⟩
  · intro x hx
    rcases List.mem_append.1 hx with hx | hx
    · -- a live block starts outside the free block `c`
      have hxa : x.1 ≠ a.1 := fun hxa => Set.disjoint_left.1 (hs.free_disjoint x hx)
        (hs.placed_live hx).start_mem (hxa ▸ span_subset_cover hcfl hmemA)
      have hxc := hs.live_ne_cycle hx (List.mem_cons_of_mem _ hcfl)
      simp only [setSize_of_ne (show x.1 ≠ c.1 + HDR * (c.2 - k) from hxa), setSize_of_ne hxc]
      exact hs.sizes x hx
    · rw [List.mem_singleton] at hx
      subst hx
      simp only [ha, setSize_self, hw]
  · refine List.pairwise_append.2 ⟨hs.live_disjoint, List.pairwise_singleton _ _, fun b hb d hd => ?_⟩
    rw [List.mem_singleton] at hd
    subst hd
    exact Set.disjoint_of_subset_right (haspan.trans (span_subset_cover hcfl)) (hs.free_disjoint b hb)
  · intro x hx
    rcases List.mem_append.1 hx with hx | hx
    · exact Set.disjoint_of_subset_right hsub' (hs.free_disjoint x hx)
    · rw [List.mem_singleton] at hx
      exact hx ▸ hdisj
  · have h₁ := congrArg List.length hfl'
    have h₂ := congrArg List.length hcyc
    simp only [List.length_cons, List.length_append] at h₁ h₂
    omega

/-- The block whose header points to a free block `c` is the one before it in the cycle. -/
theorem Shape.pred (hs : Shape lay h fl live) {c : ℕ × ℕ} (hc : c ∈ fl) {x : ℕ}
    (hx : x ∈ lay.base :: fl.map Prod.fst) (hptr : (h.mem x).ptr = c.1) :
    ∃ X Y q, (lay.base, 0) :: fl = X ++ q :: c :: Y ∧ q.1 = x := by
  have hx' : x ∈ ((lay.base, 0) :: fl).map Prod.fst := hx
  obtain ⟨q, hq, rfl⟩ := List.mem_map.1 hx'
  obtain ⟨X, Y', hXY⟩ := List.append_of_mem hq
  have hpath := hs.path
  rw [hXY, path_append, path_cons] at hpath
  have hnext : (h.mem q.1).ptr = first Y' lay.base := by
    have := hpath.2.1
    simp only [view, Prod.mk.injEq] at this
    exact this.1
  cases Y' with
  | nil =>
    -- the last block points to `base`, where no free block starts
    rw [hnext, first_nil] at hptr
    exact absurd hptr (hs.placed_free hc).base_lt.ne
  | cons e Y =>
    rw [hnext, first_cons] at hptr
    have he : e ∈ (lay.base, 0) :: fl := by
      rw [hXY]
      simp
    obtain rfl := hs.separated.eq_of_start he (List.mem_cons_of_mem _ hc) hptr
    exact ⟨X, Y, q, hXY, rfl⟩

/-- At a block that fits, with the block before it as `prevp`, `malloc`'s loop returns the
block, whole or its last `nu` units, and the invariant holds with it live. -/
theorem Shape.alloc (hs : Shape lay h fl live) {X Y : List (ℕ × ℕ)} {q c : ℕ × ℕ}
    (hcyc : (lay.base, 0) :: fl = X ++ q :: c :: Y) {nu : UInt32}
    (hnu : 0 < nu.toNat) (hfit : nu.toNat ≤ c.2) :
    ∃ h' fl' a, (∀ avail fuel, mallocLoop nu avail (fuel + 1) q.1 c.1 h = some (a.1 + HDR, h')) ∧
      Shape lay h' fl' (live ++ [a]) ∧ a.2 = nu.toNat ∧ h'.sz = h.sz ∧
      cover HDR fl' ∪ span HDR a = cover HDR fl := by
  obtain ⟨-, -, -, -, hc, -, -⟩ := hs.taken hcyc
  simp only [view, Prod.mk.injEq] at hc
  have hge : (h.mem c.1).size ≥ nu := by
    rw [ge_iff_le, UInt32.le_iff_toNat_le, hc.2]
    exact hfit
  by_cases heq : c.2 = nu.toNat
  · -- an exact fit: the whole block
    have hsz : (h.mem c.1).size = nu := UInt32.toNat_inj.1 (hc.2.trans heq)
    obtain ⟨fl', hs', hcov, -⟩ := hs.takeWhole hcyc
    exact ⟨_, fl', c, fun _ _ => by rw [mallocLoop, if_pos hge, if_pos hsz], hs', heq, rfl, hcov⟩
  · -- a larger block: its end
    have hne : (h.mem c.1).size ≠ nu := fun h' => heq (hc.2 ▸ congrArg UInt32.toNat h')
    have hv : ((h.mem c.1).size - nu).toNat = c.2 - nu.toNat := by
      rw [UInt32.toNat_sub_of_le _ _ hge, hc.2]
    obtain ⟨fl', hs', hcov, -⟩ := hs.takeTail hcyc hnu (lt_of_le_of_ne hfit (Ne.symm heq)) hv rfl
    refine ⟨_, fl', _, fun _ _ => ?_, hs', rfl, rfl, hcov⟩
    rw [mallocLoop, if_pos hge, if_neg hne]
    simp only [setSize_self]

/-- The cycle read from the block after `freep`'s round to `freep`'s own block `f`. -/
theorem Shape.walk (hs : Shape lay h fl live) :
    ∃ R f, Path (view h.mem) (R ++ [f]) (first (R ++ [f]) 0) ∧ f.1 = h.freep ∧
      (h.mem h.freep).ptr = first (R ++ [f]) 0 ∧ (∀ x ∈ R, x.1 ≠ h.freep) ∧
      (∀ x, x ∈ R ++ [f] ↔ x ∈ (lay.base, 0) :: fl) ∧ R.length = fl.length := by
  have hfreep : h.freep ∈ ((lay.base, 0) :: fl).map Prod.fst := hs.freep
  obtain ⟨f, hf, hff⟩ := List.mem_map.1 hfreep
  obtain ⟨A, B, hAB⟩ := List.append_of_mem hf
  have hcyc : Cycle (view h.mem) ((A ++ [f]) ++ B) := by
    rw [List.append_assoc, List.singleton_append, ← hAB]
    exact hs.path
  have hrot : Cycle (view h.mem) ((B ++ A) ++ [f]) := by
    have := hcyc.rotate
    rwa [← List.append_assoc] at this
  refine ⟨B ++ A, f, hrot, hff, ?_, ?_, ?_, ?_⟩
  · -- `f` is last, and its header points to the first block
    have := ((path_append _ _ _).1 hrot).2
    rw [path_cons] at this
    simp only [view, Prod.mk.injEq, first_nil] at this
    rw [← hff]
    exact this.1.1
  · intro x hx hxf
    have hsep : Separated HDR (A ++ f :: B) := hAB ▸ hs.separated
    rcases List.mem_append.1 hx with hx | hx
    · exact (hsep.starts.2 x hx).ne' (hxf.trans hff.symm)
    · exact (hsep.starts.1 x hx).ne (hxf.trans hff.symm)
  · intro x
    rw [hAB]
    simp only [List.mem_append, List.mem_cons, List.not_mem_nil]
    tauto
  · have := congrArg List.length hAB
    simp only [List.length_cons, List.length_append] at this ⊢
    omega

end Shape

theorem mem_of_append_cons_eq {R R₁ R₂ : List (ℕ × ℕ)} {f c : ℕ × ℕ}
    (h : R ++ [f] = R₁ ++ c :: R₂) {x : ℕ × ℕ} (hx : x ∈ R₁) : x ∈ R := by
  rcases List.eq_nil_or_concat R₂ with rfl | ⟨R₂', g, rfl⟩
  · rw [(List.append_inj' h rfl).1]
    exact hx
  · rw [List.concat_eq_append, show R₁ ++ c :: (R₂' ++ [g]) = (R₁ ++ c :: R₂') ++ [g] by simp] at h
    rw [(List.append_inj' h rfl).1]
    exact List.mem_append_left _ hx

section Shape

variable {lay : Layout} {h : Heap} {fl live : List (ℕ × ℕ)}

/-- When some free block fits, `malloc`'s loop from `freep` takes the first block that does,
within one turn of the list. -/
theorem Shape.mallocLoop_of_fit (hs : Shape lay h fl live) {nu : UInt32} {avail fuel : ℕ}
    (hnu : 0 < nu.toNat) (hex : ∃ c ∈ fl, nu.toNat ≤ c.2) (hfuel : fl.length + 1 ≤ fuel) :
    ∃ h' fl' a, mallocLoop nu avail fuel h.freep (h.mem h.freep).ptr h = some (a.1 + HDR, h') ∧
      Shape lay h' fl' (live ++ [a]) ∧ a.2 = nu.toNat ∧ h'.sz = h.sz ∧
      cover HDR fl' ∪ span HDR a = cover HDR fl := by
  obtain ⟨R, f, hpath, -, hptr, hR, hmem, hlen⟩ := hs.walk
  -- the first block of the turn that fits
  obtain ⟨c, hc⟩ : ∃ c, (R ++ [f]).find? (fun c => decide (nu.toNat ≤ c.2)) = some c := by
    obtain ⟨c, hc, hcnu⟩ := hex
    exact Option.isSome_iff_exists.1
      (List.find?_isSome.2 ⟨c, (hmem c).2 (List.mem_cons_of_mem _ hc), by simpa using hcnu⟩)
  obtain ⟨hcfit, R₁, R₂, hRR, hR₁⟩ := List.find?_eq_some_iff_append.1 hc
  simp only [decide_eq_true_eq] at hcfit
  have hR₁R : ∀ x ∈ R₁, x ∈ R := fun x hx => mem_of_append_cons_eq hRR hx
  rw [hRR] at hpath hptr
  rw [path_append, first_append, first_cons] at hpath
  rw [first_append, first_cons] at hptr
  have hfit₁ : ∀ x ∈ R₁, x.2 < nu.toNat := fun x hx => by
    simpa using hR₁ x hx
  have hR₁len : R₁.length ≤ fl.length := by
    have := congrArg List.length hRR
    simp only [List.length_append, List.length_cons, List.length_nil] at this
    omega
  -- the block before `c`, where the walk stops
  have hprev : (h.mem (first R₁.reverse h.freep)).ptr = c.1 :=
    hpath.1.last fun hnil => by rwa [hnil, first_nil] at hptr
  have hprevC : first R₁.reverse h.freep ∈ lay.base :: fl.map Prod.fst := by
    rcases List.eq_nil_or_concat R₁ with hnil | ⟨L, l, hL⟩
    · rw [hnil]
      exact hs.freep
    · rw [hL, List.concat_eq_append, List.reverse_append, List.reverse_singleton,
        List.singleton_append, first_cons]
      have hl : l ∈ (lay.base, 0) :: fl :=
        (hmem l).1 (List.mem_append_left _ (hR₁R l (by simp [hL])))
      exact List.mem_map_of_mem (f := Prod.fst) hl
  have hcfl : c ∈ fl := by
    have hc' : c ∈ (lay.base, 0) :: fl := (hmem c).1 (by rw [hRR]; simp)
    rcases List.mem_cons.1 hc' with rfl | hc'
    · exact (Nat.lt_irrefl 0 (hnu.trans_le hcfit)).elim
    · exact hc'
  obtain ⟨X, Y, q, hcyc, hq⟩ := hs.pred hcfl hprevC hprev
  obtain ⟨h', fl', a, hloop, hs', ha, hsz, hcov⟩ := hs.alloc hcyc hnu hcfit
  refine ⟨h', fl', a, ?_, hs', ha, hsz, hcov⟩
  -- the walk over `R₁` then one step at `c`
  rw [hptr, show fuel = R₁.length + (fuel - R₁.length - 1 + 1) by omega,
    mallocLoop_walk hpath.1 hfit₁ (fun x hx => hR x (hR₁R x hx)), ← hq]
  exact hloop _ _

/-- `malloc`'s loop from `freep`, with fuel for two turns of the list: it returns a block of
`nu` units that the invariant then counts as live, in a heap grown at most to `avail`, or it
returns 0 because `sbrk` failed, and leaves the heap as it was. -/
theorem Shape.mallocLoop (hs : Shape lay h fl live) (hsz : h.sz.toNat < 2 ^ 31) {nu : UInt32}
    {avail fuel : ℕ} (hnu : 0 < nu.toNat) (hnu' : nu.toNat < 2 ^ 27) (havail : avail < 2 ^ 31)
    (hfuel : 2 * fl.length + 3 ≤ fuel) :
    (sbrk avail (Int32.ofNat ((if nu < 4096 then 4096 else nu).toNat * HDR)) h = (toPtr (-1), h) ∧
        Xv6.Umalloc.mallocLoop nu avail fuel h.freep (h.mem h.freep).ptr h = some (0, h)) ∨
      ∃ h' fl' a,
        Xv6.Umalloc.mallocLoop nu avail fuel h.freep (h.mem h.freep).ptr h = some (a.1 + HDR, h') ∧
        Shape lay h' fl' (live ++ [a]) ∧ a.2 = nu.toNat ∧ h.sz.toNat ≤ h'.sz.toNat ∧
        h'.sz.toNat ≤ max h.sz.toNat avail := by
  by_cases hex : ∃ c ∈ fl, nu.toNat ≤ c.2
  · -- a free block fits already
    obtain ⟨h', fl', a, hloop, hs', ha, hsz', -⟩ :=
      hs.mallocLoop_of_fit hnu hex (show fl.length + 1 ≤ fuel by omega)
    exact Or.inr ⟨h', fl', a, hloop, hs', ha, hsz' ▸ le_rfl, hsz' ▸ le_max_left _ _⟩
  -- a whole turn finds nothing, and at `freep` the loop calls `morecore`
  simp only [not_exists, not_and, not_le] at hex
  obtain ⟨R, f, hpath, hff, hptr, hR, hmem, hlen⟩ := hs.walk
  have hsmall : ∀ x ∈ R ++ [f], x.2 < nu.toNat := by
    intro x hx
    rcases List.mem_cons.1 ((hmem x).1 hx) with rfl | hx
    · exact hnu
    · exact hex x hx
  rw [path_append, first_append, first_cons] at hpath
  rw [first_append, first_cons] at hptr
  have hf : (h.mem f.1).size.toNat < nu.toNat := by
    have := hpath.2
    rw [path_cons] at this
    simp only [view, Prod.mk.injEq] at this
    rw [this.1.2]
    exact hsmall f (by simp)
  rw [hptr, show fuel = R.length + (fuel - R.length - 1 + 1) by omega,
    mallocLoop_walk hpath.1 (fun x hx => hsmall x (List.mem_append_left _ hx)) hR,
    mallocLoop_more hf hff]
  rcases hs.morecore hsz hnu' havail with ⟨hsbrk, hmore⟩ | ⟨h₁, fl₁, hmore, hs₁, hsz₁, hav₁, hlen₁, hex₁⟩
  · -- `sbrk` failed: `morecore` returns 0 and so does `malloc`
    left
    rw [hmore]
    exact ⟨hsbrk, rfl⟩
  · -- the new memory went through `free`, and the next turn finds a block that fits
    have hpos : h₁.freep ≠ 0 := hs₁.freep_pos.ne'
    obtain ⟨h', fl', a, hloop, hs', ha, hsz', -⟩ :=
      hs₁.mallocLoop_of_fit hnu hex₁ (show fl₁.length + 1 ≤ fuel - R.length - 1 by omega)
    right
    refine ⟨h', fl', a, ?_, hs', ha, by rw [hsz']; omega, ?_⟩
    · simp only [hmore, if_neg hpos]
      exact hloop
    · rw [hsz']
      exact le_max_of_le_right hav₁

/-- The first `malloc` makes `base` a free list of its own, of size 0. -/
theorem Shape.init (lay : Layout) {h : Heap} (hle : lay.heap0.toNat ≤ h.sz.toNat)
    (hal : HDR ∣ h.sz.toNat) :
    Shape lay
      { h with mem := setSize (setPtr h.mem lay.base lay.base) lay.base 0, freep := lay.base }
      [] [] where
  path := by simp [view]
  separated := List.pairwise_singleton _ _
  freep := List.mem_cons_self ..
  placed := by simp
  sizes := by simp
  live_disjoint := List.Pairwise.nil
  free_disjoint := by simp
  heap0_le := hle
  sz_aligned := hal

end Shape

/-! ### A program's calls -/

/-- `nunits` in `Nat`: `nbytes` is widened to `size_t`, and the quotient fits a `uint`. -/
theorem toNat_nunits (n : UInt32) : (nunits n).toNat = (n.toNat + HDR - 1) / HDR + 1 := by
  have := n.toNat_lt
  rw [nunits, UInt32.toNat_ofNat', Nat.mod_eq_of_lt]
  simp only [HDR]
  omega

/-- The calls this development covers: `malloc(n)` for `n` up to 2^31 - 32, so that
`nu * sizeof(Header)` is a positive `int` (`nu` below 2^27), with physical memory short of
2 GiB, so that the process size stays a positive `int`; and every `free`. -/
def Event.Small : Event → Prop
  | .malloc n avail => n.toNat ≤ 2 ^ 31 - 32 ∧ avail < 2 ^ 31
  | .free _ => True

instance : DecidablePred Event.Small := fun e => by
  cases e <;> unfold Event.Small <;> infer_instance

/-- The units of a covered request: at least one header, and below 2^27. -/
theorem Event.Small.nunits {n : UInt32} {avail : ℕ} (he : (Event.malloc n avail).Small) :
    0 < (nunits n).toNat ∧ (nunits n).toNat < 2 ^ 27 := by
  have hn : n.toNat ≤ 2 ^ 31 - 32 := he.1
  rw [toNat_nunits]
  simp only [HDR]
  omega

/-- What holds between a program's calls. -/
structure Sys.Inv (lay : Layout) (s : Sys) : Prop where
  /-- The process size stays a positive `int`, as `sbrk` returns it. -/
  sz_lt : s.heap.sz.toNat < 2 ^ 31
  /-- Before the first `malloc` the heap is as exec left it; after it the free list is in
  shape beside the program's live blocks. -/
  shape : (s.heap.freep = 0 ∧ s.live = [] ∧ s.heap.sz = lay.heap0) ∨
    ∃ fl, Shape lay s.heap fl s.live

/-- What `malloc(n)` promises a program in state `s`: it returns, 0 only when `sbrk` fails
for the memory `morecore` asks, and otherwise a 16-byte-aligned pointer to `n` bytes inside the
memory `sbrk` gave, apart from every free block and every live block. -/
def MallocSpec (lay : Layout) (s : Sys) (n : UInt32) (avail : ℕ) : Prop :=
  ∃ r h', malloc lay.base n avail s.heap = some (r, h') ∧
    (r = 0 → (sbrk avail (Int32.ofNat
      ((if nunits n < 4096 then 4096 else nunits n).toNat * HDR)) h').1 = toPtr (-1)) ∧
    (r ≠ 0 → HDR ∣ r ∧ lay.heap0.toNat < r ∧ r + n.toNat ≤ h'.sz.toNat ∧
      (∃ fl, Shape lay h' fl (s.live ++ [(r - HDR, (nunits n).toNat)]) ∧
        Disjoint (Set.Ico r (r + n.toNat)) (cover HDR fl)) ∧
      ∀ b ∈ s.live, Disjoint (Set.Ico r (r + n.toNat)) (span HDR b))

section Sys

variable {lay : Layout} {s : Sys}

theorem Sys.Inv.init (hheap0 : lay.heap0.toNat < 2 ^ 31) : (Sys.init lay).Inv lay :=
  ⟨hheap0, Or.inl ⟨rfl, rfl, rfl⟩⟩

/-- The heap `malloc`'s loop starts from: on the first call, `base` as a free list of its own. -/
theorem Sys.Inv.prepare (hinv : s.Inv lay) :
    ∃ h₀ fl, Shape lay h₀ fl s.live ∧ h₀.sz = s.heap.sz ∧ ∀ n avail,
      malloc lay.base n avail s.heap =
        mallocLoop (nunits n) avail (2 * fuel h₀) h₀.freep (h₀.mem h₀.freep).ptr h₀ := by
  rcases hinv.shape with ⟨h0, hl, hsz⟩ | ⟨fl, hs⟩
  · refine ⟨{ s.heap with mem := setSize (setPtr s.heap.mem lay.base lay.base) lay.base 0,
                          freep := lay.base }, [], ?_, rfl, fun n avail => by
      simp only [malloc, if_pos h0]⟩
    rw [hl]
    exact Shape.init lay (hsz ▸ le_rfl) (hsz ▸ lay.aligned)
  · refine ⟨s.heap, fl, hs, rfl, fun n avail => ?_⟩
    simp only [malloc, if_neg hs.freep_pos.ne']

/-- `malloc(n)` from a state in the invariant, for a covered request: it fails only with
`sbrk`, and then leaves a heap in shape, or returns a block of `nunits n` units that the
invariant counts as live. -/
theorem Sys.Inv.malloc (hinv : s.Inv lay) {n : UInt32} {avail : ℕ}
    (he : (Event.malloc n avail).Small) :
    ∃ h₀ fl₀, Shape lay h₀ fl₀ s.live ∧ h₀.sz = s.heap.sz ∧
      ((sbrk avail (Int32.ofNat ((if nunits n < 4096 then 4096 else nunits n).toNat * HDR)) h₀ =
          (toPtr (-1), h₀) ∧ Xv6.Umalloc.malloc lay.base n avail s.heap = some (0, h₀)) ∨
        ∃ h' fl' a, Xv6.Umalloc.malloc lay.base n avail s.heap = some (a.1 + HDR, h') ∧
          Shape lay h' fl' (s.live ++ [a]) ∧ a.2 = (nunits n).toNat ∧
          h'.sz.toNat ≤ max s.heap.sz.toNat avail) := by
  obtain ⟨h₀, fl, hs, hsz, hmal⟩ := hinv.prepare
  have hnu := he.nunits
  have hlen := hs.length_le
  have hfuel : 2 * fl.length + 3 ≤ 2 * fuel h₀ := by
    simp only [fuel]
    omega
  refine ⟨h₀, fl, hs, hsz, ?_⟩
  rw [hmal, ← hsz]
  rcases hs.mallocLoop (hsz ▸ hinv.sz_lt) hnu.1 hnu.2 he.2 hfuel with hfail | ⟨h', fl', a, hloop, hs', ha, -, hle⟩
  · exact Or.inl hfail
  · exact Or.inr ⟨h', fl', a, hloop, hs', ha, hle⟩

/-- The pointer `malloc` returns and the `n` bytes after it lie in the block it took. -/
theorem Ico_subset_span {n : UInt32} {a : ℕ × ℕ} (ha : a.2 = (nunits n).toNat) :
    Set.Ico (a.1 + HDR) (a.1 + HDR + n.toNat) ⊆ span HDR a := by
  rw [span, stop, ha, toNat_nunits]
  apply Set.Ico_subset_Ico <;> simp only [HDR] <;> omega

theorem Sys.Inv.mallocSpec (hinv : s.Inv lay) {n : UInt32} {avail : ℕ}
    (he : (Event.malloc n avail).Small) : MallocSpec lay s n avail := by
  obtain ⟨h₀, -, -, -, ⟨hsbrk, hmal⟩ | ⟨h', fl', a, hmal, hs', ha, -⟩⟩ := hinv.malloc he
  · exact ⟨0, h₀, hmal, fun _ => by rw [hsbrk], fun h0 => absurd rfl h0⟩
  -- the block `a` is live in the new shape, so the invariant places it
  have hpair : (a.1 + HDR - HDR, (nunits n).toNat) = a := Prod.ext (by simp) ha.symm
  have hmem : a ∈ s.live ++ [a] := List.mem_append_right _ (List.mem_singleton_self a)
  have hpl := hs'.placed_live hmem
  have hsub := Ico_subset_span (n := n) ha
  refine ⟨a.1 + HDR, h', hmal, fun h0 => absurd h0 (by simp [HDR]), fun _ => ⟨?_, ?_, ?_, ?_, ?_⟩⟩
  · exact Nat.dvd_add hpl.aligned (Nat.dvd_refl HDR)
  · have := hpl.lo
    simp only [HDR]
    omega
  · have hstop := hpl.hi
    have hsp : a.1 + HDR + n.toNat ≤ stop HDR a := by
      rw [stop, ha, toNat_nunits]
      simp only [HDR]
      omega
    omega
  · rw [hpair]
    exact ⟨fl', hs', (hs'.free_disjoint a hmem).mono_left hsub⟩
  · intro b hb
    have hab := (List.pairwise_append.1 hs'.live_disjoint).2.2 b hb a (List.mem_singleton_self a)
    exact hab.symm.mono_left hsub

/-- One covered call from a state in the invariant succeeds, into a state in the invariant. -/
theorem Sys.Inv.step (hinv : s.Inv lay) {e : Event} (he : e.Small) :
    ∃ s', Sys.step lay s e = some s' ∧ s'.Inv lay := by
  cases e with
  | malloc n avail =>
    obtain ⟨h₀, fl₀, hs₀, hsz₀, ⟨-, hmal⟩ | ⟨h', fl', a, hmal, hs', ha, hle⟩⟩ := hinv.malloc he
    · exact ⟨⟨h₀, s.live⟩, by simp [Sys.step, hmal], hsz₀ ▸ hinv.sz_lt, Or.inr ⟨fl₀, hs₀⟩⟩
    · have hsz : h'.sz.toNat < 2 ^ 31 := by
        have := he.2
        have := hinv.sz_lt
        omega
      refine ⟨⟨h', s.live ++ [a]⟩, ?_, hsz, Or.inr ⟨fl', hs'⟩⟩
      simp [Sys.step, hmal, HDR, ← ha]
  | free i =>
    cases hb : s.live[i]? with
    | none => exact ⟨s, by simp [Sys.step, hb], hinv⟩
    | some b =>
      obtain ⟨hi, hbi⟩ := List.getElem?_eq_some_iff.1 hb
      -- a live block exists, so `malloc` has run and the free list is in shape
      rcases hinv.shape with ⟨-, hl, -⟩ | ⟨fl, hs⟩
      · simp [hl] at hi
      have hsplit : s.live = s.live.take i ++ b :: s.live.drop (i + 1) := by
        rw [← hbi, ← List.drop_eq_getElem_cons, List.take_append_drop]
      obtain ⟨h', fl', hfree, hs', hsz, -⟩ := hs.free hsplit
      refine ⟨⟨h', s.live.eraseIdx i⟩, by simp [Sys.step, hb, hfree], hsz ▸ hinv.sz_lt,
        Or.inr ⟨fl', ?_⟩⟩
      rw [List.eraseIdx_eq_take_drop_succ]
      exact hs'

/-- Every run of covered calls from a state in the invariant succeeds and keeps it. -/
theorem Sys.Inv.run (hinv : s.Inv lay) {es : List Event} (hes : ∀ e ∈ es, e.Small) :
    ∃ s', Sys.run lay s es = some s' ∧ s'.Inv lay :=
  AtomicRun.foldlM_exists es (fun _ (t : Sys) => t.Inv lay)
    (fun _ _ hk ht => ht.step (hes _ (List.getElem_mem hk))) hinv

end Sys

/-- The umalloc program is sound: every run of covered `malloc` and `free` calls,
the latter on live blocks, from the heap exec leaves succeeds; its free list is a cycle through
`base` in address order, of disjoint, never adjacent blocks inside the heap (`Shape`); and a
covered `malloc` from there keeps its promise. -/
theorem umalloc_sound (lay : Layout) (hheap0 : lay.heap0.toNat < 2 ^ 31) {es : List Event}
    (hes : ∀ e ∈ es, e.Small) :
    ∃ s, Sys.run lay (Sys.init lay) es = some s ∧ s.Inv lay ∧
      ∀ n avail, (Event.malloc n avail).Small → MallocSpec lay s n avail := by
  obtain ⟨s, hrun, hinv⟩ := (Sys.Inv.init hheap0).run hes
  exact ⟨s, hrun, hinv, fun _ _ he => hinv.mallocSpec he⟩

/-- A program with its static `base` at 16 and its heap from 4096. -/
def Layout.onePage : Layout := ⟨16, 4096, by decide, by decide, by decide⟩

theorem umalloc_sound_onePage :
    ∃ s, Sys.run Layout.onePage (Sys.init Layout.onePage)
        [.malloc 100 (2 ^ 20), .malloc 5000 (2 ^ 20), .free 0, .malloc 20 (2 ^ 20)] = some s ∧
      s.Inv Layout.onePage ∧
      ∀ n avail, (Event.malloc n avail).Small → MallocSpec Layout.onePage s n avail :=
  umalloc_sound Layout.onePage (by decide) (by decide)

/-- `malloc(0xFFFFFFFF)` on a fresh heap: `nu * sizeof(Header)` is `(2^28 + 1) * 16`, which
sbrk's `int` argument truncates to 16, so the heap grows by one header, while the block
`morecore` frees and `malloc` returns is counted as 2^28 + 1 units; the pointer returned is the
new break itself. -/
theorem malloc_beyond_break :
    ((malloc Layout.onePage.base 0xFFFFFFFF (2 ^ 20) (Sys.init Layout.onePage).heap).map
        fun x => (x.1, x.2.sz.toNat)) = some (4112, 4112) ∧
      ¬ MallocSpec Layout.onePage (Sys.init Layout.onePage) 0xFFFFFFFF (2 ^ 20) := by
  have hrun : ((malloc Layout.onePage.base 0xFFFFFFFF (2 ^ 20) (Sys.init Layout.onePage).heap).map
      fun x => (x.1, x.2.sz.toNat)) = some (4112, 4112) := by
    decide
  refine ⟨hrun, ?_⟩
  rintro ⟨r, h', hmal, -, hok⟩
  rw [hmal] at hrun
  simp only [Option.map_some, Option.some.injEq, Prod.mk.injEq] at hrun
  obtain ⟨rfl, hsz⟩ := hrun
  have := (hok (by decide)).2.2.1
  rw [hsz] at this
  exact absurd this (by decide)

end Xv6.Umalloc
