import Mathlib
import Xv6.Lib.Ring
import Xv6.Lib.Owner
import Xv6.Lib.Run
import Xv6.Param

/-!
# The virtio disk driver (`kernel/virtio_disk.c`)

The driver and the device share `NUM` descriptors and two rings. A request takes three free
descriptors (`alloc3_desc`), chains them (header, data, status), and puts the head in the avail
ring; the device takes heads from the avail ring, does the transfer, writes the status byte the
chain points to, and puts the head in the used ring; `virtio_disk_intr` takes heads from the used
ring and clears `b->disk` of the buffer recorded for each; the request, woken, frees its chain
(`free_chain`). The counters of both rings are `uint16`s, and a ring position is a counter
modulo `NUM`.

Every part of the driver runs under `vdisk_lock`, and `sleep` lets it go: `Sys.step` runs one
section, and the device's moves are steps of their own. The device is modelled as the driver
assumes it: it takes each head once, completes the chains it holds in any order, and writes
status `0` through the chain.

* `window_push`, `window_pop`: the rings' contents between two `uint16` counters, through the
  wrap, since `NUM` divides `2 ^ 16`;
* `alloc3Desc_cases`, `alloc3Desc_fail`, `freeChain_formatted`: `alloc3_desc` gives back every
  descriptor it took when one is missing, and `free_chain` frees a formatted chain whole;
* `Inv`: the invariant of every run: descriptors held by the requests in flight are disjoint
  and are exactly those not free, each request's chain is formatted, and each request's head
  is in one of the avail ring, the device or the used ring exactly while `b->disk` is set;
* `Inv.step`, `run_inv`: every section and every move of the device keeps it, and none panics;
* `Inv.wait_ends`, `Inv.clears_busy`: a request returns only with `b->disk` clear, and only the
  interrupt at the used entry holding its head clears it;
* `virtio_descriptors`: all of these at every reachable state.
-/

namespace Xv6.Virtio

/-- `NUM`: the descriptors, and the entries of each ring (`kernel/virtio.h`). -/
def NUM : ℕ := 8

instance : NeZero NUM := ⟨by decide⟩

/-- `VRING_DESC_F_NEXT`: the descriptor is chained to `next`. -/
def VRING_DESC_F_NEXT : ℕ := 1

/-- `VRING_DESC_F_WRITE`: the device writes the buffer. -/
def VRING_DESC_F_WRITE : ℕ := 2

/-- `sizeof(struct virtio_blk_req)`: a `uint32` type, a `uint32` reserved and a `uint64` sector. -/
def REQ_SIZE : ℕ := 16

/-- Ring positions survive the wrap of the `uint16` counters. -/
theorem NUM_dvd : NUM ∣ 2 ^ 16 := ⟨8192, by decide⟩

/-- What a descriptor's `addr` points at: nothing, the request header `disk.ops[i]`, the data
of a buffer (named by the process whose request it is), or the status byte `disk.info[i].status`. -/
inductive Addr (ι : Type)
  | null
  | op (i : Fin NUM)
  | data (p : ι)
  | status (i : Fin NUM)
  deriving DecidableEq

/-- `struct virtq_desc`. -/
structure Desc (ι : Type) where
  addr : Addr ι
  len : ℕ
  flags : ℕ
  next : ℕ
  deriving DecidableEq

/-- A descriptor as `free_desc` leaves it. -/
def Desc.zero {ι : Type} : Desc ι := ⟨.null, 0, 0, 0⟩

/-- `struct virtq_avail`: the next entry the driver fills, and the chain heads. -/
structure Avail where
  idx : UInt16
  ring : Fin NUM → ℕ

/-- `struct virtq_used`: the next entry the device fills, and the `id`s of the entries. -/
structure Used where
  idx : UInt16
  ring : Fin NUM → ℕ

/-- `disk.info[i]` for the chain whose head is `i`: its buffer, named by the process whose request
it is (`none` for a null `b`), and the status byte. -/
structure Info (ι : Type) where
  b : Option ι
  status : ℕ

/-- `static struct disk`, without the pages behind the pointers and the request headers. -/
structure Disk (ι : Type) where
  desc : Fin NUM → Desc ι
  avail : Avail
  used : Used
  free : Fin NUM → Bool
  used_idx : UInt16
  info : Fin NUM → Info ι

/-! ### The rings' `uint16` counters -/

/-- The entries of `ring` from counter `lo` up to counter `hi`. -/
def window (ring : Fin NUM → ℕ) (lo hi : UInt16) : List ℕ :=
  Ring.contents NUM ring lo.toNat (hi - lo).toNat

@[simp] theorem length_window (ring : Fin NUM → ℕ) (lo hi : UInt16) :
    (window ring lo hi).length = (hi - lo).toNat :=
  Ring.length_contents ..

@[simp] theorem window_self (ring : Fin NUM → ℕ) (a : UInt16) : window ring a a = [] := by
  simp [window]

theorem hi_toNat (lo hi : UInt16) : hi.toNat = (lo.toNat + (hi - lo).toNat) % 2 ^ 16 := by
  have := hi.toNat_lt
  have := lo.toNat_lt
  rw [UInt16.toNat_sub]
  omega

/-- Filling the entry at `hi`, fewer than `NUM` past `lo`, appends; also across the wrap. -/
theorem window_push (ring : Fin NUM → ℕ) (lo hi : UInt16) (x : ℕ) (h : (hi - lo).toNat < NUM) :
    window (Function.update ring (Ring.cell NUM hi.toNat) x) lo (hi + 1) =
      window ring lo hi ++ [x] := by
  have hlen : (hi + 1 - lo).toNat = (hi - lo).toNat + 1 := by
    have := hi.toNat_lt
    have := lo.toNat_lt
    simp only [UInt16.toNat_sub, UInt16.toNat_add, UInt16.toNat_one, NUM] at h ⊢
    omega
  have hcell : Ring.cell NUM hi.toNat = Ring.cell NUM (lo.toNat + (hi - lo).toNat) := by
    rw [hi_toNat lo hi, Ring.cell_mod NUM_dvd]
  unfold window
  rw [hlen, hcell]
  exact Ring.contents_push ring _ _ x h

/-- Taking the entry at `lo`, when `hi` is elsewhere, pops the oldest. -/
theorem window_pop (ring : Fin NUM → ℕ) {lo hi : UInt16} (h : lo ≠ hi) :
    window ring lo hi = ring (Ring.cell NUM lo.toNat) :: window ring (lo + 1) hi := by
  have := hi.toNat_lt
  have := lo.toNat_lt
  have hne : lo.toNat ≠ hi.toNat := fun e => h (UInt16.toNat_inj.mp e)
  obtain ⟨c, hc⟩ : ∃ c, (hi - lo).toNat = c + 1 := ⟨(hi - lo).toNat - 1, by
    rw [UInt16.toNat_sub]
    omega⟩
  have hlen : (hi - (lo + 1)).toNat = c := by
    simp only [UInt16.toNat_sub, UInt16.toNat_add, UInt16.toNat_one] at hc ⊢
    omega
  have hlo : (lo + 1).toNat = (lo.toNat + 1) % 2 ^ 16 := by
    rw [UInt16.toNat_add, UInt16.toNat_one]
  unfold window
  rw [hc, Ring.contents_pop, hlen, hlo, Ring.contents_mod NUM_dvd]

theorem window_eq_nil_iff (ring : Fin NUM → ℕ) (lo hi : UInt16) :
    window ring lo hi = [] ↔ lo = hi := by
  have := hi.toNat_lt
  have := lo.toNat_lt
  rw [← List.length_eq_zero_iff, length_window, UInt16.toNat_sub, ← UInt16.toNat_inj]
  omega

namespace Disk

variable {ι : Type}

/-- `disk.desc[i]` for an `int` index; out of range, a cleared descriptor. -/
def descAt (d : Disk ι) (i : ℕ) : Desc ι := if h : i < NUM then d.desc ⟨i, h⟩ else Desc.zero

/-- `alloc_desc()`: the first free descriptor, marked in use; `none` for `-1`. -/
def allocDesc (d : Disk ι) : Option (Fin NUM × Disk ι) :=
  ((List.finRange NUM).find? fun i => d.free i).map fun i =>
    (i, { d with free := Function.update d.free i false })

/-- `free_desc(i)`: clear descriptor `i` and mark it free; `none` for `panic("free_desc 1")`
(`i ≥ NUM`) and `panic("free_desc 2")` (it was free). The `wakeup` is the scheduler's. -/
def freeDesc (d : Disk ι) (i : ℕ) : Option (Disk ι) :=
  if h : i < NUM then
    if d.free ⟨i, h⟩ then none
    else some { d with desc := Function.update d.desc ⟨i, h⟩ Desc.zero,
                       free := Function.update d.free ⟨i, h⟩ true }
  else none

/-- The descriptors in use: `free_desc` takes one away each time it does not panic, so
`free_chain` ends. -/
def busy (d : Disk ι) : ℕ := (Finset.univ.filter fun i => d.free i = false).card

theorem busy_freeDesc {d d' : Disk ι} {i : ℕ} (h : d.freeDesc i = some d') : d'.busy < d.busy := by
  unfold freeDesc at h
  split_ifs at h with hi hf
  cases h
  have hmem : (⟨i, hi⟩ : Fin NUM) ∈ Finset.univ.filter fun j => d.free j = false := by simpa using hf
  calc busy _ = ((Finset.univ.filter fun j => d.free j = false).erase ⟨i, hi⟩).card := by
        unfold busy
        congr 1
        ext j
        by_cases hj : j = ⟨i, hi⟩ <;> simp [hj, Function.update_apply]
    _ < busy d := Finset.card_erase_lt_of_mem hmem

/-- `free_chain(i)`: free the chain from `i`, reading each descriptor's `flags` and `next` before
it is freed. Every descriptor freed was in use, so the loop ends. -/
def freeChain (d : Disk ι) (i : ℕ) : Option (Disk ι) :=
  match h : d.freeDesc i with
  | none => none
  | some d' =>
    have : d'.busy < d.busy := busy_freeDesc h
    if (d.descAt i).flags &&& VRING_DESC_F_NEXT ≠ 0 then d'.freeChain (d.descAt i).next
    else some d'
termination_by d.busy

/-- `alloc3_desc(idx)`, its loop over `i = 0, 1, 2` written out: when `alloc_desc` has no
descriptor for `idx[i]`, the `idx[j]`, `j < i`, are freed and the call returns `-1` (`none`). -/
def alloc3Desc (d : Disk ι) : Option (Option (Fin NUM × Fin NUM × Fin NUM) × Disk ι) :=
  match d.allocDesc with
  | none => some (none, d)
  | some (i0, d) =>
    match d.allocDesc with
    | none => (d.freeDesc i0).map fun d => (none, d)
    | some (i1, d) =>
      match d.allocDesc with
      | none => ((d.freeDesc i0).bind fun d => d.freeDesc i1).map fun d => (none, d)
      | some (i2, d) => some (some (i0, i1, i2), d)

/-- `virtio_disk_rw` with the descriptors `idx = (i0, i1, i2)`: the request header in `i0`, the
buffer's data in `i1` (written by the device for a read), the status byte in `i2`; then
`info[i0]` records the buffer, and `i0` goes in the avail ring. -/
def submit (d : Disk ι) (p : ι) (write : Bool) (i0 i1 i2 : Fin NUM) : Disk ι :=
  { d with
    desc := Function.update (Function.update (Function.update d.desc
      i0 ⟨.op i0, REQ_SIZE, VRING_DESC_F_NEXT, i1⟩)
      i1 ⟨.data p, BSIZE, (if write then 0 else VRING_DESC_F_WRITE) ||| VRING_DESC_F_NEXT, i2⟩)
      i2 ⟨.status i0, 1, VRING_DESC_F_WRITE, 0⟩
    info := Function.update d.info i0 ⟨some p, 0xff⟩
    avail := ⟨d.avail.idx + 1, Function.update d.avail.ring (Ring.cell NUM d.avail.idx.toNat) i0⟩ }

/-! ### Descriptors -/

@[simp] theorem descAt_fin (d : Disk ι) (i : Fin NUM) : d.descAt i = d.desc i := by
  simp [descAt]

theorem allocDesc_some {d d' : Disk ι} {i : Fin NUM} (h : d.allocDesc = some (i, d')) :
    d.free i = true ∧ d' = { d with free := Function.update d.free i false } := by
  unfold allocDesc at h
  cases hf : (List.finRange NUM).find? fun i => d.free i with
  | none => simp [hf] at h
  | some j =>
    simp only [hf, Option.map_some, Option.some.injEq, Prod.mk.injEq] at h
    obtain ⟨rfl, rfl⟩ := h
    exact ⟨List.find?_some hf, rfl⟩

/-- `free_desc` of a descriptor in use does not panic. -/
theorem freeDesc_of_busy {d : Disk ι} {i : Fin NUM} (h : d.free i = false) :
    d.freeDesc i = some { d with desc := Function.update d.desc i Desc.zero,
                                 free := Function.update d.free i true } := by
  simp [freeDesc, h]

/-- `alloc3_desc` always returns: either three distinct descriptors that were free, now in use,
or `-1` with the free ones as they were; descriptors in use keep their contents either way. -/
theorem alloc3Desc_cases (d : Disk ι) :
    (∃ desc, d.alloc3Desc = some (none, { d with desc := desc }) ∧
      ∀ i, d.free i = false → desc i = d.desc i) ∨
    ∃ i0 i1 i2, d.alloc3Desc = some (some (i0, i1, i2),
        { d with free := Function.update (Function.update (Function.update d.free
          i0 false) i1 false) i2 false }) ∧
      d.free i0 = true ∧ d.free i1 = true ∧ d.free i2 = true ∧ i0 ≠ i1 ∧ i0 ≠ i2 ∧ i1 ≠ i2 := by
  unfold alloc3Desc
  rcases h0 : d.allocDesc with _ | ⟨i0, d1⟩
  · exact .inl ⟨d.desc, rfl, fun _ _ => rfl⟩
  obtain ⟨hf0, rfl⟩ := allocDesc_some h0
  dsimp only
  rcases h1 : Disk.allocDesc { d with free := Function.update d.free i0 false } with _ | ⟨i1, d2⟩
  · -- only `idx[0]` was taken: it goes back
    refine .inl ⟨Function.update d.desc i0 Desc.zero, ?_, ?_⟩
    · rw [freeDesc_of_busy (by simp)]
      simp [hf0]
    · intro i hi
      exact Function.update_of_ne (fun h => by simp [h, hf0] at hi) _ _
  obtain ⟨hf1, rfl⟩ := allocDesc_some h1
  have h01 : i0 ≠ i1 := by
    rintro rfl
    simp at hf1
  replace hf1 : d.free i1 = true := by simpa [Function.update_of_ne (Ne.symm h01)] using hf1
  dsimp only
  cases h2 : Disk.allocDesc
      { d with free := Function.update (Function.update d.free i0 false) i1 false } with
  | none =>
    -- `idx[0]` and `idx[1]` go back
    refine .inl ⟨Function.update (Function.update d.desc i0 Desc.zero) i1 Desc.zero, ?_, ?_⟩
    · rw [freeDesc_of_busy (by simp [h01]), Option.bind_some,
        freeDesc_of_busy (by simp [Ne.symm h01])]
      simp only [Option.map_some, Option.some.injEq, Prod.mk.injEq, Disk.mk.injEq, and_true,
        true_and]
      funext j
      by_cases hj0 : j = i0 <;> by_cases hj1 : j = i1 <;> simp_all
    · intro i hi
      have hi0 : i ≠ i0 := fun h => by simp [h, hf0] at hi
      have hi1 : i ≠ i1 := fun h => by simp [h, hf1] at hi
      simp [hi0, hi1]
  | some r =>
    obtain ⟨i2, d3⟩ := r
    obtain ⟨hf2, rfl⟩ := allocDesc_some h2
    simp only [Function.update_apply] at hf2
    split_ifs at hf2 with h21 h20
    exact .inr ⟨i0, i1, i2, rfl, hf0, hf1, hf2, h01, Ne.symm h20, Ne.symm h21⟩

/-- `alloc3_desc`'s failure path gives back every descriptor it took. -/
theorem alloc3Desc_fail {d d' : Disk ι} (h : d.alloc3Desc = some (none, d')) : d'.free = d.free := by
  rcases d.alloc3Desc_cases with ⟨ds, h', -⟩ | ⟨i0, i1, i2, h', -⟩ <;> rw [h'] at h
  · cases h
    rfl
  · cases h

theorem freeChain_eq {d d' : Disk ι} {i : ℕ} (h : d.freeDesc i = some d') :
    d.freeChain i = if (d.descAt i).flags &&& VRING_DESC_F_NEXT ≠ 0
      then d'.freeChain (d.descAt i).next else some d' := by
  rw [freeChain]
  split <;> simp_all

/-! ### Chains -/

/-- The chain `virtio_disk_rw` writes for process `p`'s request: the header `ops[i0]` in `i0`,
the buffer's data in `i1`, the status byte `info[i0].status` in `i2`, linked through `next`. -/
structure Formatted (desc : Fin NUM → Desc ι) (p : ι) (write : Bool) (i0 i1 i2 : Fin NUM) :
    Prop where
  ne01 : i0 ≠ i1
  ne02 : i0 ≠ i2
  ne12 : i1 ≠ i2
  desc0 : desc i0 = ⟨.op i0, REQ_SIZE, VRING_DESC_F_NEXT, i1⟩
  desc1 : desc i1 =
    ⟨.data p, BSIZE, (if write then 0 else VRING_DESC_F_WRITE) ||| VRING_DESC_F_NEXT, i2⟩
  desc2 : desc i2 = ⟨.status i0, 1, VRING_DESC_F_WRITE, 0⟩

variable {desc desc' : Fin NUM → Desc ι} {p : ι} {write : Bool} {i0 i1 i2 : Fin NUM}

/-- The chain runs `i0 → i1 → i2`, with `VRING_DESC_F_NEXT` on exactly the first two. -/
theorem Formatted.next_flags (h : Formatted desc p write i0 i1 i2) :
    (desc i0).next = i1 ∧ (desc i1).next = i2 ∧
      (desc i0).flags &&& VRING_DESC_F_NEXT ≠ 0 ∧ (desc i1).flags &&& VRING_DESC_F_NEXT ≠ 0 ∧
      (desc i2).flags &&& VRING_DESC_F_NEXT = 0 := by
  rw [h.desc0, h.desc1, h.desc2]
  cases write <;> simp [VRING_DESC_F_NEXT, VRING_DESC_F_WRITE]

/-- A chain lives in its own three descriptors. -/
theorem Formatted.congr (h : Formatted desc p write i0 i1 i2)
    (hd : ∀ j, j = i0 ∨ j = i1 ∨ j = i2 → desc' j = desc j) : Formatted desc' p write i0 i1 i2 where
  ne01 := h.ne01
  ne02 := h.ne02
  ne12 := h.ne12
  desc0 := (hd i0 (.inl rfl)).trans h.desc0
  desc1 := (hd i1 (.inr (.inl rfl))).trans h.desc1
  desc2 := (hd i2 (.inr (.inr rfl))).trans h.desc2

theorem submit_formatted (d : Disk ι) (h01 : i0 ≠ i1) (h02 : i0 ≠ i2) (h12 : i1 ≠ i2) :
    Formatted (d.submit p write i0 i1 i2).desc p write i0 i1 i2 where
  ne01 := h01
  ne02 := h02
  ne12 := h12
  desc0 := by simp [submit, Function.update_of_ne h01, Function.update_of_ne h02]
  desc1 := by simp [submit, Function.update_of_ne h12]
  desc2 := by simp [submit]

/-- `free_chain(idx[0])` on a formatted chain in use frees its three descriptors and stops. -/
theorem freeChain_formatted {d : Disk ι} (hf : Formatted d.desc p write i0 i1 i2)
    (h0 : d.free i0 = false) (h1 : d.free i1 = false) (h2 : d.free i2 = false) :
    d.freeChain i0 = some { d with
      desc := Function.update (Function.update (Function.update d.desc i0 Desc.zero) i1 Desc.zero)
        i2 Desc.zero,
      free := Function.update (Function.update (Function.update d.free i0 true) i1 true) i2 true } := by
  obtain ⟨n0, n1, f0, f1, f2⟩ := hf.next_flags
  rw [freeChain_eq (freeDesc_of_busy h0), descAt_fin, if_pos f0, n0]
  rw [freeChain_eq (freeDesc_of_busy (by simp [Function.update_of_ne hf.ne01.symm, h1])),
    descAt_fin]
  simp only [Function.update_of_ne hf.ne01.symm]
  rw [if_pos f1, n1]
  rw [freeChain_eq (freeDesc_of_busy (by simp [Function.update_of_ne hf.ne02.symm,
    Function.update_of_ne hf.ne12.symm, h2])), descAt_fin]
  simp only [Function.update_of_ne hf.ne02.symm, Function.update_of_ne hf.ne12.symm]
  rw [if_neg (not_not.mpr f2)]

@[simp] theorem submit_free (d : Disk ι) : (d.submit p write i0 i1 i2).free = d.free := rfl

@[simp] theorem submit_used (d : Disk ι) : (d.submit p write i0 i1 i2).used = d.used := rfl

@[simp] theorem submit_used_idx (d : Disk ι) :
    (d.submit p write i0 i1 i2).used_idx = d.used_idx := rfl

@[simp] theorem submit_info (d : Disk ι) :
    (d.submit p write i0 i1 i2).info = Function.update d.info i0 ⟨some p, 0xff⟩ := rfl

@[simp] theorem submit_avail (d : Disk ι) : (d.submit p write i0 i1 i2).avail =
    ⟨d.avail.idx + 1, Function.update d.avail.ring (Ring.cell NUM d.avail.idx.toNat) i0⟩ := rfl

theorem submit_desc_of_ne (d : Disk ι) {j : Fin NUM} (h0 : j ≠ i0) (h1 : j ≠ i1) (h2 : j ≠ i2) :
    (d.submit p write i0 i1 i2).desc j = d.desc j := by
  simp [submit, h0, h1, h2]

end Disk

/-- Where a process is in `virtio_disk_rw(b, write)`: not in it, asleep on `&disk.free[0]` for
descriptors, or asleep on `b` with the chain `i0, i1, i2` until `b->disk` is `0`. -/
inductive Pc
  | idle
  | alloc (write : Bool)
  | wait (write : Bool) (i0 i1 i2 : Fin NUM)
  deriving DecidableEq

namespace Pc

/-- The head of the chain a process waits on. -/
def head : Pc → Option (Fin NUM)
  | .wait _ i0 _ _ => some i0
  | _ => none

/-- The descriptors a process holds: its chain, while it waits on `b`. -/
def holds : Pc → Set (Fin NUM)
  | .wait _ i0 i1 i2 => {i0, i1, i2}
  | _ => ∅

@[simp] theorem head_wait (w : Bool) (i0 i1 i2 : Fin NUM) : (wait w i0 i1 i2).head = some i0 := rfl

@[simp] theorem head_idle : idle.head = none := rfl

@[simp] theorem head_alloc (w : Bool) : (alloc w).head = none := rfl

@[simp] theorem holds_wait (w : Bool) (i0 i1 i2 : Fin NUM) :
    (wait w i0 i1 i2).holds = {i0, i1, i2} := rfl

@[simp] theorem holds_idle : idle.holds = ∅ := rfl

@[simp] theorem holds_alloc (w : Bool) : (alloc w).holds = ∅ := rfl

theorem holds_eq_empty {pc : Pc} (h : pc.head = none) : pc.holds = ∅ := by
  cases pc <;> simp_all

theorem head_mem_holds {pc : Pc} {i : Fin NUM} (h : pc.head = some i) : i ∈ pc.holds := by
  cases pc <;> simp_all

theorem head_eq_some {pc : Pc} {i : Fin NUM} (h : pc.head = some i) :
    ∃ w i1 i2, pc = .wait w i i1 i2 := by
  cases pc with
  | wait w i0 i1 i2 => exact ⟨w, i1, i2, by simpa using h⟩
  | _ => simp at h

end Pc

/-- The device as the driver assumes it: the avail entries it has taken (`idx`), and the chain
heads it holds, not yet completed, in the order it took them. -/
structure Device where
  idx : UInt16
  chains : List ℕ

/-- The driver's `disk`, the device, where each process is, and `b->disk` of each process's
buffer. A buffer is locked by its caller, so requests in flight have distinct buffers: the
model names a request's buffer by its process. -/
structure Sys (ι : Type) where
  disk : Disk ι
  dev : Device
  pc : ι → Pc
  bufDisk : ι → Bool

/-- What runs next: a process entering `virtio_disk_rw`, a process asleep in it running again
(the loops around each `sleep` test their conditions again, so a wakeup that finds nothing
changed is harmless), the device taking the next avail entry or completing the `j`-th chain it
holds, or `virtio_disk_intr`. -/
inductive Event (ι : Type)
  | rw (p : ι) (write : Bool)
  | wake (p : ι)
  | fetch
  | complete (j : ℕ)
  | intr

namespace Sys

variable {ι : Type} [DecidableEq ι]

/-- After `virtio_disk_init`: every descriptor free, the rings and `info` zero, nobody in a call. -/
def init : Sys ι :=
  ⟨⟨fun _ => Desc.zero, ⟨0, fun _ => 0⟩, ⟨0, fun _ => 0⟩, fun _ => true, 0, fun _ => ⟨none, 0⟩⟩,
    ⟨0, []⟩, fun _ => .idle, fun _ => false⟩

/-- `virtio_disk_rw` from taking the lock, or from waking in `alloc3_desc`'s loop, to its next
`sleep`: with three descriptors the request is handed to the device, `b->disk = 1`, and the
process sleeps on `b`; without, it sleeps on `&disk.free[0]`. -/
def allocSection (s : Sys ι) (p : ι) (write : Bool) : Option (Sys ι) :=
  s.disk.alloc3Desc.map fun r =>
    match r.1 with
    | none => { s with disk := r.2, pc := Function.update s.pc p (.alloc write) }
    | some (i0, i1, i2) =>
      { s with disk := r.2.submit p write i0 i1 i2,
               pc := Function.update s.pc p (.wait write i0 i1 i2),
               bufDisk := Function.update s.bufDisk p true }

/-- `virtio_disk_rw` woken on `b`: asleep again while `b->disk` is set; otherwise
`info[idx[0]].b = 0`, `free_chain(idx[0])`, and the call returns. -/
def waitSection (s : Sys ι) (p : ι) (i0 : Fin NUM) : Option (Sys ι) :=
  if s.bufDisk p then some s
  else ({ s.disk with info := Function.update s.disk.info i0 { s.disk.info i0 with b := none } }
    |>.freeChain i0).map fun d => { s with disk := d, pc := Function.update s.pc p .idle }

/-- The device takes the head in the next avail entry, if the driver has filled one. -/
def fetch (s : Sys ι) : Sys ι :=
  if s.dev.idx = s.disk.avail.idx then s
  else { s with dev := ⟨s.dev.idx + 1,
    s.dev.chains ++ [s.disk.avail.ring (Ring.cell NUM s.dev.idx.toNat)]⟩ }

/-- The device completes the `j`-th chain it holds: it follows the chain to its third descriptor,
writes status `0` where that one points, and puts the head in the next used entry. A chain that
does not end at a status byte is one it cannot complete. -/
def complete (s : Sys ι) (j : ℕ) : Option (Sys ι) :=
  match s.dev.chains[j]? with
  | none => some s
  | some h =>
    match (s.disk.descAt (s.disk.descAt (s.disk.descAt h).next).next).addr with
    | .status i =>
      some { s with
        disk := { s.disk with
          info := Function.update s.disk.info i { s.disk.info i with status := 0 }
          used := ⟨s.disk.used.idx + 1,
            Function.update s.disk.used.ring (Ring.cell NUM s.disk.used.idx.toNat) h⟩ }
        dev := { s.dev with chains := s.dev.chains.eraseIdx j } }
    | _ => none

/-- One pass of `virtio_disk_intr`'s loop, on the used entry at `used_idx`: `panic` if its status
is not `0`; `none` as well for an `id` past `info` or a null `b`. -/
def intrPass (s : Sys ι) : Option (Sys ι) :=
  let id := s.disk.used.ring (Ring.cell NUM s.disk.used_idx.toNat)
  if h : id < NUM then
    if (s.disk.info ⟨id, h⟩).status ≠ 0 then none
    else match (s.disk.info ⟨id, h⟩).b with
      | none => none
      | some p => some { s with bufDisk := Function.update s.bufDisk p false,
                                disk := { s.disk with used_idx := s.disk.used_idx + 1 } }
  else none

/-- `k` passes of `virtio_disk_intr`'s loop. -/
def intrLoop : ℕ → Sys ι → Option (Sys ι)
  | 0, s => some s
  | k + 1, s => (intrPass s).bind (intrLoop k)

/-- `virtio_disk_intr()`: `while(disk.used_idx != disk.used->idx)`, one pass for each entry
between them, the `uint16` difference. -/
def intr (s : Sys ι) : Option (Sys ι) := intrLoop (s.disk.used.idx - s.disk.used_idx).toNat s

/-- One step: a section of the driver, or a move of the device. A process already in
`virtio_disk_rw` does not enter it again. -/
def step : Event ι → Sys ι → Option (Sys ι)
  | .rw p write, s =>
    match s.pc p with
    | .idle => s.allocSection p write
    | _ => some s
  | .wake p, s =>
    match s.pc p with
    | .idle => some s
    | .alloc write => s.allocSection p write
    | .wait _ i0 _ _ => s.waitSection p i0
  | .fetch, s => some s.fetch
  | .complete j, s => s.complete j
  | .intr, s => s.intr

/-- A run of the scheduler and the device; `none` once a step panics. -/
def run (s : Sys ι) (es : List (Event ι)) : Option (Sys ι) := es.foldlM (fun s e => step e s) s

end Sys

/-! ### The invariant -/

namespace Sys

variable {ι : Type}

/-- The heads in the avail ring that the device has not taken. -/
def unfetched (s : Sys ι) : List ℕ := window s.disk.avail.ring s.dev.idx s.disk.avail.idx

/-- The heads in the used ring that `virtio_disk_intr` has not handled. -/
def unprocessed (s : Sys ι) : List ℕ := window s.disk.used.ring s.disk.used_idx s.disk.used.idx

/-- Every head between its submission and its interrupt. -/
def queued (s : Sys ι) : List ℕ := s.unfetched ++ s.dev.chains ++ s.unprocessed

/-- The invariant of every run. The descriptors held by requests in flight are disjoint and are
exactly those not free; each request's chain is formatted, and `info` records its buffer at its
head and nowhere else; each head in flight is queued once, in the avail ring, at the device or in
the used ring, and `b->disk` is set exactly while it is; the used ring's heads have status `0`. -/
structure Inv (s : Sys ι) : Prop where
  held : Ownership.Held (fun p => (s.pc p).holds) s.disk.free
  formatted : ∀ p w i0 i1 i2, s.pc p = .wait w i0 i1 i2 → Disk.Formatted s.disk.desc p w i0 i1 i2
  info : ∀ i p, (s.disk.info i).b = some p ↔ (s.pc p).head = some i
  nodup : s.queued.Nodup
  queued : ∀ h ∈ s.queued, ∃ p i, (s.pc p).head = some i ∧ (i : ℕ) = h
  busy : ∀ p, s.bufDisk p = true ↔ ∃ i, (s.pc p).head = some i ∧ (i : ℕ) ∈ s.queued
  status : ∀ i : Fin NUM, (i : ℕ) ∈ s.unprocessed → (s.disk.info i).status = 0

@[simp] theorem queued_init : (init : Sys ι).queued = [] := by
  simp [queued, unfetched, unprocessed, init]

theorem Inv.init : (init : Sys ι).Inv where
  held := ⟨by simp [Sys.init], by simp [Sys.init]⟩
  formatted := by simp [Sys.init]
  info := by simp [Sys.init]
  nodup := by simp
  queued := by simp
  busy := by simp [Sys.init]
  status := by simp [Sys.init, unprocessed]

variable {s s' : Sys ι} {p q : ι} {i : Fin NUM}

theorem Inv.free_of_head (hs : s.Inv) (h : (s.pc p).head = some i) : s.disk.free i = false :=
  hs.held.not_free (Pc.head_mem_holds h)

/-- A free descriptor is no one's head. -/
theorem Inv.not_mem_queued (hs : s.Inv) (hi : s.disk.free i = true) : (i : ℕ) ∉ s.queued := by
  intro hq
  obtain ⟨p, j, hj, hji⟩ := hs.queued _ hq
  obtain rfl : j = i := Fin.ext hji
  rw [hs.free_of_head hj] at hi
  contradiction

theorem Inv.head_inj (hs : s.Inv) (hp : (s.pc p).head = some i) (hq : (s.pc q).head = some i) :
    p = q :=
  Option.some_injective _ (((hs.info i p).mpr hp).symm.trans ((hs.info i q).mpr hq))

/-- At most `NUM` heads are in flight: they are distinct descriptors. -/
theorem length_le_NUM {l : List ℕ} (hnd : l.Nodup) (hl : ∀ x ∈ l, x < NUM) : l.length ≤ NUM := by
  have := (List.subperm_of_subset hnd fun x hx => List.mem_range.mpr (hl x hx)).length_le
  rwa [List.length_range] at this

theorem Inv.lt_of_mem_queued (hs : s.Inv) {x : ℕ} (h : x ∈ s.queued) : x < NUM := by
  obtain ⟨p, j, -, rfl⟩ := hs.queued x h
  exact j.isLt

theorem Inv.free_of_chain (hs : s.Inv) {w : Bool} {j0 j1 j2 j : Fin NUM}
    (h : s.pc q = .wait w j0 j1 j2) (hj : j = j0 ∨ j = j1 ∨ j = j2) : s.disk.free j = false :=
  hs.held.not_free (by rw [h]; simpa using hj)

/-- With a descriptor free, fewer than `NUM` heads are in flight. -/
theorem Inv.length_queued_lt (hs : s.Inv) (hf : s.disk.free i = true) : s.queued.length < NUM := by
  have hnd : ((i : ℕ) :: s.queued).Nodup := List.nodup_cons.mpr ⟨hs.not_mem_queued hf, hs.nodup⟩
  have := length_le_NUM hnd fun x hx => by
    rcases List.mem_cons.mp hx with rfl | hx
    · exact i.isLt
    · exact hs.lt_of_mem_queued hx
  rw [List.length_cons] at this
  omega

/-- A move of the device that only moves heads along: the descriptors, the processes and the
buffers are as they were, and the same heads are in flight. -/
theorem Inv.requeue (hs : s.Inv) (hpc : s'.pc = s.pc) (hbuf : s'.bufDisk = s.bufDisk)
    (hfree : s'.disk.free = s.disk.free) (hdesc : s'.disk.desc = s.disk.desc)
    (hb : ∀ i, (s'.disk.info i).b = (s.disk.info i).b) (hperm : s'.queued.Perm s.queued)
    (hstatus : ∀ i : Fin NUM, (i : ℕ) ∈ s'.unprocessed → (s'.disk.info i).status = 0) :
    s'.Inv where
  held := by
    rw [hpc, hfree]
    exact hs.held
  formatted := by
    rw [hpc, hdesc]
    exact hs.formatted
  info := by
    intro i p
    rw [hb, hpc]
    exact hs.info i p
  nodup := hperm.nodup_iff.mpr hs.nodup
  queued := by
    intro h hh
    rw [hpc]
    exact hs.queued h (hperm.mem_iff.mp hh)
  busy := by
    intro p
    rw [hbuf, hpc, hs.busy p]
    simp only [hperm.mem_iff]
  status := hstatus

/-! ### Each section keeps the invariant -/

variable [DecidableEq ι]

/-- `allocSection` either finds no three descriptors, with the free ones as they were, or hands a
chain of three free ones to the device. -/
theorem allocSection_cases (s : Sys ι) (p : ι) (w : Bool) :
    (∃ ds : Fin NUM → Desc ι, s.allocSection p w =
        some { s with disk := { s.disk with desc := ds }, pc := Function.update s.pc p (.alloc w) } ∧
      ∀ i, s.disk.free i = false → ds i = s.disk.desc i) ∨
    ∃ i0 i1 i2, s.allocSection p w = some { s with
        disk := Disk.submit { s.disk with free := Function.update (Function.update
          (Function.update s.disk.free i0 false) i1 false) i2 false } p w i0 i1 i2,
        pc := Function.update s.pc p (.wait w i0 i1 i2),
        bufDisk := Function.update s.bufDisk p true } ∧
      s.disk.free i0 = true ∧ s.disk.free i1 = true ∧ s.disk.free i2 = true ∧
      i0 ≠ i1 ∧ i0 ≠ i2 ∧ i1 ≠ i2 := by
  rcases s.disk.alloc3Desc_cases with ⟨desc, h, hd⟩ | ⟨i0, i1, i2, h, hf⟩
  · exact .inl ⟨desc, by simp [allocSection, h], hd⟩
  · exact .inr ⟨i0, i1, i2, by simp [allocSection, h], hf⟩

/-- Without three descriptors, the process sleeps holding none. -/
theorem Inv.allocFail (hs : s.Inv) (hp : (s.pc p).head = none) {desc : Fin NUM → Desc ι}
    (hd : ∀ i, s.disk.free i = false → desc i = s.disk.desc i) (w : Bool) :
    Inv { s with disk := { s.disk with desc := desc }, pc := Function.update s.pc p (.alloc w) } := by
  have hhead : ∀ q, (Function.update s.pc p (.alloc w) q).head = (s.pc q).head := by
    intro q
    by_cases hq : q = p
    · subst hq
      simp [hp]
    · simp [hq]
  have hholds : ∀ q, (Function.update s.pc p (.alloc w) q).holds = (s.pc q).holds := by
    intro q
    by_cases hq : q = p
    · subst hq
      simp [Pc.holds_eq_empty hp]
    · simp [hq]
  constructor
  · exact hs.held.congr hholds fun _ => rfl
  · intro q w' j0 j1 j2 hq
    have hqp : q ≠ p := by
      rintro rfl
      simp at hq
    simp only [Function.update_of_ne hqp] at hq
    exact (hs.formatted q w' j0 j1 j2 hq).congr fun j hj => hd j (hs.free_of_chain hq hj)
  · intro i q
    simp only [hhead]
    exact hs.info i q
  · exact hs.nodup
  · intro h hh
    obtain ⟨q, i, hq, rfl⟩ := hs.queued h hh
    exact ⟨q, i, by simpa [hhead] using hq, rfl⟩
  · intro q
    simp only [hhead]
    exact hs.busy q
  · exact hs.status

/-- With three free descriptors, the request takes them, formats its chain, records its buffer
at the head, and puts the head in the avail ring. -/
theorem Inv.allocOk (hs : s.Inv) (hp : (s.pc p).head = none) {i0 i1 i2 : Fin NUM}
    (hf0 : s.disk.free i0 = true) (hf1 : s.disk.free i1 = true) (hf2 : s.disk.free i2 = true)
    (h01 : i0 ≠ i1) (h02 : i0 ≠ i2) (h12 : i1 ≠ i2) (w : Bool) :
    Inv { s with
        disk := Disk.submit { s.disk with free := Function.update (Function.update
          (Function.update s.disk.free i0 false) i1 false) i2 false } p w i0 i1 i2,
        pc := Function.update s.pc p (.wait w i0 i1 i2),
        bufDisk := Function.update s.bufDisk p true } := by
  -- the new head was free: it is no one's head and is not queued
  have hnq : (i0 : ℕ) ∉ s.queued := hs.not_mem_queued hf0
  have hother : ∀ q, (s.pc q).head ≠ some i0 := fun q h => by
    rw [hs.free_of_head h] at hf0
    contradiction
  have hqp : ∀ q j, (s.pc q).head = some j → q ≠ p := by
    rintro q j h rfl
    rw [hp] at h
    contradiction
  have hfree : ∀ j, j = i0 ∨ j = i1 ∨ j = i2 → s.disk.free j = true := by
    rintro j (rfl | rfl | rfl) <;> assumption
  have hne : ∀ j, s.disk.free j = false → j ≠ i0 ∧ j ≠ i1 ∧ j ≠ i2 := by
    intro j hj
    refine ⟨?_, ?_, ?_⟩ <;> rintro rfl <;> simp_all
  -- the avail ring gains the head
  have hperm : (Sys.queued { s with
      disk := Disk.submit { s.disk with free := Function.update (Function.update
        (Function.update s.disk.free i0 false) i1 false) i2 false } p w i0 i1 i2,
      pc := Function.update s.pc p (.wait w i0 i1 i2),
      bufDisk := Function.update s.bufDisk p true }).Perm ((i0 : ℕ) :: s.queued) := by
    have hlen := hs.length_queued_lt hf0
    simp only [Sys.queued, List.length_append, unfetched, length_window] at hlen
    simp only [Sys.queued, unfetched, Disk.submit_avail]
    rw [window_push _ _ _ _ (by omega)]
    simp only [List.append_assoc, List.singleton_append]
    exact List.perm_middle
  constructor
  · refine hs.held.take (p := p) (Pc.holds_eq_empty hp) ?_ ?_ ?_
    · intro a ha
      simp only [Function.update_self, Pc.holds_wait] at ha
      exact hfree a (by simpa using ha)
    · intro q hq
      simp [hq]
    · intro a
      by_cases h0 : a = i0 <;> by_cases h1 : a = i1 <;> by_cases h2 : a = i2 <;> simp_all
  · intro q w' j0 j1 j2 hq
    by_cases hqp' : q = p
    · subst hqp'
      simp only [Function.update_self, Pc.wait.injEq] at hq
      obtain ⟨rfl, rfl, rfl, rfl⟩ := hq
      exact Disk.submit_formatted _ h01 h02 h12
    · simp only [Function.update_of_ne hqp'] at hq
      refine (hs.formatted q w' j0 j1 j2 hq).congr fun j hj => ?_
      obtain ⟨n0, n1, n2⟩ := hne j (hs.free_of_chain hq hj)
      exact Disk.submit_desc_of_ne _ n0 n1 n2
  · intro i q
    by_cases hq : q = p
    · subst hq
      by_cases hi : i = i0
      · subst hi
        simp
      · simpa [hi, hp, Ne.symm hi] using hs.info i q
    · by_cases hi : i = i0
      · subst hi
        simp [hq, Ne.symm hq, hother q]
      · simpa [hi, hq] using hs.info i q
  · exact hperm.nodup_iff.mpr (List.nodup_cons.mpr ⟨hnq, hs.nodup⟩)
  · intro h hh
    rcases List.mem_cons.mp (hperm.mem_iff.mp hh) with rfl | hh
    · exact ⟨p, i0, by simp, rfl⟩
    · obtain ⟨q, j, hqj, rfl⟩ := hs.queued h hh
      exact ⟨q, j, by simpa [hqp q j hqj] using hqj, rfl⟩
  · intro q
    by_cases hq : q = p
    · subst hq
      simp [hperm.mem_iff]
    · simp only [Function.update_of_ne hq]
      rw [hs.busy q]
      constructor
      · rintro ⟨j, hj, hjq⟩
        exact ⟨j, hj, hperm.mem_iff.mpr (List.mem_cons_of_mem _ hjq)⟩
      · rintro ⟨j, hj, hjq⟩
        rcases List.mem_cons.mp (hperm.mem_iff.mp hjq) with h | h
        · exact absurd (Fin.ext h ▸ hj) (hother q)
        · exact ⟨j, hj, h⟩
  · intro i hi
    have hi0 : i ≠ i0 := by
      rintro rfl
      exact hnq (List.mem_append_right _ hi)
    simpa [hi0] using hs.status i hi

/-- Woken with `b->disk` clear, the request frees its whole chain and returns. -/
theorem waitSection_done (hs : s.Inv) {w : Bool} {i0 i1 i2 : Fin NUM}
    (hpc : s.pc p = .wait w i0 i1 i2) (hb : s.bufDisk p = false) :
    s.waitSection p i0 = some { s with
      disk := { s.disk with
        info := Function.update s.disk.info i0 { s.disk.info i0 with b := none },
        desc := Function.update (Function.update (Function.update s.disk.desc i0 Desc.zero)
          i1 Desc.zero) i2 Desc.zero,
        free := Function.update (Function.update (Function.update s.disk.free i0 true)
          i1 true) i2 true },
      pc := Function.update s.pc p .idle } := by
  have hf := hs.formatted p w i0 i1 i2 hpc
  rw [waitSection, if_neg (by simp [hb]), Disk.freeChain_formatted
    (d := { s.disk with info := Function.update s.disk.info i0 { s.disk.info i0 with b := none } })
    hf (hs.free_of_chain hpc (.inl rfl)) (hs.free_of_chain hpc (.inr (.inl rfl)))
    (hs.free_of_chain hpc (.inr (.inr rfl)))]
  rfl

theorem Inv.waitDone (hs : s.Inv) {w : Bool} {i0 i1 i2 : Fin NUM}
    (hpc : s.pc p = .wait w i0 i1 i2) (hb : s.bufDisk p = false) :
    Inv { s with
      disk := { s.disk with
        info := Function.update s.disk.info i0 { s.disk.info i0 with b := none },
        desc := Function.update (Function.update (Function.update s.disk.desc i0 Desc.zero)
          i1 Desc.zero) i2 Desc.zero,
        free := Function.update (Function.update (Function.update s.disk.free i0 true)
          i1 true) i2 true },
      pc := Function.update s.pc p .idle } := by
  have hhead : (s.pc p).head = some i0 := by simp [hpc]
  -- `b->disk` is clear, so the head has left the rings and the device
  have hnq : (i0 : ℕ) ∉ s.queued := fun h => by
    have := (hs.busy p).mpr ⟨i0, hhead, h⟩
    rw [hb] at this
    contradiction
  have hqp : ∀ q j, (s.pc q).head = some j → (j : ℕ) ∈ s.queued → q ≠ p := by
    rintro q j hj hjq rfl
    rw [hhead, Option.some.injEq] at hj
    exact hnq (hj ▸ hjq)
  constructor
  · refine hs.held.release (p := p) (by simp) (fun q hq => by simp [hq]) fun a => ?_
    rw [hpc, Pc.holds_wait]
    by_cases h0 : a = i0 <;> by_cases h1 : a = i1 <;> by_cases h2 : a = i2 <;> simp_all
  · intro q w' j0 j1 j2 hq
    have hqp' : q ≠ p := by
      rintro rfl
      simp at hq
    simp only [Function.update_of_ne hqp'] at hq
    refine (hs.formatted q w' j0 j1 j2 hq).congr fun j hj => ?_
    -- the chains of two requests are disjoint
    have hjq : j ∈ (s.pc q).holds := by rw [hq]; simpa using hj
    have hjp : ∀ k, k = i0 ∨ k = i1 ∨ k = i2 → j ≠ k := by
      rintro k hk rfl
      exact hqp' (hs.held.disjoint q p j hjq (by rw [hpc]; simpa using hk))
    simp [hjp i0 (.inl rfl), hjp i1 (.inr (.inl rfl)), hjp i2 (.inr (.inr rfl))]
  · intro i q
    by_cases hi : i = i0
    · subst hi
      by_cases hq : q = p
      · subst hq
        simp
      · have : (s.pc q).head ≠ some i := fun h => hq (hs.head_inj h hhead)
        simp [hq, this]
    · by_cases hq : q = p
      · subst hq
        simpa [hi, hhead, Ne.symm hi] using hs.info i q
      · simpa [hi, hq] using hs.info i q
  · exact hs.nodup
  · intro h hh
    obtain ⟨q, j, hqj, rfl⟩ := hs.queued h hh
    exact ⟨q, j, by simpa [hqp q j hqj hh] using hqj, rfl⟩
  · intro q
    by_cases hq : q = p
    · subst hq
      simp [hb]
    · simp only [Function.update_of_ne hq]
      exact hs.busy q
  · intro i hi
    by_cases hi0 : i = i0
    · subst hi0
      simpa using hs.status i hi
    · simpa [hi0] using hs.status i hi

omit [DecidableEq ι] in
/-- The device taking the oldest avail head moves it to the chains it holds. -/
theorem Inv.fetch (hs : s.Inv) : s.fetch.Inv := by
  unfold Sys.fetch
  split_ifs with h
  · exact hs
  · refine hs.requeue rfl rfl rfl rfl (fun _ => rfl) ?_ hs.status
    simp only [Sys.queued, unfetched, unprocessed]
    rw [window_pop _ h, List.perm_iff_count]
    intro a
    simp only [List.count_append, List.count_cons, List.count_nil]
    omega

omit [DecidableEq ι] in
/-- The device completing a chain it holds writes status `0` through it and puts its head in the
used ring. -/
theorem Inv.complete (hs : s.Inv) (j : ℕ) : ∃ s', s.complete j = some s' ∧ s'.Inv := by
  unfold Sys.complete
  cases hj : s.dev.chains[j]? with
  | none => exact ⟨s, rfl, hs⟩
  | some h =>
    have hmem : h ∈ s.dev.chains := List.mem_of_getElem? hj
    obtain ⟨q, i0, hq, rfl⟩ := hs.queued h (by simp [Sys.queued, hmem])
    obtain ⟨w, i1, i2, hpc⟩ := Pc.head_eq_some hq
    -- the chain leads to the status byte of `info[i0]`
    have hf := hs.formatted q w i0 i1 i2 hpc
    have hchain : (s.disk.descAt (s.disk.descAt (s.disk.descAt i0).next).next).addr =
        .status i0 := by
      simp [hf.desc0, hf.desc1, hf.desc2]
    simp only [hchain]
    refine ⟨_, rfl, ?_⟩
    -- fewer than `NUM` heads wait in the used ring, `i0` being at the device
    obtain ⟨hjl, hjh⟩ := List.getElem?_eq_some_iff.mp hj
    have hlen : (s.disk.used.idx - s.disk.used_idx).toNat < NUM := by
      have := length_le_NUM hs.nodup fun x hx => hs.lt_of_mem_queued hx
      have hc := List.length_pos_of_mem hmem
      simp only [Sys.queued, List.length_append, unprocessed, length_window] at this
      omega
    have hunp : window (Function.update s.disk.used.ring (Ring.cell NUM s.disk.used.idx.toNat) i0)
        s.disk.used_idx (s.disk.used.idx + 1) = s.unprocessed ++ [(i0 : ℕ)] :=
      window_push _ _ _ _ hlen
    refine hs.requeue rfl rfl rfl rfl (fun i => ?_) ?_ ?_
    · by_cases hi : i = i0
      · subst hi
        simp
      · simp [hi]
    · simp only [Sys.queued, unprocessed, unfetched] at hunp ⊢
      rw [hunp]
      -- the chains held are `i0` and the rest
      have hperm : s.dev.chains.Perm ((i0 : ℕ) :: s.dev.chains.eraseIdx j) :=
        (List.perm_cons_erase hmem).trans (.cons _ (hjh ▸ List.erase_getElem hjl))
      rw [List.perm_iff_count]
      intro a
      simp only [List.count_append, hperm.count_eq a, List.count_cons, List.count_nil]
      omega
    · intro i hi
      simp only [unprocessed] at hi
      rw [hunp, List.mem_append, List.mem_singleton] at hi
      by_cases hi0 : i = i0
      · subst hi0
        simp
      · rcases hi with hi | hi
        · simpa [hi0] using hs.status i hi
        · exact absurd (Fin.ext hi) hi0

/-- A pass of the interrupt handler takes the oldest used head, which is a request's head with
status `0`, and clears that request's `b->disk`. -/
theorem Inv.intrPass (hs : s.Inv) (hne : s.disk.used_idx ≠ s.disk.used.idx) :
    ∃ q, s.intrPass = some { s with
        bufDisk := Function.update s.bufDisk q false,
        disk := { s.disk with used_idx := s.disk.used_idx + 1 } } ∧
      Inv { s with
        bufDisk := Function.update s.bufDisk q false,
        disk := { s.disk with used_idx := s.disk.used_idx + 1 } } := by
  have hpop := window_pop s.disk.used.ring hne
  have hmem : s.disk.used.ring (Ring.cell NUM s.disk.used_idx.toNat) ∈ s.queued := by
    simp [Sys.queued, unprocessed, hpop]
  obtain ⟨q, i0, hq, hid⟩ := hs.queued _ hmem
  have hst : (s.disk.info i0).status = 0 := hs.status i0 (by simp [unprocessed, hpop, hid])
  have hb : (s.disk.info i0).b = some q := (hs.info i0 q).mpr hq
  refine ⟨q, ?_, ?_⟩
  · simp only [Sys.intrPass, ← hid, i0.isLt, dif_pos, Fin.eta, hst, hb]
    rfl
  -- the head leaves the used ring, and it was queued once
  have hsplit : s.queued = s.unfetched ++ s.dev.chains ++
      (i0 : ℕ) :: window s.disk.used.ring (s.disk.used_idx + 1) s.disk.used.idx := by
    rw [Sys.queued, unprocessed, hpop, hid]
  have hnd := hs.nodup
  rw [hsplit, List.nodup_middle, List.nodup_cons] at hnd
  have hsub : ∀ x, x ∈ s.unfetched ++ s.dev.chains ++
      window s.disk.used.ring (s.disk.used_idx + 1) s.disk.used.idx → x ∈ s.queued := by
    intro x hx
    rw [hsplit]
    simp only [List.mem_append, List.mem_cons] at hx ⊢
    tauto
  constructor
  · exact hs.held
  · exact hs.formatted
  · exact hs.info
  · exact hnd.2
  · intro h hh
    exact hs.queued h (hsub h hh)
  · intro r
    by_cases hr : r = q
    · subst hr
      simp only [Function.update_self, Bool.false_eq_true, false_iff, not_exists, not_and]
      intro j hj hjq
      rw [hq, Option.some.injEq] at hj
      exact hnd.1 (hj ▸ hjq)
    · simp only [Function.update_of_ne hr]
      rw [hs.busy r]
      constructor
      · rintro ⟨j, hj, hjq⟩
        refine ⟨j, hj, ?_⟩
        rw [hsplit, List.mem_append, List.mem_cons] at hjq
        rcases hjq with hjq | hji | hjq
        · exact List.mem_append_left _ hjq
        · obtain rfl : j = i0 := Fin.ext hji
          exact absurd (hs.head_inj hj hq) hr
        · exact List.mem_append_right _ hjq
      · rintro ⟨j, hj, hjq⟩
        exact ⟨j, hj, hsub _ hjq⟩
  · intro i hi
    exact hs.status i (by rw [unprocessed, hpop]; exact List.mem_cons_of_mem _ hi)

/-- `k` passes of the interrupt handler, with at least `k` used heads waiting. -/
theorem Inv.intrLoop (k : ℕ) : ∀ {s : Sys ι}, s.Inv → k ≤ s.unprocessed.length →
    ∃ bd ui, s.intrLoop k = some { s with bufDisk := bd, disk := { s.disk with used_idx := ui } } ∧
      Inv { s with bufDisk := bd, disk := { s.disk with used_idx := ui } } := by
  induction k with
  | zero =>
    intro s hs _
    exact ⟨s.bufDisk, s.disk.used_idx, rfl, hs⟩
  | succ k ih =>
    intro s hs hk
    have hne : s.disk.used_idx ≠ s.disk.used.idx := by
      intro h
      simp [unprocessed, h] at hk
    obtain ⟨q, hpass, hs'⟩ := hs.intrPass hne
    have hlen : k ≤ (Sys.unprocessed { s with
        bufDisk := Function.update s.bufDisk q false,
        disk := { s.disk with used_idx := s.disk.used_idx + 1 } }).length := by
      have := congrArg List.length (window_pop s.disk.used.ring hne)
      simp only [unprocessed, List.length_cons] at hk this ⊢
      omega
    obtain ⟨bd, ui, hloop, hinv⟩ := ih hs' hlen
    exact ⟨bd, ui, by rw [Sys.intrLoop, hpass, Option.bind_some, hloop], hinv⟩

/-- `virtio_disk_intr` handles every used head. -/
theorem Inv.intr (hs : s.Inv) :
    ∃ bd ui, s.intr = some { s with bufDisk := bd, disk := { s.disk with used_idx := ui } } ∧
      Inv { s with bufDisk := bd, disk := { s.disk with used_idx := ui } } :=
  hs.intrLoop _ (by simp [unprocessed])

theorem Inv.allocSection (hs : s.Inv) (hp : (s.pc p).head = none) (w : Bool) :
    ∃ s', s.allocSection p w = some s' ∧ s'.Inv := by
  rcases allocSection_cases s p w with ⟨ds, h, hd⟩ | ⟨i0, i1, i2, h, hf0, hf1, hf2, h01, h02, h12⟩
  · exact ⟨_, h, hs.allocFail hp hd w⟩
  · exact ⟨_, h, hs.allocOk hp hf0 hf1 hf2 h01 h02 h12 w⟩

theorem Inv.waitSection (hs : s.Inv) {w : Bool} {i0 i1 i2 : Fin NUM}
    (hpc : s.pc p = .wait w i0 i1 i2) : ∃ s', s.waitSection p i0 = some s' ∧ s'.Inv := by
  cases hb : s.bufDisk p
  · exact ⟨_, waitSection_done hs hpc hb, hs.waitDone hpc hb⟩
  · exact ⟨s, by simp [Sys.waitSection, hb], hs⟩

/-- From a state of the invariant every step succeeds, into a state of the invariant: nothing
panics, `free_desc` and `virtio_disk_intr` included. -/
theorem Inv.step (hs : s.Inv) : ∀ e : Event ι, ∃ s', step e s = some s' ∧ s'.Inv
  | .rw p w => by
    simp only [Sys.step]
    split
    · next hpc => exact hs.allocSection (by simp [hpc]) w
    · exact ⟨s, rfl, hs⟩
  | .wake p => by
    simp only [Sys.step]
    split
    · exact ⟨s, rfl, hs⟩
    · next w hpc => exact hs.allocSection (by simp [hpc]) w
    · next hpc => exact hs.waitSection hpc
  | .fetch => ⟨_, rfl, hs.fetch⟩
  | .complete j => hs.complete j
  | .intr => by
    obtain ⟨bd, ui, h, h'⟩ := hs.intr
    exact ⟨_, h, h'⟩

theorem run_inv {es : List (Event ι)} (h : init.run es = some s) : s.Inv :=
  AtomicRun.foldlM_induction es (fun _ s => Inv s) (fun _ t e t' ht hst => by
    obtain ⟨u, hu, hinv⟩ := ht.step e
    rw [hu] at hst
    cases hst
    exact hinv) Inv.init h

/-! ### What a step does to the processes -/

omit [DecidableEq ι] in
theorem fetch_frame (s : Sys ι) : s.fetch.pc = s.pc ∧ s.fetch.bufDisk = s.bufDisk := by
  unfold Sys.fetch
  split_ifs <;> exact ⟨rfl, rfl⟩

omit [DecidableEq ι] in
theorem complete_frame {j : ℕ} (h : s.complete j = some s') :
    s'.pc = s.pc ∧ s'.bufDisk = s.bufDisk := by
  unfold Sys.complete at h
  split at h
  · cases h
    exact ⟨rfl, rfl⟩
  · split at h
    · cases h
      exact ⟨rfl, rfl⟩
    · cases h

/-- Entering or retrying `virtio_disk_rw` changes only the caller, and at most sets its `b->disk`. -/
theorem allocSection_frame {w : Bool} (h : s.allocSection q w = some s') :
    (∀ p, p ≠ q → s'.pc p = s.pc p) ∧ ∀ p, s'.bufDisk p = s.bufDisk p ∨ s'.bufDisk p = true := by
  rcases allocSection_cases s q w with ⟨ds, h', -⟩ | ⟨i0, i1, i2, h', -⟩ <;> rw [h'] at h <;>
    cases h
  · exact ⟨fun p hp => by simp [hp], fun p => .inl rfl⟩
  · refine ⟨fun p hp => by simp [hp], fun p => ?_⟩
    by_cases hp : p = q
    · subst hp
      simp
    · simp [hp]

/-- Woken on `b`, the caller sleeps again or returns, and returns only with `b->disk` clear. -/
theorem waitSection_frame {i0 : Fin NUM} (h : s.waitSection q i0 = some s') :
    s'.bufDisk = s.bufDisk ∧ (∀ p, p ≠ q → s'.pc p = s.pc p) ∧
      (s'.pc q ≠ s.pc q → s.bufDisk q = false ∧ s'.pc q = .idle) := by
  unfold Sys.waitSection at h
  split_ifs at h with hb
  · cases h
    exact ⟨rfl, fun _ _ => rfl, fun h => absurd rfl h⟩
  · obtain ⟨d, -, rfl⟩ := Option.map_eq_some_iff.mp h
    exact ⟨rfl, fun p hp => by simp [hp], fun _ => ⟨by simpa using hb, by simp⟩⟩

/-- A request stops waiting on `b` only by returning, and only once `b->disk` is clear. -/
theorem Inv.wait_ends (hs : s.Inv) {e : Event ι} (h : Sys.step e s = some s') {w : Bool}
    {i0 i1 i2 : Fin NUM} (hpc : s.pc p = .wait w i0 i1 i2) (hne : s'.pc p ≠ s.pc p) :
    s.bufDisk p = false ∧ s'.pc p = .idle := by
  cases e with
  | rw q w' =>
    simp only [Sys.step] at h
    split at h
    · next hq =>
      have hqp : p ≠ q := by
        rintro rfl
        rw [hpc] at hq
        cases hq
      exact absurd ((allocSection_frame h).1 p hqp) hne
    · cases h
      exact absurd rfl hne
  | wake q =>
    simp only [Sys.step] at h
    split at h
    · cases h
      exact absurd rfl hne
    · next w' hq =>
      have hqp : p ≠ q := by
        rintro rfl
        rw [hpc] at hq
        cases hq
      exact absurd ((allocSection_frame h).1 p hqp) hne
    · by_cases hqp : p = q
      · subst hqp
        exact (waitSection_frame h).2.2 hne
      · exact absurd ((waitSection_frame h).2.1 p hqp) hne
  | fetch =>
    cases h
    exact absurd (congrFun (fetch_frame s).1 p) hne
  | complete j => exact absurd (congrFun (complete_frame h).1 p) hne
  | intr =>
    obtain ⟨bd, ui, h', -⟩ := hs.intr
    simp only [Sys.step, h', Option.some.injEq] at h
    subst h
    exact absurd rfl hne

/-- Only the interrupt handler clears `b->disk`, at a used entry holding the request's head. -/
theorem Inv.clears_busy (hs : s.Inv) {e : Event ι} (h : Sys.step e s = some s')
    (hb : s.bufDisk p = true) (hb' : s'.bufDisk p = false) :
    e = .intr ∧ ∃ i, (s.pc p).head = some i ∧ (i : ℕ) ∈ s.unprocessed := by
  have halloc : ∀ q w, s.allocSection q w ≠ some s' := by
    intro q w ha
    rcases (allocSection_frame ha).2 p with e | e <;> simp_all
  cases e with
  | rw q w =>
    simp only [Sys.step] at h
    split at h
    · exact absurd h (halloc q w)
    · cases h
      simp_all
  | wake q =>
    simp only [Sys.step] at h
    split at h
    · cases h
      simp_all
    · exact absurd h (halloc q _)
    · rw [(waitSection_frame h).1] at hb'
      simp_all
  | fetch =>
    cases h
    rw [(fetch_frame s).2] at hb'
    simp_all
  | complete j =>
    rw [(complete_frame h).2] at hb'
    simp_all
  | intr =>
    refine ⟨rfl, ?_⟩
    obtain ⟨bd, ui, h', hs'⟩ := hs.intr
    simp only [Sys.step, h', Option.some.injEq] at h
    subst h
    obtain ⟨i, hi, hiq⟩ := (hs.busy p).mp hb
    refine ⟨i, hi, ?_⟩
    -- the head is no longer queued, and the avail ring and the device are as they were
    have hnq : (i : ℕ) ∉ Sys.queued { s with bufDisk := bd, disk := { s.disk with used_idx := ui } } :=
      fun hq => by
        have := (hs'.busy p).mpr ⟨i, hi, hq⟩
        rw [hb'] at this
        contradiction
    simp only [Sys.queued, unfetched, unprocessed, List.mem_append] at hiq hnq ⊢
    tauto

/-! ### Descriptor ownership over every run -/

/-- Over every run of any number of processes and the device: (a) the chains of the requests
in flight are disjoint, and a descriptor is free exactly when no request holds it; (b) each
chain is formatted as `virtio_disk_rw` wrote it; (c) `alloc3_desc` gives back what it took when
it fails, and no step panics, `free_desc` included; (d) `b->disk` is set exactly while the
request's head is in the avail ring, at the device or in the used ring; a request returns only
with `b->disk` clear, and only the interrupt at a used entry holding its head clears it. -/
theorem virtio_descriptors {es : List (Event ι)} (h : init.run es = some s) :
    (∀ p q i, i ∈ (s.pc p).holds → i ∈ (s.pc q).holds → p = q) ∧
    (∀ i, s.disk.free i = true ↔ ∀ p, i ∉ (s.pc p).holds) ∧
    (∀ p w i0 i1 i2, s.pc p = .wait w i0 i1 i2 → Disk.Formatted s.disk.desc p w i0 i1 i2) ∧
    (∀ d', s.disk.alloc3Desc = some (none, d') → d'.free = s.disk.free) ∧
    (∀ e, ∃ s', step e s = some s') ∧
    (∀ p, s.bufDisk p = true ↔ ∃ i, (s.pc p).head = some i ∧ (i : ℕ) ∈ s.queued) ∧
    (∀ e s' p w i0 i1 i2, step e s = some s' → s.pc p = .wait w i0 i1 i2 →
      s'.pc p ≠ s.pc p → s.bufDisk p = false ∧ s'.pc p = .idle) ∧
    (∀ e s' p, step e s = some s' → s.bufDisk p = true → s'.bufDisk p = false →
      e = .intr ∧ ∃ i, (s.pc p).head = some i ∧ (i : ℕ) ∈ s.unprocessed) := by
  have hs := run_inv h
  refine ⟨hs.held.disjoint, hs.held.free_iff, hs.formatted, fun _ => Disk.alloc3Desc_fail,
    fun e => ?_, hs.busy, fun e s' p w i0 i1 i2 he hpc hne => hs.wait_ends he hpc hne,
    fun e s' p he hb hb' => hs.clears_busy he hb hb'⟩
  obtain ⟨s', he, -⟩ := hs.step e
  exact ⟨s', he⟩

/-- One read request, taken by the device, completed, and its interrupt handled. -/
def oneRead : List (Event (Fin 1)) := [.rw 0 false, .fetch, .complete 0, .intr]

theorem oneRead_run : ((init : Sys (Fin 1)).run oneRead).isSome = true := by decide

theorem virtio_descriptors_oneRead : ∃ s : Sys (Fin 1), init.run oneRead = some s ∧
    (∀ p q i, i ∈ (s.pc p).holds → i ∈ (s.pc q).holds → p = q) ∧
    (∀ i, s.disk.free i = true ↔ ∀ p, i ∉ (s.pc p).holds) ∧
    (∀ p w i0 i1 i2, s.pc p = .wait w i0 i1 i2 → Disk.Formatted s.disk.desc p w i0 i1 i2) ∧
    (∀ d', s.disk.alloc3Desc = some (none, d') → d'.free = s.disk.free) ∧
    (∀ e, ∃ s', step e s = some s') ∧
    (∀ p, s.bufDisk p = true ↔ ∃ i, (s.pc p).head = some i ∧ (i : ℕ) ∈ s.queued) ∧
    (∀ e s' p w i0 i1 i2, step e s = some s' → s.pc p = .wait w i0 i1 i2 →
      s'.pc p ≠ s.pc p → s.bufDisk p = false ∧ s'.pc p = .idle) ∧
    (∀ e s' p, step e s = some s' → s.bufDisk p = true → s'.bufDisk p = false →
      e = .intr ∧ ∃ i, (s.pc p).head = some i ∧ (i : ℕ) ∈ s.unprocessed) := by
  obtain ⟨s, hs⟩ := Option.isSome_iff_exists.mp oneRead_run
  exact ⟨s, hs, virtio_descriptors hs⟩

end Sys

end Xv6.Virtio
