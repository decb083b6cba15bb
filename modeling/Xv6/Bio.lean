import Mathlib
import Xv6.Lib.Cycle
import Xv6.Param

/-!
# The buffer cache (`kernel/bio.c`)

`bcache` holds `NBUF` buffers on a circular doubly linked list through `bcache.head`, most
recently released first. A pointer of the list is a `BufPtr`: `some b` for the buffer `b`,
`none` for `&bcache.head`. The list is modelled as the code keeps it, by the `next` and
`prev` fields of the buffers and of the head, and the code's loops walk those fields.

`BioSys` adds ghost state: the list the fields should describe (`lru`), how many `bget`
results each buffer has outstanding (`held`), how many `bpin`s (`pins`), and whether `bget`
has ever returned it (`used`). `BioSys.step` is one call of `bget`, `bread`, `brelse`,
`bpin`, `bunpin`, or a holder writing the buffer's data; a caller releases, pins, unpins or
writes only a buffer it holds.

* `Bcache.bget_cases`: on a well-linked cache, `bget`'s two loops find the first buffer of the
  list holding the block, or else the last unreferenced one (`LinkedCycle.walk_next`);
* `BioSys.Inv`: the fields are exactly the links of the cycle `head, lru…`, which holds every
  buffer once; `refcnt = held + pins`; buffers returned by `bget` carry distinct
  `(dev, blockno)`; `Inv.step` and `Inv.run`: every call keeps it;
* `Inv.keeps_step`: no call but a write changes the block or the valid data of a buffer with
  `refcnt > 0`, and `Inv.keeps_run_pinned` carries that over runs that do not unpin it;
* `binit_run_invariant`: all of this from `binit`, over every sequence of calls.
-/

namespace Xv6

variable {α : Type*}

/-- A pointer of the LRU list: a buffer, or `none` for `&bcache.head`. -/
abbrev BufPtr := Option (Fin NBUF)

/-- A buffer (`struct buf`), without its sleep-lock and its `disk` flag. -/
structure Buf (α : Type*) where
  valid : Bool
  dev : ℕ
  blockno : ℕ
  refcnt : ℕ
  data : α

/-- The buffer cache (`bcache`): the buffers, and the `next` and `prev` fields of the
buffers and of the head. -/
structure Bcache (α : Type*) where
  buf : Fin NBUF → Buf α
  next : BufPtr → BufPtr
  prev : BufPtr → BufPtr

namespace Bcache

/-- Replace buffer `b`. -/
def setBuf (c : Bcache α) (b : Fin NBUF) (x : Buf α) : Bcache α :=
  { c with buf := Function.update c.buf b x }

@[simp] theorem setBuf_next (c : Bcache α) (b : Fin NBUF) (x : Buf α) : (c.setBuf b x).next = c.next :=
  rfl

@[simp] theorem setBuf_prev (c : Bcache α) (b : Fin NBUF) (x : Buf α) : (c.setBuf b x).prev = c.prev :=
  rfl

@[simp] theorem setBuf_buf (c : Bcache α) (b : Fin NBUF) (x : Buf α) :
    (c.setBuf b x).buf = Function.update c.buf b x := rfl

/-- Link `b` in right after the head (`binit`'s loop body, and the end of `brelse`):
`b->next = head.next; b->prev = &head; head.next->prev = b; head.next = b`. -/
def linkFront (c : Bcache α) (b : Fin NBUF) : Bcache α :=
  let c := { c with next := Function.update c.next (some b) (c.next none) }
  let c := { c with prev := Function.update c.prev (some b) none }
  let c := { c with prev := Function.update c.prev (c.next none) (some b) }
  { c with next := Function.update c.next none (some b) }

/-- Take `b` out of the list (the start of `brelse`'s relinking):
`b->next->prev = b->prev; b->prev->next = b->next`. -/
def unlink (c : Bcache α) (b : Fin NBUF) : Bcache α :=
  let c := { c with prev := Function.update c.prev (c.next (some b)) (c.prev (some b)) }
  { c with next := Function.update c.next (c.prev (some b)) (c.next (some b)) }

/-- `binit`: the head points to itself, then each buffer, in order, is linked in after the
head. The pointers the cache held before do not matter. -/
def binit (c : Bcache α) : Bcache α :=
  (List.finRange NBUF).foldl linkFront
    { c with next := Function.update c.next none none, prev := Function.update c.prev none none }

/-- Buffer `b` holds block `blockno` of device `dev`: the test of `bget`'s first loop. -/
def holds (c : Bcache α) (dev blockno : ℕ) (b : Fin NBUF) : Bool :=
  (c.buf b).dev == dev && (c.buf b).blockno == blockno

/-- Buffer `b` is not referenced: the test of `bget`'s second loop. -/
def free (c : Bcache α) (b : Fin NBUF) : Bool :=
  (c.buf b).refcnt == 0

/-- `bget`'s first loop: from `head.next` along `next`, a buffer caching `(dev, blockno)`. -/
def findCached (c : Bcache α) (dev blockno : ℕ) : Option BufPtr :=
  LinkedCycle.walk c.next (c.holds dev blockno) (NBUF + 1) (c.next none)

/-- `bget`'s second loop: from `head.prev` along `prev`, a buffer with `refcnt == 0`. -/
def findFree (c : Bcache α) : Option BufPtr :=
  LinkedCycle.walk c.prev c.free (NBUF + 1) (c.prev none)

/-- `bget`: the cache and the buffer returned; `none` for the panic "bget: no buffers" (or a
walk that does not come back to the head within `NBUF + 1` buffers). -/
def bget (c : Bcache α) (dev blockno : ℕ) : Option (Bcache α × Fin NBUF) :=
  match c.findCached dev blockno with
  | some (some b) => some (c.setBuf b { c.buf b with refcnt := (c.buf b).refcnt + 1 }, b)
  | some none =>
    match c.findFree with
    | some (some b) =>
      some (c.setBuf b { c.buf b with dev := dev, blockno := blockno, valid := false, refcnt := 1 }, b)
    | _ => none
  | none => none

/-- `bread`: `bget`, then a read from the disk if the buffer is not valid. `disk dev blockno`
is what `virtio_disk_rw` reads. -/
def bread (c : Bcache α) (disk : ℕ → ℕ → α) (dev blockno : ℕ) : Option (Bcache α × Fin NBUF) :=
  (c.bget dev blockno).map fun r =>
    if (r.1.buf r.2).valid then r
    else (r.1.setBuf r.2 { r.1.buf r.2 with data := disk dev blockno, valid := true }, r.2)

/-- `brelse`: drop a reference; the last one moves the buffer to the head of the list. -/
def brelse (c : Bcache α) (b : Fin NBUF) : Bcache α :=
  let c := c.setBuf b { c.buf b with refcnt := (c.buf b).refcnt - 1 }
  if (c.buf b).refcnt = 0 then (c.unlink b).linkFront b else c

/-- `bpin`. -/
def bpin (c : Bcache α) (b : Fin NBUF) : Bcache α :=
  c.setBuf b { c.buf b with refcnt := (c.buf b).refcnt + 1 }

/-- `bunpin`. -/
def bunpin (c : Bcache α) (b : Fin NBUF) : Bcache α :=
  c.setBuf b { c.buf b with refcnt := (c.buf b).refcnt - 1 }

/-! ### The fields each operation writes -/

section Fields

variable (c : Bcache α) (b : Fin NBUF)

@[simp] theorem linkFront_buf : (c.linkFront b).buf = c.buf := rfl

theorem linkFront_next :
    (c.linkFront b).next =
      Function.update (Function.update c.next (some b) (c.next none)) none (some b) := rfl

theorem linkFront_prev :
    (c.linkFront b).prev =
      Function.update (Function.update c.prev (some b) none) (c.next none) (some b) := by
  -- the third assignment reads `head.next`, which the first one did not change
  have : Function.update c.next (some b) (c.next none) none = c.next none :=
    Function.update_of_ne (Option.some_ne_none b).symm _ _
  simp only [linkFront, this]

@[simp] theorem unlink_buf : (c.unlink b).buf = c.buf := rfl

theorem unlink_prev :
    (c.unlink b).prev = Function.update c.prev (c.next (some b)) (c.prev (some b)) := rfl

theorem unlink_next :
    (c.unlink b).next = Function.update c.next (c.prev (some b)) (c.next (some b)) := by
  -- the second assignment reads `b->prev`, which the first one left as it was, even if
  -- `b->next` is `b` itself
  have : Function.update c.prev (c.next (some b)) (c.prev (some b)) (some b) = c.prev (some b) := by
    by_cases h : some b = c.next (some b)
    · rw [← h, Function.update_self]
    · rw [Function.update_of_ne h]
  simp only [unlink, this]

theorem brelse_of_pos (h : (c.buf b).refcnt - 1 ≠ 0) :
    c.brelse b = c.setBuf b { c.buf b with refcnt := (c.buf b).refcnt - 1 } := by
  simp [brelse, h]

theorem brelse_of_zero (h : (c.buf b).refcnt - 1 = 0) :
    c.brelse b = ((c.setBuf b { c.buf b with refcnt := (c.buf b).refcnt - 1 }).unlink b).linkFront b := by
  simp [brelse, h]

@[simp] theorem brelse_buf :
    (c.brelse b).buf = Function.update c.buf b { c.buf b with refcnt := (c.buf b).refcnt - 1 } := by
  by_cases h : (c.buf b).refcnt - 1 = 0
  · rw [brelse_of_zero c b h]
    rfl
  · rw [brelse_of_pos c b h]
    rfl

/-- The block a buffer is assigned to. -/
def ident (c : Bcache α) (b : Fin NBUF) : ℕ × ℕ :=
  ((c.buf b).dev, (c.buf b).blockno)

@[simp] theorem holds_eq_true {dev blockno : ℕ} {b : Fin NBUF} :
    c.holds dev blockno b = true ↔ c.ident b = (dev, blockno) := by
  simp [holds, ident]

@[simp] theorem free_eq_true {b : Fin NBUF} : c.free b = true ↔ (c.buf b).refcnt = 0 := by
  simp [free]

theorem ident_setBuf (x : Buf α) :
    (c.setBuf b x).ident = Function.update c.ident b (x.dev, x.blockno) := by
  funext y
  by_cases hy : y = b
  · subst hy
    simp [ident]
  · simp [ident, Function.update_of_ne hy]

/-- Writing a buffer without changing its identity does not change the first loop's test. -/
theorem holds_setBuf {x : Buf α} (hdev : x.dev = (c.buf b).dev) (hblk : x.blockno = (c.buf b).blockno) :
    (c.setBuf b x).holds = c.holds := by
  funext dev blockno b'
  by_cases hb : b' = b
  · subst hb
    simp [holds, hdev, hblk]
  · simp [holds, Function.update_of_ne hb]

@[simp] theorem foldl_linkFront_buf (l : List (Fin NBUF)) : (l.foldl linkFront c).buf = c.buf := by
  induction l generalizing c with
  | nil => rfl
  | cons a l ih => exact ih _

@[simp] theorem binit_buf : (binit c).buf = c.buf :=
  foldl_linkFront_buf _ _

end Fields

/-! ### The links as a cycle -/

/-- The fields of `c` at the head and at the buffers of `m` are the links of the cycle
`head, m…`; the other buffers' fields are arbitrary. -/
def LinksOn (c : Bcache α) (m : List (Fin NBUF)) : Prop :=
  ∀ x : BufPtr, (∀ a, x = some a → a ∈ m) →
    c.next x = LinkedCycle.next m x ∧ c.prev x = LinkedCycle.prev m x

/-- Once the cycle holds every buffer, the fields are its links everywhere. -/
theorem LinksOn.eq {c : Bcache α} {m : List (Fin NBUF)} (h : c.LinksOn m) (hm : ∀ b, b ∈ m) :
    c.next = LinkedCycle.next m ∧ c.prev = LinkedCycle.prev m :=
  ⟨funext fun x => (h x fun a _ => hm a).1, funext fun x => (h x fun a _ => hm a).2⟩

/-- `linkFront` pushes a buffer not yet on the cycle at its front. -/
theorem LinksOn.linkFront {c : Bcache α} {m : List (Fin NBUF)} {b : Fin NBUF} (h : c.LinksOn m)
    (hbm : (b :: m).Nodup) : (c.linkFront b).LinksOn (b :: m) := by
  have hnone := (h none (by simp)).1
  rw [LinkedCycle.next_none] at hnone
  intro x hx
  rw [linkFront_next, linkFront_prev, hnone, LinkedCycle.next_cons, LinkedCycle.prev_cons hbm]
  by_cases hxb : x = some b
  · subst hxb
    have hne : some b ≠ m.head? := fun he => (List.nodup_cons.1 hbm).1 (List.mem_of_head? he.symm)
    simp [Function.update_of_ne hne]
  · -- away from `b`, both sides apply the same updates to fields that agree on the cycle
    have hxm : ∀ a, x = some a → a ∈ m := fun a ha =>
      (List.mem_cons.1 (hx a ha)).resolve_left (by rintro rfl; exact hxb ha)
    obtain ⟨hn, hp⟩ := h x hxm
    constructor
    · simp only [Function.update_apply, hn]
    · simp only [Function.update_apply, hp]

/-- `unlink` takes a buffer out of the cycle. -/
theorem LinksOn.unlink {c : Bcache α} {l₁ l₂ : List (Fin NBUF)} {b : Fin NBUF}
    (hn : c.next = LinkedCycle.next (l₁ ++ b :: l₂)) (hp : c.prev = LinkedCycle.prev (l₁ ++ b :: l₂))
    (h : (l₁ ++ b :: l₂).Nodup) : (c.unlink b).LinksOn (l₁ ++ l₂) := by
  intro x hx
  -- `b` is not on the shorter cycle
  have hxb : x ≠ some b := by
    rintro rfl
    have hb := hx b rfl
    rw [List.nodup_middle] at h
    exact (List.nodup_cons.1 h).1 hb
  rw [unlink_next, unlink_prev, hn, hp, LinkedCycle.next_self h, LinkedCycle.prev_self h]
  exact ⟨(LinkedCycle.next_remove h hxb).symm, (LinkedCycle.prev_remove h hxb).symm⟩

/-- `linkFront` over a list of buffers pushes them at the front one after the other. -/
theorem LinksOn.foldl_linkFront {c : Bcache α} {m : List (Fin NBUF)} (l : List (Fin NBUF))
    (h : c.LinksOn m) (hl : (l.reverse ++ m).Nodup) :
    (l.foldl Bcache.linkFront c).LinksOn (l.reverse ++ m) := by
  induction l generalizing c m with
  | nil => simpa using h
  | cons a l ih =>
    have hr : (a :: l).reverse ++ m = l.reverse ++ a :: m := by simp
    rw [hr] at hl ⊢
    rw [List.foldl_cons]
    exact ih (h.linkFront (List.nodup_append.1 hl).2.1) hl

/-- After `binit` the list holds every buffer, the last one first. -/
theorem binit_linksOn (c : Bcache α) :
    (binit c).LinksOn (List.finRange NBUF).reverse := by
  have h₀ : Bcache.LinksOn
      { c with next := Function.update c.next none none, prev := Function.update c.prev none none } [] := by
    intro x hx
    cases x with
    | none => simp [LinkedCycle.prev_none]
    | some a => exact absurd (hx a rfl) List.not_mem_nil
  have := LinksOn.foldl_linkFront (List.finRange NBUF) h₀ (by simpa using List.nodup_finRange NBUF)
  rw [List.append_nil] at this
  exact this

/-! ### The two loops of `bget` -/

section Loops

variable {c : Bcache α} {l : List (Fin NBUF)}

theorem length_lt_of_nodup (hl : l.Nodup) : l.length < NBUF + 1 := by
  have := hl.length_le_card
  rw [Fintype.card_fin] at this
  omega

/-- The first loop finds the first buffer of the list that holds the block. -/
theorem findCached_eq (hn : c.next = LinkedCycle.next l) (hl : l.Nodup) (dev blockno : ℕ) :
    c.findCached dev blockno = some (l.find? (c.holds dev blockno)) := by
  rw [findCached, hn]
  exact LinkedCycle.walk_next hl _ (length_lt_of_nodup hl)

/-- The second loop finds the last unreferenced buffer of the list. -/
theorem findFree_eq (hp : c.prev = LinkedCycle.prev l) (hl : l.Nodup) :
    c.findFree = some (l.reverse.find? c.free) := by
  rw [findFree, hp]
  exact LinkedCycle.walk_prev hl _ (length_lt_of_nodup hl)

/-- What `bget` does on a well-linked cache: it returns the first buffer holding the block,
with one more reference; or, if none holds it, the last unreferenced buffer, reassigned. -/
theorem bget_cases (hn : c.next = LinkedCycle.next l) (hp : c.prev = LinkedCycle.prev l)
    (hl : l.Nodup) {dev blockno : ℕ} {c' : Bcache α} {b : Fin NBUF}
    (h : c.bget dev blockno = some (c', b)) :
    (l.find? (c.holds dev blockno) = some b ∧
        c' = c.setBuf b { c.buf b with refcnt := (c.buf b).refcnt + 1 }) ∨
      (l.find? (c.holds dev blockno) = none ∧ l.reverse.find? c.free = some b ∧
        c' = c.setBuf b { c.buf b with dev := dev, blockno := blockno, valid := false, refcnt := 1 }) := by
  rw [bget, findCached_eq hn hl] at h
  cases hf : l.find? (c.holds dev blockno) with
  | some b' =>
    rw [hf] at h
    cases h
    exact .inl ⟨rfl, rfl⟩
  | none =>
    rw [hf, findFree_eq hp hl] at h
    cases hr : l.reverse.find? c.free with
    | none => simp [hr] at h
    | some b' =>
      rw [hr] at h
      cases h
      exact .inr ⟨rfl, rfl, rfl⟩

/-- `bread` is `bget` followed, on an invalid buffer, by a read that changes only its data and
valid flag. -/
theorem bread_cases {disk : ℕ → ℕ → α} {dev blockno : ℕ} {c' : Bcache α} {b : Fin NBUF}
    (h : c.bread disk dev blockno = some (c', b)) :
    ∃ c₁, c.bget dev blockno = some (c₁, b) ∧
      ∃ x : Buf α, x.dev = (c₁.buf b).dev ∧ x.blockno = (c₁.buf b).blockno ∧
        x.refcnt = (c₁.buf b).refcnt ∧ ((c₁.buf b).valid → x = c₁.buf b) ∧ c' = c₁.setBuf b x := by
  rw [bread] at h
  obtain ⟨⟨c₁, b₁⟩, hget, hr⟩ := Option.map_eq_some_iff.1 h
  by_cases hv : (c₁.buf b₁).valid
  · simp only [hv, if_true, Prod.mk.injEq] at hr
    obtain ⟨rfl, rfl⟩ := hr
    refine ⟨c₁, hget, c₁.buf b₁, rfl, rfl, rfl, fun _ => rfl, ?_⟩
    simp [setBuf]
  · simp only [hv, Bool.false_eq_true, if_false, Prod.mk.injEq] at hr
    obtain ⟨rfl, rfl⟩ := hr
    exact ⟨c₁, hget, { c₁.buf b₁ with data := disk dev blockno, valid := true }, rfl, rfl, rfl,
      fun h => absurd h hv, rfl⟩

end Loops

end Bcache

/-- `y` still caches what `x` cached: the same block and, if `x` was valid, the same data. -/
structure Buf.Keeps (x y : Buf α) : Prop where
  dev_eq : y.dev = x.dev
  blockno_eq : y.blockno = x.blockno
  data_eq : x.valid = true → y.valid = true ∧ y.data = x.data

theorem Buf.Keeps.refl (x : Buf α) : x.Keeps x :=
  ⟨rfl, rfl, fun h => ⟨h, rfl⟩⟩

theorem Buf.Keeps.trans {x y z : Buf α} (h₁ : x.Keeps y) (h₂ : y.Keeps z) : x.Keeps z := by
  refine ⟨h₂.dev_eq.trans h₁.dev_eq, h₂.blockno_eq.trans h₁.blockno_eq, fun hx => ?_⟩
  obtain ⟨hy, hyd⟩ := h₁.data_eq hx
  obtain ⟨hz, hzd⟩ := h₂.data_eq hy
  exact ⟨hz, hzd.trans hyd⟩

/-- Writing buffer `b₀` keeps what buffer `b` caches, if the write to `b₀` does. -/
theorem Buf.keeps_update {f : Fin NBUF → Buf α} {b b₀ : Fin NBUF} {x : Buf α}
    (h : b = b₀ → (f b₀).Keeps x) : (f b).Keeps (Function.update f b₀ x b) := by
  by_cases hb : b = b₀
  · subst hb
    simpa using h rfl
  · rw [Function.update_of_ne hb]
    exact Buf.Keeps.refl _

/-! ## The cache with its ghost state -/

/-- The buffer cache with the ghost state its invariant is stated over. -/
structure BioSys (α : Type*) where
  cache : Bcache α
  /-- The buffers in the order `head.next` reaches them. -/
  lru : List (Fin NBUF)
  /-- Results of `bget` not yet passed to `brelse`. -/
  held : Fin NBUF → ℕ
  /-- Calls of `bpin` not yet undone by `bunpin`. -/
  pins : Fin NBUF → ℕ
  /-- Whether `bget` has ever returned the buffer. -/
  used : Fin NBUF → Bool

/-- A call into the buffer cache, or the holder of a buffer writing its data. `bread` reads
`disk dev blockno` if the buffer is not valid. -/
inductive BioCall (α : Type*)
  | bget (dev blockno : ℕ)
  | bread (disk : ℕ → ℕ → α) (dev blockno : ℕ)
  | brelse (b : Fin NBUF)
  | bpin (b : Fin NBUF)
  | bunpin (b : Fin NBUF)
  | write (b : Fin NBUF) (data : α)

namespace BioSys

variable {s s' : BioSys α}

/-- The state after `bget` or `bread` left the cache `r.1` and returned the buffer `r.2`. -/
def got (s : BioSys α) (r : Bcache α × Fin NBUF) : BioSys α :=
  { s with
    cache := r.1
    held := Function.update s.held r.2 (s.held r.2 + 1)
    used := Function.update s.used r.2 true }

/-- One call; `none` if `bget` panics, or if the caller passes a buffer it does not hold (or
`bunpin`s one that is not pinned). -/
def step (s : BioSys α) : BioCall α → Option (BioSys α)
  | .bget dev blockno => (s.cache.bget dev blockno).map s.got
  | .bread disk dev blockno => (s.cache.bread disk dev blockno).map s.got
  | .brelse b =>
    if 0 < s.held b then
      some { s with
        cache := s.cache.brelse b
        held := Function.update s.held b (s.held b - 1)
        -- the last reference moves the buffer to the front
        lru := if (s.cache.buf b).refcnt - 1 = 0 then b :: s.lru.erase b else s.lru }
    else none
  | .bpin b =>
    if 0 < s.held b then
      some { s with cache := s.cache.bpin b, pins := Function.update s.pins b (s.pins b + 1) }
    else none
  | .bunpin b =>
    if 0 < s.pins b then
      some { s with cache := s.cache.bunpin b, pins := Function.update s.pins b (s.pins b - 1) }
    else none
  | .write b data =>
    if 0 < s.held b then
      some { s with cache := s.cache.setBuf b { s.cache.buf b with data := data } }
    else none

/-- A sequence of calls; `none` if one of them fails. -/
def run (s : BioSys α) : List (BioCall α) → Option (BioSys α)
  | [] => some s
  | call :: calls => (s.step call).bind fun s' => s'.run calls

/-! ### What each call does -/

section Calls

variable {dev blockno : ℕ} {disk : ℕ → ℕ → α} {b : Fin NBUF} {data : α}

theorem step_bget :
    s.step (.bget dev blockno) = some s' ↔ ∃ r, s.cache.bget dev blockno = some r ∧ s.got r = s' :=
  Option.map_eq_some_iff

theorem step_bread :
    s.step (.bread disk dev blockno) = some s' ↔
      ∃ r, s.cache.bread disk dev blockno = some r ∧ s.got r = s' :=
  Option.map_eq_some_iff

theorem step_brelse :
    s.step (.brelse b) = some s' ↔ 0 < s.held b ∧
      { s with
        cache := s.cache.brelse b
        held := Function.update s.held b (s.held b - 1)
        lru := if (s.cache.buf b).refcnt - 1 = 0 then b :: s.lru.erase b else s.lru } = s' := by
  simp only [step, Option.ite_none_right_eq_some, Option.some.injEq]

theorem step_bpin :
    s.step (.bpin b) = some s' ↔ 0 < s.held b ∧
      { s with cache := s.cache.bpin b, pins := Function.update s.pins b (s.pins b + 1) } = s' := by
  simp only [step, Option.ite_none_right_eq_some, Option.some.injEq]

theorem step_bunpin :
    s.step (.bunpin b) = some s' ↔ 0 < s.pins b ∧
      { s with cache := s.cache.bunpin b, pins := Function.update s.pins b (s.pins b - 1) } = s' := by
  simp only [step, Option.ite_none_right_eq_some, Option.some.injEq]

theorem step_write :
    s.step (.write b data) = some s' ↔ 0 < s.held b ∧
      { s with cache := s.cache.setBuf b { s.cache.buf b with data := data } } = s' := by
  simp only [step, Option.ite_none_right_eq_some, Option.some.injEq]

end Calls

/-- The state after `binit`. The buffers are zero, as the kernel's static data is; their
pointer fields may hold anything. -/
def init (d : α) (next prev : BufPtr → BufPtr) : BioSys α where
  cache := Bcache.binit ⟨fun _ => ⟨false, 0, 0, 0, d⟩, next, prev⟩
  lru := (List.finRange NBUF).reverse
  held := fun _ => 0
  pins := fun _ => 0
  used := fun _ => false

/-- The representation invariant of the buffer cache. -/
structure Inv (s : BioSys α) : Prop where
  nodup : s.lru.Nodup
  mem : ∀ b, b ∈ s.lru
  next_eq : s.cache.next = LinkedCycle.next s.lru
  prev_eq : s.cache.prev = LinkedCycle.prev s.lru
  refcnt_eq : ∀ b, (s.cache.buf b).refcnt = s.held b + s.pins b
  unique : ∀ b₁ b₂, s.used b₁ = true → s.used b₂ = true →
    s.cache.ident b₁ = s.cache.ident b₂ → b₁ = b₂
  fresh : ∀ b, s.used b = false → s.cache.ident b = (0, 0) ∧ s.held b = 0 ∧ s.pins b = 0
  /-- A used buffer assigned to block `(0, 0)`, which every unused buffer carries, is the first
  buffer of the list that carries it, so `bget 0 0` finds it before any unused one. -/
  zero_first : ∀ u, s.used u = true → s.cache.ident u = (0, 0) →
    s.lru.find? (s.cache.holds 0 0) = some u

theorem Inv.used_of_held (hs : s.Inv) {b : Fin NBUF} (h : 0 < s.held b) : s.used b = true := by
  by_contra hu
  have := (hs.fresh b (by simpa using hu)).2.1
  omega

theorem Inv.used_of_pins (hs : s.Inv) {b : Fin NBUF} (h : 0 < s.pins b) : s.used b = true := by
  by_contra hu
  have := (hs.fresh b (by simpa using hu)).2.2
  omega

theorem Inv.init (d : α) (next prev : BufPtr → BufPtr) : (init d next prev).Inv := by
  have hmem : ∀ b, b ∈ (List.finRange NBUF).reverse := fun b => by simp [List.mem_finRange]
  obtain ⟨hn, hp⟩ := (Bcache.binit_linksOn _).eq hmem
  refine ⟨List.nodup_reverse.2 (List.nodup_finRange NBUF), hmem, hn, hp, ?_, ?_, ?_, ?_⟩
  · intro b
    simp [BioSys.init]
  · intro b₁ b₂ h₁
    cases h₁
  · intro b _
    simp [BioSys.init, Bcache.ident]
  · intro u hu
    cases hu

/-! ### Each call keeps the invariant -/

/-- Marking `b` used keeps the used buffers' blocks distinct if no other used buffer has `b`'s
block. -/
theorem unique_mark {f : Fin NBUF → ℕ × ℕ} {used : Fin NBUF → Bool} {b : Fin NBUF}
    (h : ∀ b₁ b₂, used b₁ = true → used b₂ = true → f b₁ = f b₂ → b₁ = b₂)
    (hb : ∀ u, used u = true → f u = f b → u = b) :
    ∀ b₁ b₂, Function.update used b true b₁ = true → Function.update used b true b₂ = true →
      f b₁ = f b₂ → b₁ = b₂ := by
  intro b₁ b₂ h₁ h₂ he
  by_cases e₁ : b₁ = b
  · by_cases e₂ : b₂ = b
    · rw [e₁, e₂]
    · rw [Function.update_of_ne e₂] at h₂
      rw [e₁] at he ⊢
      exact (hb b₂ h₂ he.symm).symm
  · rw [Function.update_of_ne e₁] at h₁
    by_cases e₂ : b₂ = b
    · rw [e₂] at he ⊢
      exact hb b₁ h₁ he
    · rw [Function.update_of_ne e₂] at h₂
      exact h b₁ b₂ h₁ h₂ he

/-- Assigning `b` a block that no buffer holds, and marking it used, keeps the used buffers'
blocks distinct. -/
theorem unique_reassign {f : Fin NBUF → ℕ × ℕ} {used : Fin NBUF → Bool} {b : Fin NBUF}
    {v : ℕ × ℕ} (h : ∀ b₁ b₂, used b₁ = true → used b₂ = true → f b₁ = f b₂ → b₁ = b₂)
    (hv : ∀ u, f u ≠ v) :
    ∀ b₁ b₂, Function.update used b true b₁ = true → Function.update used b true b₂ = true →
      Function.update f b v b₁ = Function.update f b v b₂ → b₁ = b₂ := by
  refine unique_mark (fun b₁ b₂ h₁ h₂ he => ?_) (fun u _ he => ?_)
  · by_cases e₁ : b₁ = b <;> by_cases e₂ : b₂ = b
    · rw [e₁, e₂]
    · rw [e₁, Function.update_self, Function.update_of_ne e₂] at he
      exact absurd he.symm (hv b₂)
    · rw [e₂, Function.update_self, Function.update_of_ne e₁] at he
      exact absurd he (hv b₁)
    · rw [Function.update_of_ne e₁, Function.update_of_ne e₂] at he
      exact h b₁ b₂ h₁ h₂ he
  · by_contra hub
    rw [Function.update_self, Function.update_of_ne hub] at he
    exact hv u he

/-- Rewriting one used buffer, with its identity kept and its count matching the ghost counts,
keeps the invariant. -/
theorem Inv.setBuf (hs : s.Inv) {b : Fin NBUF} {x : Buf α} (hcache : s'.cache = s.cache.setBuf b x)
    (hu : s.used b = true) (hx : x.dev = (s.cache.buf b).dev ∧ x.blockno = (s.cache.buf b).blockno)
    (hcount : x.refcnt = s'.held b + s'.pins b)
    (hheld : ∀ y, y ≠ b → s'.held y = s.held y) (hpins : ∀ y, y ≠ b → s'.pins y = s.pins y)
    (hlru : s'.lru = s.lru) (hused : s'.used = s.used) : s'.Inv := by
  have hident : s'.cache.ident = s.cache.ident := by
    rw [hcache, Bcache.ident_setBuf, hx.1, hx.2]
    exact Function.update_eq_self b s.cache.ident
  refine ⟨hlru ▸ hs.nodup, hlru ▸ hs.mem, ?_, ?_, ?_, ?_, ?_, ?_⟩
  · rw [hcache, Bcache.setBuf_next, hlru, hs.next_eq]
  · rw [hcache, Bcache.setBuf_prev, hlru, hs.prev_eq]
  · intro y
    by_cases hy : y = b
    · subst hy
      rw [hcache, Bcache.setBuf_buf, Function.update_self, hcount]
    · rw [hcache, Bcache.setBuf_buf, Function.update_of_ne hy, hs.refcnt_eq y, hheld y hy,
        hpins y hy]
  · rw [hused, hident]
    exact hs.unique
  · intro y hy
    rw [hused] at hy
    have hyb : y ≠ b := by
      rintro rfl
      rw [hu] at hy
      cases hy
    rw [hident, hheld y hyb, hpins y hyb]
    exact hs.fresh y hy
  · rw [hused, hident, hlru, hcache, Bcache.holds_setBuf _ _ hx.1 hx.2]
    exact hs.zero_first

/-- Marking `b` used keeps the invariant if `b` was used, or is the first buffer carrying
`(0, 0)`. -/
theorem Inv.use (hs : s.Inv) {b : Fin NBUF}
    (h : s.used b = false → s.lru.find? (s.cache.holds 0 0) = some b) :
    { s with used := Function.update s.used b true }.Inv := by
  cases hb : s.used b with
  | true =>
    have : Function.update s.used b true = s.used := by
      rw [← hb]
      exact Function.update_eq_self b s.used
    rw [this]
    exact hs
  | false =>
    have hfirst := h hb
    have hz := (hs.fresh b hb).1
    refine ⟨hs.nodup, hs.mem, hs.next_eq, hs.prev_eq, hs.refcnt_eq, ?_, ?_, ?_⟩
    · -- a used buffer with `b`'s block `(0, 0)` would come first in the list, where `b` is
      refine unique_mark hs.unique fun u hu he => ?_
      have := hs.zero_first u hu (he.trans hz)
      rw [hfirst] at this
      exact (Option.some.inj this).symm
    · intro y hy
      dsimp only at hy
      have hyb : y ≠ b := by
        rintro rfl
        simp at hy
      rw [Function.update_of_ne hyb] at hy
      exact hs.fresh y hy
    · intro u hu hu₀
      dsimp only at hu
      by_cases hub : u = b
      · rw [hub]
        exact hfirst
      · rw [Function.update_of_ne hub] at hu
        exact hs.zero_first u hu hu₀

/-- `bget`'s first loop found `b`: one more reference. -/
theorem Inv.hit (hs : s.Inv) {b : Fin NBUF} {dev blockno : ℕ}
    (hf : s.lru.find? (s.cache.holds dev blockno) = some b) :
    (s.got (s.cache.setBuf b { s.cache.buf b with refcnt := (s.cache.buf b).refcnt + 1 }, b)).Inv := by
  have hb : s.cache.ident b = (dev, blockno) := (Bcache.holds_eq_true _).1 (List.find?_some hf)
  -- an unused `b` carries `(0, 0)`, so the loop was looking for `(0, 0)`
  have hu := hs.use (b := b) fun hub => by
    obtain ⟨rfl, rfl⟩ := Prod.mk.inj (hb.symm.trans (hs.fresh b hub).1)
    exact hf
  refine hu.setBuf rfl (by simp) ⟨rfl, rfl⟩ ?_ (fun y hy => Function.update_of_ne hy _ _)
    (fun _ _ => rfl) rfl rfl
  simp only [got, Function.update_self, hs.refcnt_eq b]
  omega

/-- `bget`'s first loop found nothing and the second found `b`: `b` is reassigned. -/
theorem Inv.reassign (hs : s.Inv) {b : Fin NBUF} {dev blockno : ℕ}
    (hfree : (s.cache.buf b).refcnt = 0) (hnone : ∀ u, s.cache.ident u ≠ (dev, blockno)) :
    (s.got (s.cache.setBuf b
      { s.cache.buf b with dev := dev, blockno := blockno, valid := false, refcnt := 1 }, b)).Inv := by
  have hcount := hs.refcnt_eq b
  have hident := Bcache.ident_setBuf s.cache b
    { s.cache.buf b with dev := dev, blockno := blockno, valid := false, refcnt := 1 }
  dsimp only at hident
  refine ⟨hs.nodup, hs.mem, hs.next_eq, hs.prev_eq, ?_, ?_, ?_, ?_⟩
  · intro y
    by_cases hy : y = b
    · subst hy
      simp only [got, Bcache.setBuf_buf, Function.update_self]
      omega
    · simp only [got, Bcache.setBuf_buf, Function.update_of_ne hy]
      exact hs.refcnt_eq y
  · simp only [got, hident]
    exact unique_reassign hs.unique hnone
  · intro y hy
    have hyb : y ≠ b := by
      rintro rfl
      simp [got] at hy
    simp only [got, Function.update_of_ne hyb] at hy ⊢
    rw [hident, Function.update_of_ne hyb]
    exact hs.fresh y hy
  · intro u hu hu₀
    simp only [got] at hu hu₀ ⊢
    rw [hident] at hu₀
    have hholds : ∀ y, y ≠ b → (s.cache.setBuf b
        { s.cache.buf b with dev := dev, blockno := blockno, valid := false, refcnt := 1 }).holds 0 0 y =
          s.cache.holds 0 0 y := fun y hy => by
      simp [Bcache.holds, Function.update_of_ne hy]
    by_cases hub : u = b
    · -- `b` now holds `(0, 0)`, which no other buffer does
      subst hub
      rw [Function.update_self] at hu₀
      refine LinkedCycle.find?_eq_some_of_unique (hs.mem u) (by simp [hident, hu₀]) fun y _ hy => ?_
      by_contra hyu
      rw [hholds y hyu, Bcache.holds_eq_true, ← hu₀] at hy
      exact hnone y hy
    · -- `u` was the first buffer holding `(0, 0)`, and `b` does not hold it now
      rw [Function.update_of_ne hub] at hu hu₀
      refine LinkedCycle.find?_of_le (fun y hy => ?_) (hs.zero_first u hu hu₀)
        (by simp [hident, hub, hu₀])
      by_cases hyb : y = b
      · subst hyb
        simp only [Bcache.holds_eq_true, hident, Function.update_self] at hy
        exact absurd (hu₀.trans hy.symm) (hnone u)
      · rwa [← hholds y hyb]

theorem Inv.bget (hs : s.Inv) {dev blockno : ℕ} {r : Bcache α × Fin NBUF}
    (h : s.cache.bget dev blockno = some r) : (s.got r).Inv := by
  obtain ⟨c', b⟩ := r
  rcases Bcache.bget_cases hs.next_eq hs.prev_eq hs.nodup h with ⟨hf, rfl⟩ | ⟨hf, hr, rfl⟩
  · exact hs.hit hf
  · refine hs.reassign (by simpa using List.find?_some hr) fun u hu => ?_
    have := List.find?_eq_none.1 hf u (hs.mem u)
    rw [Bcache.holds_eq_true] at this
    exact this hu

theorem Inv.bread (hs : s.Inv) {disk : ℕ → ℕ → α} {dev blockno : ℕ} {r : Bcache α × Fin NBUF}
    (h : s.cache.bread disk dev blockno = some r) : (s.got r).Inv := by
  obtain ⟨c', b⟩ := r
  obtain ⟨c₁, hget, x, hdev, hblk, hcnt, -, rfl⟩ := Bcache.bread_cases h
  have h₁ := hs.bget hget
  exact h₁.setBuf rfl (by simp [got]) ⟨hdev, hblk⟩ (hcnt.trans (h₁.refcnt_eq b))
    (fun _ _ => rfl) (fun _ _ => rfl) rfl rfl

/-- `brelse`'s relinking: `b` moves to the front of the list. -/
theorem Inv.moveFront (hs : s.Inv) {b : Fin NBUF} (hu : s.used b = true) :
    { s with cache := (s.cache.unlink b).linkFront b, lru := b :: s.lru.erase b }.Inv := by
  obtain ⟨l₁, l₂, hl⟩ := List.append_of_mem (hs.mem b)
  have hnd : (l₁ ++ b :: l₂).Nodup := hl ▸ hs.nodup
  have hb₁ : b ∉ l₁ := fun h => List.disjoint_of_nodup_append hnd h (List.mem_cons_self ..)
  have herase : s.lru.erase b = l₁ ++ l₂ := by
    rw [hl, List.erase_append_right _ hb₁, List.erase_cons_head]
  have hnd' : (b :: s.lru.erase b).Nodup := by
    rw [herase]
    exact List.nodup_middle.1 hnd
  have hmem : ∀ y, y ∈ b :: s.lru.erase b := fun y => by
    by_cases hy : y = b
    · rw [hy]
      exact List.mem_cons_self ..
    · exact List.mem_cons_of_mem _ ((List.mem_erase_of_ne hy).2 (hs.mem y))
  have hlinks : ((s.cache.unlink b).linkFront b).LinksOn (b :: s.lru.erase b) := by
    have h₁ := Bcache.LinksOn.unlink (hl ▸ hs.next_eq) (hl ▸ hs.prev_eq) hnd
    rw [herase] at hnd' ⊢
    exact h₁.linkFront hnd'
  obtain ⟨hn, hp⟩ := hlinks.eq hmem
  refine ⟨hnd', hmem, hn, hp, hs.refcnt_eq, hs.unique, hs.fresh, fun u hu' hu₀ => ?_⟩
  change s.cache.ident u = (0, 0) at hu₀
  show (b :: s.lru.erase b).find? (s.cache.holds 0 0) = some u
  by_cases hub : u = b
  · subst hub
    exact List.find?_cons_of_pos (by simpa using hu₀)
  · -- `b` is used and is not `u`, so it does not carry `(0, 0)`
    have hb₀ : s.cache.holds 0 0 b = false := by
      rw [Bool.eq_false_iff]
      intro hb
      rw [Bcache.holds_eq_true] at hb
      exact hub (hs.unique u b hu' hu (hu₀.trans hb.symm))
    rw [List.find?_cons_of_neg (by simp [hb₀]), LinkedCycle.find?_erase_of_neg hb₀]
    exact hs.zero_first u hu' hu₀

theorem Inv.brelse (hs : s.Inv) {b : Fin NBUF} (hb : 0 < s.held b) :
    { s with
      cache := s.cache.brelse b
      held := Function.update s.held b (s.held b - 1)
      lru := if (s.cache.buf b).refcnt - 1 = 0 then b :: s.lru.erase b else s.lru }.Inv := by
  have hu := hs.used_of_held hb
  have hcount := hs.refcnt_eq b
  -- the new count, before any relinking
  have h₁ : { s with
      cache := s.cache.setBuf b { s.cache.buf b with refcnt := (s.cache.buf b).refcnt - 1 }
      held := Function.update s.held b (s.held b - 1) }.Inv := by
    refine hs.setBuf rfl hu ⟨rfl, rfl⟩ ?_ (fun y hy => Function.update_of_ne hy _ _)
      (fun _ _ => rfl) rfl rfl
    simp only [Function.update_self]
    omega
  by_cases hz : (s.cache.buf b).refcnt - 1 = 0
  · rw [Bcache.brelse_of_zero _ _ hz, if_pos hz]
    exact h₁.moveFront hu
  · rw [Bcache.brelse_of_pos _ _ hz, if_neg hz]
    exact h₁

theorem Inv.bpin (hs : s.Inv) {b : Fin NBUF} (hb : 0 < s.held b) :
    { s with cache := s.cache.bpin b, pins := Function.update s.pins b (s.pins b + 1) }.Inv := by
  have hcount := hs.refcnt_eq b
  refine hs.setBuf rfl (hs.used_of_held hb) ⟨rfl, rfl⟩ ?_ (fun _ _ => rfl)
    (fun y hy => Function.update_of_ne hy _ _) rfl rfl
  simp only [Function.update_self]
  omega

theorem Inv.bunpin (hs : s.Inv) {b : Fin NBUF} (hb : 0 < s.pins b) :
    { s with cache := s.cache.bunpin b, pins := Function.update s.pins b (s.pins b - 1) }.Inv := by
  have hcount := hs.refcnt_eq b
  refine hs.setBuf rfl (hs.used_of_pins hb) ⟨rfl, rfl⟩ ?_ (fun _ _ => rfl)
    (fun y hy => Function.update_of_ne hy _ _) rfl rfl
  simp only [Function.update_self]
  omega

theorem Inv.write (hs : s.Inv) {b : Fin NBUF} (hb : 0 < s.held b) (data : α) :
    { s with cache := s.cache.setBuf b { s.cache.buf b with data := data } }.Inv :=
  hs.setBuf rfl (hs.used_of_held hb) ⟨rfl, rfl⟩ (hs.refcnt_eq b) (fun _ _ => rfl) (fun _ _ => rfl)
    rfl rfl

/-- Every call keeps the invariant. -/
theorem Inv.step (hs : s.Inv) {call : BioCall α} (h : s.step call = some s') : s'.Inv := by
  cases call with
  | bget dev blockno =>
    obtain ⟨r, hr, rfl⟩ := step_bget.1 h
    exact hs.bget hr
  | bread disk dev blockno =>
    obtain ⟨r, hr, rfl⟩ := step_bread.1 h
    exact hs.bread hr
  | brelse b =>
    obtain ⟨hb, rfl⟩ := step_brelse.1 h
    exact hs.brelse hb
  | bpin b =>
    obtain ⟨hb, rfl⟩ := step_bpin.1 h
    exact hs.bpin hb
  | bunpin b =>
    obtain ⟨hb, rfl⟩ := step_bunpin.1 h
    exact hs.bunpin hb
  | write b data =>
    obtain ⟨hb, rfl⟩ := step_write.1 h
    exact hs.write hb data

/-- Every sequence of calls keeps the invariant. -/
theorem Inv.run (hs : s.Inv) {calls : List (BioCall α)} (h : s.run calls = some s') : s'.Inv := by
  induction calls generalizing s with
  | nil =>
    cases h
    exact hs
  | cons call calls ih =>
    obtain ⟨s₁, h₁, h₂⟩ := Option.bind_eq_some_iff.1 h
    exact ih (hs.step h₁) h₂

/-! ### Referenced buffers keep their block and data -/

/-- Changing only the count keeps what a buffer caches. -/
theorem keeps_refcnt (x : Buf α) (n : ℕ) : x.Keeps { x with refcnt := n } :=
  ⟨rfl, rfl, fun hv => ⟨hv, rfl⟩⟩

/-- `bget` keeps what a referenced buffer caches: the first loop only adds a reference, and the
second takes an unreferenced buffer. -/
theorem Inv.keeps_bget (hs : s.Inv) {dev blockno : ℕ} {c' : Bcache α} {b₀ b : Fin NBUF}
    (h : s.cache.bget dev blockno = some (c', b₀)) (hb : 0 < (s.cache.buf b).refcnt) :
    (s.cache.buf b).Keeps (c'.buf b) := by
  rcases Bcache.bget_cases hs.next_eq hs.prev_eq hs.nodup h with ⟨-, rfl⟩ | ⟨-, hr, rfl⟩
  · exact Buf.keeps_update fun _ => keeps_refcnt _ _
  · -- the reassigned buffer had no reference, so it is not `b`
    have hfree : (s.cache.buf b₀).refcnt = 0 := by simpa using List.find?_some hr
    refine Buf.keeps_update fun e => absurd hb ?_
    rw [e, hfree]
    exact Nat.lt_irrefl 0

/-- `bread` keeps what a referenced buffer caches: it reads only into an invalid buffer. -/
theorem Inv.keeps_bread (hs : s.Inv) {disk : ℕ → ℕ → α} {dev blockno : ℕ} {c' : Bcache α}
    {b₀ b : Fin NBUF} (h : s.cache.bread disk dev blockno = some (c', b₀))
    (hb : 0 < (s.cache.buf b).refcnt) : (s.cache.buf b).Keeps (c'.buf b) := by
  obtain ⟨c₁, hget, x, hdev, hblk, -, hval, rfl⟩ := Bcache.bread_cases h
  refine (hs.keeps_bget hget hb).trans (Buf.keeps_update fun _ => ⟨hdev, hblk, fun hv => ?_⟩)
  rw [hval hv]
  exact ⟨hv, rfl⟩

/-- A call other than a write to `b` keeps what `b` caches while `b` is referenced. -/
theorem Inv.keeps_step (hs : s.Inv) {call : BioCall α} (h : s.step call = some s') {b : Fin NBUF}
    (hcall : ∀ data, call ≠ .write b data) (hb : 0 < (s.cache.buf b).refcnt) :
    (s.cache.buf b).Keeps (s'.cache.buf b) := by
  cases call with
  | bget dev blockno =>
    obtain ⟨⟨c', b₀⟩, hr, rfl⟩ := step_bget.1 h
    exact hs.keeps_bget hr hb
  | bread disk dev blockno =>
    obtain ⟨⟨c', b₀⟩, hr, rfl⟩ := step_bread.1 h
    exact hs.keeps_bread hr hb
  | brelse b₀ =>
    obtain ⟨-, rfl⟩ := step_brelse.1 h
    show (s.cache.buf b).Keeps ((s.cache.brelse b₀).buf b)
    rw [Bcache.brelse_buf]
    exact Buf.keeps_update fun _ => keeps_refcnt _ _
  | bpin b₀ =>
    obtain ⟨-, rfl⟩ := step_bpin.1 h
    exact Buf.keeps_update fun _ => keeps_refcnt _ _
  | bunpin b₀ =>
    obtain ⟨-, rfl⟩ := step_bunpin.1 h
    exact Buf.keeps_update fun _ => keeps_refcnt _ _
  | write b₀ data =>
    obtain ⟨-, rfl⟩ := step_write.1 h
    exact Buf.keeps_update fun e => absurd (by rw [e]) (hcall data)

/-- Only `bunpin` lowers a buffer's pin count. -/
theorem pins_le_step {call : BioCall α} (h : s.step call = some s') {b : Fin NBUF}
    (hcall : call ≠ .bunpin b) : s.pins b ≤ s'.pins b := by
  cases call with
  | bget dev blockno =>
    obtain ⟨r, -, rfl⟩ := step_bget.1 h
    exact le_refl _
  | bread disk dev blockno =>
    obtain ⟨r, -, rfl⟩ := step_bread.1 h
    exact le_refl _
  | brelse b₀ =>
    obtain ⟨-, rfl⟩ := step_brelse.1 h
    exact le_refl _
  | bpin b₀ =>
    obtain ⟨-, rfl⟩ := step_bpin.1 h
    by_cases hb : b = b₀
    · subst hb
      simp
    · simp [Function.update_of_ne hb]
  | bunpin b₀ =>
    obtain ⟨-, rfl⟩ := step_bunpin.1 h
    have hb : b ≠ b₀ := fun e => hcall (by rw [e])
    simp [Function.update_of_ne hb]
  | write b₀ data =>
    obtain ⟨-, rfl⟩ := step_write.1 h
    exact le_refl _

/-- A pinned buffer keeps its block, and its valid data, over every run that neither unpins
nor writes it: what `log_write` pinned is still there when `install_trans` copies it home. -/
theorem Inv.keeps_run_pinned (hs : s.Inv) {b : Fin NBUF} (hp : 0 < s.pins b)
    {calls : List (BioCall α)} (h : s.run calls = some s')
    (hcalls : ∀ call ∈ calls, call ≠ .bunpin b ∧ ∀ data, call ≠ .write b data) :
    (s.cache.buf b).Keeps (s'.cache.buf b) ∧ 0 < s'.pins b := by
  induction calls generalizing s with
  | nil =>
    cases h
    exact ⟨Buf.Keeps.refl _, hp⟩
  | cons call calls ih =>
    obtain ⟨s₁, h₁, h₂⟩ := Option.bind_eq_some_iff.1 h
    obtain ⟨hunpin, hwrite⟩ := hcalls call List.mem_cons_self
    -- a pinned buffer is referenced
    have hb : 0 < (s.cache.buf b).refcnt := by
      rw [hs.refcnt_eq b]
      omega
    obtain ⟨hk, hp₁⟩ := ih (hs.step h₁) (lt_of_lt_of_le hp (pins_le_step h₁ hunpin)) h₂
      fun c hc => hcalls c (List.mem_cons_of_mem _ hc)
    exact ⟨(hs.keeps_step h₁ hwrite hb).trans hk, hp₁⟩

/-- A buffer read and pinned keeps its block and data while another block is read. -/
theorem keeps_run_pinned_bread :
    ∃ s₁ s₂, (init (0 : ℕ) (fun _ => none) (fun _ => none)).run
        [.bread (fun _ _ => 7) 1 33, .bpin ⟨0, by decide⟩] = some s₁ ∧
      s₁.run [.bread (fun _ _ => 8) 1 34] = some s₂ ∧
      (s₁.cache.buf ⟨0, by decide⟩).Keeps (s₂.cache.buf ⟨0, by decide⟩) ∧
      0 < s₂.pins ⟨0, by decide⟩ :=
  have hs₁ := @Inv.run _ _ _ (Inv.init 0 (fun _ => none) (fun _ => none))
    [.bread (fun _ _ => 7) 1 33, .bpin ⟨0, by decide⟩] rfl
  ⟨_, _, rfl, rfl,
    @Inv.keeps_run_pinned _ _ _ hs₁ _ (by decide) [.bread (fun _ _ => 8) 1 34] rfl (by simp)⟩

/-! ### The representation invariant after `binit` -/

/-- After `binit` and any sequence of calls, the `next` and `prev` fields form one circular
doubly linked list through the head that holds every buffer once; the buffers `bget` has
returned carry distinct blocks; a call other than a write to a referenced buffer keeps its block
and valid data; and each `refcnt` counts the unreleased `bget` results and the unundone pins. -/
theorem binit_run_invariant (d : α) (next prev : BufPtr → BufPtr) (calls : List (BioCall α))
    (h : (init d next prev).run calls = some s) :
    (∀ x, s.cache.next (s.cache.prev x) = x ∧ s.cache.prev (s.cache.next x) = x) ∧
    (∃ l : List (Fin NBUF), l.Nodup ∧ (∀ b, b ∈ l) ∧
      s.cache.next = LinkedCycle.next l ∧ s.cache.prev = LinkedCycle.prev l) ∧
    (∀ b₁ b₂, s.used b₁ = true → s.used b₂ = true →
      (s.cache.buf b₁).dev = (s.cache.buf b₂).dev →
      (s.cache.buf b₁).blockno = (s.cache.buf b₂).blockno → b₁ = b₂) ∧
    (∀ (call : BioCall α) s' b, (∀ data, call ≠ .write b data) → s.step call = some s' →
      0 < (s.cache.buf b).refcnt → (s.cache.buf b).Keeps (s'.cache.buf b)) ∧
    (∀ b, (s.cache.buf b).refcnt = s.held b + s.pins b) := by
  have hs := (Inv.init d next prev).run h
  have hin : ∀ (x : BufPtr) a, x = some a → a ∈ s.lru := fun _ a _ => hs.mem a
  refine ⟨fun x => ⟨?_, ?_⟩, ⟨s.lru, hs.nodup, hs.mem, hs.next_eq, hs.prev_eq⟩,
    fun b₁ b₂ h₁ h₂ hd hn => hs.unique b₁ b₂ h₁ h₂ (Prod.ext hd hn),
    fun call s' b hcall hstep hb => hs.keeps_step hstep hcall hb, hs.refcnt_eq⟩
  · rw [hs.next_eq, hs.prev_eq]
    exact LinkedCycle.next_prev hs.nodup (hin x)
  · rw [hs.next_eq, hs.prev_eq]
    exact LinkedCycle.prev_next hs.nodup (hin x)

/-- A run that reads a block, pins the buffer and releases it. -/
theorem binit_run_invariant_bread :
    ∃ s, (init (0 : ℕ) (fun _ => none) (fun _ => none)).run
        [.bread (fun _ _ => 7) 1 33, .bpin ⟨0, by decide⟩, .brelse ⟨0, by decide⟩] = some s ∧
      (∀ x, s.cache.next (s.cache.prev x) = x ∧ s.cache.prev (s.cache.next x) = x) ∧
      (∃ l : List (Fin NBUF), l.Nodup ∧ (∀ b, b ∈ l) ∧
        s.cache.next = LinkedCycle.next l ∧ s.cache.prev = LinkedCycle.prev l) ∧
      (∀ b₁ b₂, s.used b₁ = true → s.used b₂ = true →
        (s.cache.buf b₁).dev = (s.cache.buf b₂).dev →
        (s.cache.buf b₁).blockno = (s.cache.buf b₂).blockno → b₁ = b₂) ∧
      (∀ (call : BioCall ℕ) s' b, (∀ data, call ≠ .write b data) → s.step call = some s' →
        0 < (s.cache.buf b).refcnt → (s.cache.buf b).Keeps (s'.cache.buf b)) ∧
      (∀ b, (s.cache.buf b).refcnt = s.held b + s.pins b) :=
  ⟨_, rfl, binit_run_invariant 0 (fun _ => none) (fun _ => none)
    [.bread (fun _ _ => 7) 1 33, .bpin ⟨0, by decide⟩, .brelse ⟨0, by decide⟩] rfl⟩

end BioSys

end Xv6
