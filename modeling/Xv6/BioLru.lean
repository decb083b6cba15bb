import Xv6.Bio
import Xv6.Lib.Recency

/-!
# The buffer cache recycles in release order (`kernel/bio.c`)

`brelse` moves a buffer to the front of the list when its last reference goes, and nothing else
moves a buffer: `bget`'s first loop and `bpin`/`bunpin` change only `refcnt`, and a `bunpin`
that drops it to zero leaves the buffer where it is. So the list is the order of last release
(`MoveToFront.byRecency`): the buffers `brelse` released to zero, latest first and each once,
then those it never released in `binit`'s order, `buf[NBUF-1]` first and `buf[0]` last.
`bget`'s second loop walks the list from its end, so on a miss it takes the unreferenced buffer
released longest ago.

* `BioSys.releases`: the buffers a run releases to zero; `BioSys.run_lru`: the list is the
  start list touched by them;
* `Bcache.bget_eq`: `bget` on a well-linked cache, both loops read as list searches;
* `bcache_lru`: after every run from `binit`, the links are the release order, a miss takes
  the oldest unreferenced buffer or panics exactly when every buffer is referenced, and a hit
  takes the first buffer of the order carrying the block, the only one among the buffers
  `bget` has returned;
* `bget_zero_counterexample`: the block `(0, 0)` that every buffer carries after `binit`.
-/

namespace Xv6

open MoveToFront

variable {α : Type*}

namespace Bcache

/-- `bget` on a cache whose links are the cycle `head, l…`: the first buffer of `l` holding
the block, one more reference; or else the last unreferenced one, reassigned; or the panic. -/
theorem bget_eq {c : Bcache α} {l : List (Fin NBUF)} (hn : c.next = LinkedCycle.next l)
    (hp : c.prev = LinkedCycle.prev l) (hl : l.Nodup) (dev blockno : ℕ) :
    c.bget dev blockno =
      match l.find? (c.holds dev blockno) with
      | some b => some (c.setBuf b { c.buf b with refcnt := (c.buf b).refcnt + 1 }, b)
      | none => (l.reverse.find? c.free).map fun b =>
          (c.setBuf b { c.buf b with dev := dev, blockno := blockno, valid := false, refcnt := 1 }, b) := by
  rw [bget, findCached_eq hn hl, findFree_eq hp hl]
  cases l.find? (c.holds dev blockno) with
  | some b => rfl
  | none =>
    cases l.reverse.find? c.free with
    | none => rfl
    | some b => rfl

end Bcache

namespace BioSys

variable {s s' : BioSys α}

/-- The buffer a call moves to the front of the list: `brelse` dropping the last reference. -/
def released (s : BioSys α) : BioCall α → List (Fin NBUF)
  | .brelse b => if (s.cache.buf b).refcnt - 1 = 0 then [b] else []
  | _ => []

/-- The buffers a run releases to zero, in order. -/
def releases (s : BioSys α) : List (BioCall α) → List (Fin NBUF)
  | [] => []
  | call :: calls =>
    match s.step call with
    | some s' => s.released call ++ s'.releases calls
    | none => []

/-- A call moves only the buffer it releases to zero, if any. -/
theorem step_lru {call : BioCall α} (h : s.step call = some s') :
    s'.lru = touchAll s.lru (s.released call) := by
  cases call with
  | bget dev blockno =>
    obtain ⟨r, -, rfl⟩ := step_bget.1 h
    rfl
  | bread disk dev blockno =>
    obtain ⟨r, -, rfl⟩ := step_bread.1 h
    rfl
  | brelse b =>
    obtain ⟨-, rfl⟩ := step_brelse.1 h
    -- the last reference moves it to the front, any other leaves the list
    by_cases hz : (s.cache.buf b).refcnt - 1 = 0
    · simp only [released, if_pos hz]
      rfl
    · simp only [released, if_neg hz]
      rfl
  | bpin b =>
    obtain ⟨-, rfl⟩ := step_bpin.1 h
    rfl
  | bunpin b =>
    obtain ⟨-, rfl⟩ := step_bunpin.1 h
    rfl
  | write b data =>
    obtain ⟨-, rfl⟩ := step_write.1 h
    rfl

/-- Over a run the list is touched by the buffers released to zero, in order. -/
theorem run_lru {calls : List (BioCall α)} (h : s.run calls = some s') :
    s'.lru = touchAll s.lru (s.releases calls) := by
  induction calls generalizing s with
  | nil =>
    cases h
    rfl
  | cons call calls ih =>
    obtain ⟨s₁, h₁, h₂⟩ := Option.bind_eq_some_iff.1 h
    simp only [releases, h₁]
    rw [touchAll_append, ← step_lru h₁, ih h₂]

/-- The release order from `binit`: the buffers released to zero, latest first, then the
others with `buf[0]` last. -/
def releaseOrder (rel : List (Fin NBUF)) : List (Fin NBUF) :=
  byRecency (List.finRange NBUF).reverse rel

theorem init_run_lru {d : α} {next prev : BufPtr → BufPtr} {calls : List (BioCall α)}
    (h : (init d next prev).run calls = some s) :
    s.lru = releaseOrder ((init d next prev).releases calls) := by
  rw [run_lru h, releaseOrder, ← touchAll_eq (List.nodup_reverse.2 (List.nodup_finRange NBUF))]
  rfl

/-! ### `bget` on a reachable cache -/

variable {dev blockno : ℕ}

/-- A miss reassigns the last unreferenced buffer of the list. -/
theorem Inv.bget_miss (hs : s.Inv) (hmiss : ∀ b, s.cache.ident b ≠ (dev, blockno)) :
    s.cache.bget dev blockno = (s.lru.reverse.find? s.cache.free).map fun b =>
      (s.cache.setBuf b
        { s.cache.buf b with dev := dev, blockno := blockno, valid := false, refcnt := 1 }, b) := by
  have hnone : s.lru.find? (s.cache.holds dev blockno) = none :=
    List.find?_eq_none.2 fun b _ hb => hmiss b (Bcache.holds_eq_true _ |>.1 hb)
  rw [Bcache.bget_eq hs.next_eq hs.prev_eq hs.nodup, hnone]

/-- A miss panics exactly when every buffer is referenced. -/
theorem Inv.bget_miss_none (hs : s.Inv) (hmiss : ∀ b, s.cache.ident b ≠ (dev, blockno)) :
    s.cache.bget dev blockno = none ↔ ∀ b, 0 < (s.cache.buf b).refcnt := by
  rw [hs.bget_miss hmiss, Option.map_eq_none_iff, List.find?_eq_none]
  constructor
  · intro h b
    have := h b (List.mem_reverse.2 (hs.mem b))
    simpa [Bcache.free, Nat.pos_iff_ne_zero] using this
  · intro h b _ hb
    have := h b
    simp [Bcache.free] at hb
    omega

/-- A hit adds a reference to the first buffer of the list carrying the block. -/
theorem Inv.bget_hit (hs : s.Inv) {b : Fin NBUF} (hf : s.lru.find? (s.cache.holds dev blockno) = some b) :
    s.cache.bget dev blockno =
      some (s.cache.setBuf b { s.cache.buf b with refcnt := (s.cache.buf b).refcnt + 1 }, b) := by
  rw [Bcache.bget_eq hs.next_eq hs.prev_eq hs.nodup, hf]

/-- Only block `(0, 0)` is carried by a buffer `bget` has not returned. -/
theorem Inv.carrier_unique (hs : s.Inv) (hblk : (dev, blockno) ≠ (0, 0)) {b₁ b₂ : Fin NBUF}
    (h₁ : s.cache.ident b₁ = (dev, blockno)) (h₂ : s.cache.ident b₂ = (dev, blockno)) : b₁ = b₂ := by
  have hused : ∀ b, s.cache.ident b = (dev, blockno) → s.used b = true := fun b hb => by
    by_contra hu
    exact hblk (hb.symm.trans (hs.fresh b (by simpa using hu)).1)
  exact hs.unique b₁ b₂ (hused b₁ h₁) (hused b₂ h₂) (h₁.trans h₂.symm)

/-- After `binit` and every run of calls, the list the links describe is the order of last
release to zero, the buffers never released last in `binit`'s order. When no buffer carries the
block, `bget` reassigns the unreferenced buffer released longest ago, and panics exactly when
every buffer is referenced. When one does, `bget` adds a reference to the first buffer of the
order carrying it, without moving it; at most one buffer `bget` has returned carries the block,
and for a block other than `(0, 0)` at most one buffer at all. -/
theorem bcache_lru (d : α) (next prev : BufPtr → BufPtr) (calls : List (BioCall α))
    (h : (init d next prev).run calls = some s) :
    s.lru = releaseOrder ((init d next prev).releases calls) ∧
    s.cache.next = LinkedCycle.next s.lru ∧ s.cache.prev = LinkedCycle.prev s.lru ∧
    ∀ dev blockno : ℕ,
      ((∀ b, s.cache.ident b ≠ (dev, blockno)) →
        s.cache.bget dev blockno = (s.lru.reverse.find? s.cache.free).map (fun b =>
          (s.cache.setBuf b
            { s.cache.buf b with dev := dev, blockno := blockno, valid := false, refcnt := 1 }, b)) ∧
        (s.cache.bget dev blockno = none ↔ ∀ b, 0 < (s.cache.buf b).refcnt)) ∧
      (∀ b, s.lru.find? (s.cache.holds dev blockno) = some b →
        s.cache.bget dev blockno =
          some (s.cache.setBuf b { s.cache.buf b with refcnt := (s.cache.buf b).refcnt + 1 }, b)) ∧
      (∀ b₁ b₂, s.used b₁ = true → s.used b₂ = true →
        s.cache.ident b₁ = (dev, blockno) → s.cache.ident b₂ = (dev, blockno) → b₁ = b₂) ∧
      ((dev, blockno) ≠ (0, 0) → ∀ b₁ b₂,
        s.cache.ident b₁ = (dev, blockno) → s.cache.ident b₂ = (dev, blockno) → b₁ = b₂) := by
  have hs := (Inv.init d next prev).run h
  refine ⟨init_run_lru h, hs.next_eq, hs.prev_eq, fun dev blockno => ⟨fun hmiss =>
    ⟨hs.bget_miss hmiss, hs.bget_miss_none hmiss⟩, fun b hf => hs.bget_hit hf,
    fun b₁ b₂ hu₁ hu₂ h₁ h₂ => hs.unique b₁ b₂ hu₁ hu₂ (h₁.trans h₂.symm),
    fun hblk b₁ b₂ h₁ h₂ => hs.carrier_unique hblk h₁ h₂⟩⟩

/-- A run that reads block 33 into `buf[0]`, the oldest buffer, and releases it. -/
theorem bcache_lru_bread :
    ∃ s : BioSys ℕ, (init (0 : ℕ) (fun _ => none) (fun _ => none)).run
        [.bread (fun _ _ => 7) 1 33, .brelse ⟨0, by decide⟩] = some s ∧
      s.lru = releaseOrder ((init (0 : ℕ) (fun _ => none) (fun _ => none)).releases
        [.bread (fun _ _ => 7) 1 33, .brelse ⟨0, by decide⟩]) ∧
      s.cache.next = LinkedCycle.next s.lru ∧ s.cache.prev = LinkedCycle.prev s.lru ∧
      ∀ dev blockno : ℕ,
        ((∀ b, s.cache.ident b ≠ (dev, blockno)) →
          s.cache.bget dev blockno = (s.lru.reverse.find? s.cache.free).map (fun b =>
            (s.cache.setBuf b
              { s.cache.buf b with dev := dev, blockno := blockno, valid := false, refcnt := 1 }, b)) ∧
          (s.cache.bget dev blockno = none ↔ ∀ b, 0 < (s.cache.buf b).refcnt)) ∧
        (∀ b, s.lru.find? (s.cache.holds dev blockno) = some b →
          s.cache.bget dev blockno =
            some (s.cache.setBuf b { s.cache.buf b with refcnt := (s.cache.buf b).refcnt + 1 }, b)) ∧
        (∀ b₁ b₂, s.used b₁ = true → s.used b₂ = true →
          s.cache.ident b₁ = (dev, blockno) → s.cache.ident b₂ = (dev, blockno) → b₁ = b₂) ∧
        ((dev, blockno) ≠ (0, 0) → ∀ b₁ b₂,
          s.cache.ident b₁ = (dev, blockno) → s.cache.ident b₂ = (dev, blockno) → b₁ = b₂) :=
  ⟨_, rfl, bcache_lru 0 (fun _ => none) (fun _ => none)
    [.bread (fun _ _ => 7) 1 33, .brelse ⟨0, by decide⟩] rfl⟩

/-- After `binit` every buffer carries block `(0, 0)`: `bget(0, 0)` hits, and returns
`buf[NBUF-1]`, the first of the list, while `buf[0]` carries the block too. -/
theorem bget_zero_counterexample :
    (∃ c', (init (0 : ℕ) (fun _ => none) (fun _ => none)).cache.bget 0 0 =
      some (c', ⟨NBUF - 1, by decide⟩)) ∧
    (init (0 : ℕ) (fun _ => none) (fun _ => none)).cache.ident ⟨NBUF - 1, by decide⟩ = (0, 0) ∧
    (init (0 : ℕ) (fun _ => none) (fun _ => none)).cache.ident ⟨0, by decide⟩ = (0, 0) := by
  have hs := Inv.init (0 : ℕ) (fun _ => none) (fun _ => none)
  -- the list starts with `buf[NBUF-1]`, which carries `(0, 0)`
  have hf : (init (0 : ℕ) (fun _ => none) (fun _ => none)).lru.find?
      ((init (0 : ℕ) (fun _ => none) (fun _ => none)).cache.holds 0 0) = some ⟨NBUF - 1, by decide⟩ := by
    decide
  exact ⟨⟨_, hs.bget_hit hf⟩, rfl, rfl⟩

end BioSys

end Xv6
