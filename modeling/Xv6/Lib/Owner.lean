import Mathlib

/-!
# Exclusive ownership of numbered resources

A table `own : κ → ℕ` gives the resource each slot holds, `0` standing for none (a block
number `0` in a file system, a null pointer). The table is `Exclusive` when no resource is
held by two slots, and `Within lo hi` when every held resource lies in `[lo, hi)`.

* `Exclusive.update_zero`: a slot may drop its resource;
* `Exclusive.update_free`: a slot may take a resource no slot holds;
* `Within.update_fresh`: with a bump allocator, the next resource `hi` is held by no slot, and
  taking it keeps the table within `[lo, hi + 1)`.

A bitmap allocator keeps a flag `used b` per resource. The table and the bitmap are
`Accounted` when they agree over `[lo, hi)`, the resources below `lo` being reserved and
marked once and for all:

* `Accounted.take`: a slot without a resource takes one the bitmap says is free;
* `Accounted.release`: a slot gives its resource back and the bitmap clears it;
* `Accounted.ne_of_free`: a resource the bitmap says is free is held by no slot.

A holder may also hold a set of resources, with a flag per resource saying whether it is free.
`Held` says that no resource is held twice and that a resource is free exactly when no one holds
it; `Held.take` and `Held.release` are a holder taking free resources and giving back all it
holds.
-/

namespace Ownership

variable {κ : Type*}

/-- No resource is held by two slots. -/
def Exclusive (own : κ → ℕ) : Prop :=
  ∀ k₁ k₂, own k₁ ≠ 0 → own k₁ = own k₂ → k₁ = k₂

/-- Every held resource lies in `[lo, hi)`. -/
def Within (own : κ → ℕ) (lo hi : ℕ) : Prop :=
  ∀ k, own k ≠ 0 → lo ≤ own k ∧ own k < hi

variable {own : κ → ℕ}

/-- Below a bump allocator's next resource, no slot holds it. -/
theorem Within.ne_hi {lo hi : ℕ} (h : Within own lo hi) (hlo : 0 < hi) (k : κ) : own k ≠ hi := by
  intro he
  by_cases h0 : own k = 0
  · omega
  · have := (h k h0).2
    omega

theorem Within.mono {lo hi hi' : ℕ} (h : Within own lo hi) (hle : hi ≤ hi') : Within own lo hi' :=
  fun k hk => ⟨(h k hk).1, Nat.lt_of_lt_of_le (h k hk).2 hle⟩

/-- A table that holds only what `own` holds, slot by slot, is exclusive if `own` is. -/
theorem Exclusive.of_sub {own' : κ → ℕ} (h : Exclusive own) (h' : ∀ k, own' k ≠ 0 → own' k = own k) :
    Exclusive own' := by
  intro k₁ k₂ h₁ he
  have e₁ := h' k₁ h₁
  have e₂ := h' k₂ (he ▸ h₁)
  exact h k₁ k₂ (e₁ ▸ h₁) (by rw [← e₁, ← e₂, he])

theorem Within.of_sub {own' : κ → ℕ} {lo hi : ℕ} (h : Within own lo hi)
    (h' : ∀ k, own' k ≠ 0 → own' k = own k) : Within own' lo hi := by
  intro k hk
  rw [h' k hk]
  exact h k (h' k hk ▸ hk)

/-! ### Bitmap allocators -/

/-- The bitmap `used` keeps account of the table `own` over the resources `[lo, hi)`: every
held resource lies there, is held by one slot and is marked, every marked resource there is
held, and every resource below `lo` is marked. -/
structure Accounted (own : κ → ℕ) (used : ℕ → Bool) (lo hi : ℕ) : Prop where
  within : Within own lo hi
  exclusive : Exclusive own
  marked : ∀ k, own k ≠ 0 → used (own k) = true
  held : ∀ b, lo ≤ b → b < hi → used b = true → ∃ k, own k = b
  reserved : ∀ b, b < lo → used b = true

namespace Accounted

variable {used : ℕ → Bool} {lo hi : ℕ}

/-- A free resource is not reserved. -/
theorem le_of_free (h : Accounted own used lo hi) {b : ℕ} (hb : used b = false) : lo ≤ b :=
  Nat.le_of_not_lt fun hlt => by simp [h.reserved b hlt] at hb

/-- A free resource is held by no slot, `0` being reserved. -/
theorem ne_of_free (h : Accounted own used lo hi) (hlo : 0 < lo) {b : ℕ} (hb : used b = false)
    (k : κ) : own k ≠ b := by
  intro he
  by_cases h0 : own k = 0
  · have := h.le_of_free hb
    omega
  · have := h.marked k h0
    rw [he, hb] at this
    exact Bool.false_ne_true this

end Accounted

variable [DecidableEq κ]

/-- A slot may drop its resource. -/
theorem Exclusive.update_zero (h : Exclusive own) (k : κ) : Exclusive (Function.update own k 0) := by
  intro k₁ k₂ h₁ he
  have hk₁ : k₁ ≠ k := fun e => h₁ (by rw [e, Function.update_self])
  rw [Function.update_of_ne hk₁] at h₁ he
  by_cases hk₂ : k₂ = k
  · rw [hk₂, Function.update_self] at he
    exact absurd he h₁
  · rw [Function.update_of_ne hk₂] at he
    exact h k₁ k₂ h₁ he

/-- A slot may take a resource that no slot holds. -/
theorem Exclusive.update_free (h : Exclusive own) {b : ℕ} (hb : ∀ k, own k ≠ b) (k : κ) :
    Exclusive (Function.update own k b) := by
  intro k₁ k₂ h₁ he
  by_cases hk₁ : k₁ = k
  · -- `k₁` holds the new resource, which only `k` can hold
    subst hk₁
    rw [Function.update_self] at he
    by_cases hk₂ : k₂ = k₁
    · exact hk₂.symm
    · rw [Function.update_of_ne hk₂] at he
      exact absurd he.symm (hb k₂)
  · rw [Function.update_of_ne hk₁] at h₁ he
    by_cases hk₂ : k₂ = k
    · rw [hk₂, Function.update_self] at he
      exact absurd he (hb k₁)
    · rw [Function.update_of_ne hk₂] at he
      exact h k₁ k₂ h₁ he

/-- A slot may drop its resource. -/
theorem Within.update_zero {lo hi : ℕ} (h : Within own lo hi) (k : κ) :
    Within (Function.update own k 0) lo hi := by
  intro k' hk'
  by_cases hk : k' = k
  · rw [hk, Function.update_self] at hk'
    exact absurd rfl hk'
  · rw [Function.update_of_ne hk] at hk' ⊢
    exact h k' hk'

/-- Taking the next resource of a bump allocator. -/
theorem Within.update_fresh {lo hi : ℕ} (h : Within own lo hi) (hlo : lo ≤ hi) (k : κ) :
    Within (Function.update own k hi) lo (hi + 1) := by
  intro k' hk'
  by_cases hk : k' = k
  · rw [hk, Function.update_self]
    omega
  · rw [Function.update_of_ne hk] at hk' ⊢
    have := h k' hk'
    omega

namespace Accounted

variable {used : ℕ → Bool} {lo hi : ℕ}

/-- A slot without a resource takes a free one below `hi`. -/
theorem take (h : Accounted own used lo hi) (hlo : 0 < lo) {k : κ} (hk : own k = 0) {b : ℕ}
    (hb : used b = false) (hhi : b < hi) :
    Accounted (Function.update own k b) (Function.update used b true) lo hi := by
  have hlob := h.le_of_free hb
  have hfree := h.ne_of_free hlo hb
  refine ⟨fun k' hk' => ?_, h.exclusive.update_free hfree k, fun k' hk' => ?_, fun b' h₁ h₂ hu => ?_,
    fun b' hb' => ?_⟩
  · by_cases e : k' = k
    · subst e
      rw [Function.update_self]
      exact ⟨hlob, hhi⟩
    · rw [Function.update_of_ne e] at hk' ⊢
      exact h.within k' hk'
  · by_cases e : k' = k
    · subst e
      simp
    · rw [Function.update_of_ne e] at hk' ⊢
      by_cases hb' : own k' = b
      · exact absurd hb' (hfree k')
      · rw [Function.update_of_ne hb']
        exact h.marked k' hk'
  · by_cases e : b' = b
    · exact ⟨k, by rw [Function.update_self, e]⟩
    · -- the other marked resources keep their slots, none of which is `k`
      rw [Function.update_of_ne e] at hu
      obtain ⟨k', hk'⟩ := h.held b' h₁ h₂ hu
      have hne : k' ≠ k := fun e' => by
        subst e'
        have : 0 < b' := by omega
        omega
      exact ⟨k', by rw [Function.update_of_ne hne, hk']⟩
  · by_cases e : b' = b
    · simp [e]
    · rw [Function.update_of_ne e]
      exact h.reserved b' hb'

/-- A slot gives its resource back, and the bitmap clears it. -/
theorem release (h : Accounted own used lo hi) {k : κ} (hk : own k ≠ 0) :
    Accounted (Function.update own k 0) (Function.update used (own k) false) lo hi := by
  -- no other slot holds the released resource
  have hother : ∀ k', k' ≠ k → own k' ≠ own k := fun k' hne he =>
    hne (h.exclusive k k' hk he.symm).symm
  have hlo : lo ≤ own k := (h.within k hk).1
  refine ⟨h.within.update_zero k, h.exclusive.update_zero k, fun k' hk' => ?_,
    fun b h₁ h₂ hu => ?_, fun b hb => ?_⟩
  · have e : k' ≠ k := fun e => hk' (by rw [e, Function.update_self])
    rw [Function.update_of_ne e] at hk' ⊢
    rw [Function.update_of_ne (hother k' e)]
    exact h.marked k' hk'
  · have hb : b ≠ own k := fun e => by simp [e] at hu
    rw [Function.update_of_ne hb] at hu
    obtain ⟨k', hk'⟩ := h.held b h₁ h₂ hu
    have e : k' ≠ k := fun e => hb (by rw [← hk', e])
    exact ⟨k', by rw [Function.update_of_ne e, hk']⟩
  · have hb' : b ≠ own k := by omega
    rw [Function.update_of_ne hb']
    exact h.reserved b hb

end Accounted

/-! ### Resources held in sets -/

section Held

variable {α ι : Type*} {holds holds' : ι → Set α} {free free' : α → Bool}

/-- No resource is held by two holders, and a resource is free exactly when no holder holds it. -/
structure Held (holds : ι → Set α) (free : α → Bool) : Prop where
  disjoint : ∀ p q a, a ∈ holds p → a ∈ holds q → p = q
  free_iff : ∀ a, free a = true ↔ ∀ p, a ∉ holds p

/-- A free resource is held by no one. -/
theorem Held.not_mem_of_free (h : Held holds free) {a : α} (ha : free a = true) (p : ι) :
    a ∉ holds p :=
  (h.free_iff a).mp ha p

/-- A held resource is not free. -/
theorem Held.not_free (h : Held holds free) {a : α} {p : ι} (ha : a ∈ holds p) : free a = false := by
  by_contra hf
  exact h.not_mem_of_free (Bool.not_eq_false _ ▸ hf) p ha

/-- A holder that held nothing takes free resources, and they are no longer free. -/
theorem Held.take (h : Held holds free) {p : ι} (hp : holds p = ∅)
    (hfree_p : ∀ a ∈ holds' p, free a = true) (hother : ∀ q, q ≠ p → holds' q = holds q)
    (hfree : ∀ a, free' a = true ↔ free a = true ∧ a ∉ holds' p) : Held holds' free' := by
  constructor
  · intro q r a hq hr
    by_cases hqp : q = p
    · by_cases hrp : r = p
      · rw [hqp, hrp]
      · -- what `p` took was free, so `r` did not hold it
        rw [hother r hrp] at hr
        exact absurd hr (h.not_mem_of_free (hfree_p a (hqp ▸ hq)) r)
    · rw [hother q hqp] at hq
      by_cases hrp : r = p
      · exact absurd hq (h.not_mem_of_free (hfree_p a (hrp ▸ hr)) q)
      · rw [hother r hrp] at hr
        exact h.disjoint q r a hq hr
  · intro a
    rw [hfree, h.free_iff]
    constructor
    · rintro ⟨hall, hnot⟩ q
      by_cases hqp : q = p
      · exact hqp ▸ hnot
      · rw [hother q hqp]
        exact hall q
    · intro hall
      refine ⟨fun q => ?_, hall p⟩
      by_cases hqp : q = p
      · rw [hqp, hp]
        exact Set.notMem_empty a
      · rw [← hother q hqp]
        exact hall q

/-- A holder gives back all it holds, and those resources are free again. -/
theorem Held.release (h : Held holds free) {p : ι} (hp : holds' p = ∅)
    (hother : ∀ q, q ≠ p → holds' q = holds q)
    (hfree : ∀ a, free' a = true ↔ free a = true ∨ a ∈ holds p) : Held holds' free' := by
  constructor
  · intro q r a hq hr
    have hq' : q ≠ p := fun e => by rw [e, hp] at hq; exact hq
    have hr' : r ≠ p := fun e => by rw [e, hp] at hr; exact hr
    rw [hother q hq'] at hq
    rw [hother r hr'] at hr
    exact h.disjoint q r a hq hr
  · intro a
    rw [hfree, h.free_iff]
    constructor
    · rintro (hall | hap) q
      · by_cases hqp : q = p
        · rw [hqp, hp]
          exact Set.notMem_empty a
        · rw [hother q hqp]
          exact hall q
      · by_cases hqp : q = p
        · rw [hqp, hp]
          exact Set.notMem_empty a
        · -- `a` was `p`'s, so no one else held it
          rw [hother q hqp]
          exact fun hq => hqp (h.disjoint q p a hq hap)
    · intro hall
      by_cases hap : a ∈ holds p
      · exact .inr hap
      · refine .inl fun q => ?_
        by_cases hqp : q = p
        · exact hqp ▸ hap
        · rw [← hother q hqp]
          exact hall q

/-- A change that leaves the holders and the flags as they were. -/
theorem Held.congr (h : Held holds free) (hh : ∀ q, holds' q = holds q) (hf : ∀ a, free' a = free a) :
    Held holds' free' := by
  have e₁ : holds' = holds := funext hh
  have e₂ : free' = free := funext hf
  rw [e₁, e₂]
  exact h

end Held

end Ownership
