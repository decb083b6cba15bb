import Mathlib

/-!
# Totals over a table changed in one entry

A table is a function `φ : ι → β` over a finite index type, and a total is `∑ j, g (φ j)`
for some weight `g`. A step that changes one entry, `Function.update φ i x`, changes the
total by the weight of the new entry less the weight of the old one. In a commutative
monoid without subtraction (such as `ℕ`) that reads

  `∑ j, g (update φ i x j) + g (φ i) = ∑ j, g (φ j) + g x`.

Counts are totals of the weight `if P b then 1 else 0` (`Finset.card_filter`), so the same
lemma counts the entries with a property after the step.
-/

namespace TableTotal

open Finset

variable {ι β M : Type*} [Fintype ι] [DecidableEq ι] [AddCommMonoid M]

/-- The total after changing entry `i` to `x`. -/
theorem sum_update_add (g : β → M) (φ : ι → β) (i : ι) (x : β) :
    ∑ j, g (Function.update φ i x j) + g (φ i) = ∑ j, g (φ j) + g x := by
  have hcomp : (fun j => g (Function.update φ i x j)) = Function.update (g ∘ φ) i (g x) :=
    Function.comp_update g φ i x
  rw [hcomp, sum_update_of_mem (mem_univ i), sdiff_singleton_eq_erase,
    ← add_sum_erase univ (fun j => g (φ j)) (mem_univ i)]
  simp only [Function.comp_apply]
  ac_rfl

/-- A step that keeps the weight of the entry it changes keeps the total. -/
theorem sum_update_of_eq (g : β → M) (φ : ι → β) (i : ι) {x : β} (hx : g x = g (φ i)) :
    ∑ j, g (Function.update φ i x j) = ∑ j, g (φ j) := by
  have hcomp : (fun j => g (Function.update φ i x j)) = Function.update (g ∘ φ) i (g x) :=
    Function.comp_update g φ i x
  rw [hcomp, hx]
  show ∑ j, Function.update (g ∘ φ) i ((g ∘ φ) i) j = _
  rw [Function.update_eq_self]
  rfl

end TableTotal
