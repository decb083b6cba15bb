import Mathlib

/-!
# Move-to-front lists are ordered by recency

A list that moves an element to its front each time the element is touched stays ordered by
last touch. After the touches `ts`, oldest first, it is the touched elements, most recently
touched first and each once, followed by the untouched ones in their first order
(`touchAll_eq`). So the last element of the list with some property is the one of them
touched longest ago, or never touched.
-/

namespace MoveToFront

variable {α : Type*} [DecidableEq α]

/-- Move `a` to the front. -/
def touch (l : List α) (a : α) : List α :=
  a :: l.erase a

/-- The touches `ts`, oldest first. -/
def touchAll (l ts : List α) : List α :=
  ts.foldl touch l

/-- The order of last touch: the touched elements, newest first, then the others in their order
in `l`. -/
def byRecency (l ts : List α) : List α :=
  ts.dedup.reverse ++ l.filter (· ∉ ts)

@[simp] theorem touchAll_nil (l : List α) : touchAll l [] = l := rfl

theorem touchAll_cons (l : List α) (a : α) (ts : List α) :
    touchAll l (a :: ts) = touchAll (touch l a) ts := rfl

theorem touchAll_append (l ts us : List α) :
    touchAll l (ts ++ us) = touchAll (touchAll l ts) us :=
  List.foldl_append

theorem nodup_touch {l : List α} (hl : l.Nodup) (a : α) : (touch l a).Nodup :=
  List.nodup_cons.2 ⟨List.Nodup.not_mem_erase hl, hl.erase a⟩

theorem nodup_touchAll {l : List α} (hl : l.Nodup) (ts : List α) : (touchAll l ts).Nodup := by
  induction ts generalizing l with
  | nil => exact hl
  | cons a ts ih => exact ih (nodup_touch hl a)

/-- Dropping `a` and then the elements of `ts` drops the elements of `a :: ts`. -/
theorem filter_erase {l : List α} (hl : l.Nodup) (a : α) (ts : List α) :
    (l.erase a).filter (· ∉ ts) = l.filter (· ∉ a :: ts) := by
  rw [hl.erase_eq_filter, List.filter_filter]
  congr 1
  funext x
  by_cases hx : x = a <;> simp [hx]

/-- The touches put the list in the order of last touch. -/
theorem touchAll_eq {l : List α} (hl : l.Nodup) (ts : List α) :
    touchAll l ts = byRecency l ts := by
  induction ts generalizing l with
  | nil => simp [byRecency]
  | cons a ts ih =>
    rw [touchAll_cons, ih (nodup_touch hl a), byRecency, byRecency, touch]
    by_cases ha : a ∈ ts
    · -- `a` is touched again later: this touch is forgotten
      rw [List.dedup_cons_of_mem ha, List.filter_cons_of_neg (by simpa using ha),
        filter_erase hl]
    · -- this is `a`'s last touch: it goes behind every later one
      rw [List.dedup_cons_of_notMem ha, List.filter_cons_of_pos (by simpa using ha),
        filter_erase hl, List.reverse_cons, List.append_assoc, List.singleton_append]

theorem byRecency_nodup {l : List α} (hl : l.Nodup) (ts : List α) : (byRecency l ts).Nodup :=
  touchAll_eq hl ts ▸ nodup_touchAll hl ts

/-- Every element of `l` keeps its place in the order, and the touched ones come in. -/
theorem mem_byRecency {l ts : List α} {a : α} : a ∈ byRecency l ts ↔ a ∈ ts ∨ a ∈ l := by
  rw [byRecency, List.mem_append, List.mem_reverse, List.mem_dedup, List.mem_filter]
  by_cases ha : a ∈ ts <;> simp [ha]

end MoveToFront
