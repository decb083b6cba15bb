import Mathlib

/-!
# Writing a run of values into a sequence

A sequence is a function `c : ℕ → α`; `overlay c lo n d` writes the `n` values `d 0, …, d (n - 1)`
at positions `lo, …, lo + n - 1`. Its first `N` values as a list are `(List.range N).map c`.

* `map_range_overlay`: writing at `lo ≤ N`, the first `max N (lo + n)` values are the first
  `lo` old ones, the `n` new ones, then the old ones past `lo + n`;
* `take_drop_map_range`: the `n` values from `lo` on, cut at `N`;
* `take_drop_overwrite`: the same for a list, written over from `off` on;
* `map_range_getD`: the values of a list from `i` on, read one at a time.
-/

namespace Overlay

variable {α : Type*}

/-- `c` with `d 0, …, d (n - 1)` written at `lo, …, lo + n - 1`. -/
def overlay (c : ℕ → α) (lo n : ℕ) (d : ℕ → α) : ℕ → α :=
  fun k => if lo ≤ k ∧ k < lo + n then d (k - lo) else c k

variable (c : ℕ → α) {lo n : ℕ} (d : ℕ → α)

theorem overlay_of_mem {k : ℕ} (h₁ : lo ≤ k) (h₂ : k < lo + n) : overlay c lo n d k = d (k - lo) :=
  if_pos ⟨h₁, h₂⟩

theorem overlay_of_not_mem {k : ℕ} (h : k < lo ∨ lo + n ≤ k) : overlay c lo n d k = c k :=
  if_neg (by omega)

/-- Writing `n` values at `lo ≤ N`. -/
theorem map_range_overlay {N : ℕ} (h : lo ≤ N) :
    (List.range (max N (lo + n))).map (overlay c lo n d) =
      ((List.range N).map c).take lo ++ (List.range n).map d ++ ((List.range N).map c).drop (lo + n) := by
  apply List.ext_getElem
  · simp only [List.length_map, List.length_range, List.length_append, List.length_take,
      List.length_drop]
    omega
  intro k h₁ h₂
  simp only [List.length_map, List.length_range] at h₁
  rw [List.getElem_map, List.getElem_range]
  by_cases hlo : k < lo
  · -- before the run
    rw [List.getElem_append_left (by simp; omega), List.getElem_append_left (by simp; omega),
      List.getElem_take, List.getElem_map, List.getElem_range, overlay_of_not_mem c d (.inl hlo)]
  by_cases hrun : k < lo + n
  · -- in the run
    rw [List.getElem_append_left (by simp; omega), List.getElem_append_right (by simp; omega)]
    simp only [List.getElem_map, List.getElem_range, List.length_take, List.length_map,
      List.length_range]
    rw [overlay_of_mem c d (by omega) hrun, Nat.min_eq_left h]
  · -- past the run
    rw [List.getElem_append_right (by simp; omega)]
    simp only [List.getElem_drop, List.getElem_map, List.getElem_range, List.length_append,
      List.length_take, List.length_map, List.length_range]
    rw [overlay_of_not_mem c d (.inr (by omega))]
    congr 1
    omega

/-- The values from `lo` on, at most `n` of them, within the first `N`. -/
theorem take_drop_map_range {N : ℕ} (n : ℕ) :
    (((List.range N).map c).drop lo).take n = (List.range (min n (N - lo))).map fun j => c (lo + j) := by
  apply List.ext_getElem
  · simp
  intro k h₁ h₂
  simp only [List.getElem_take, List.getElem_drop, List.getElem_map, List.getElem_range]

/-- A list with `ys` written from `off` on: from `lo ≤ off` to the end of `ys`, the old values
before `off`, then `ys`. -/
theorem take_drop_overwrite {xs ys zs : List α} {lo off : ℕ} (h₁ : lo ≤ off) (h₂ : off ≤ xs.length) :
    ((xs.take off ++ ys ++ zs).drop lo).take (off - lo + ys.length) =
      (xs.drop lo).take (off - lo) ++ ys := by
  have hlen : ((xs.take off).drop lo).length = off - lo := by
    simp only [List.length_drop, List.length_take]
    omega
  rw [List.append_assoc, List.drop_append_of_le_length (by simp; omega), List.take_append,
    List.take_of_length_le (by omega), hlen, Nat.add_sub_cancel_left, List.take_left' rfl,
    List.drop_take]

/-- Reading `n` values of a list one at a time from `i` on, where it has them. -/
theorem map_range_getD (xs : List α) (a : α) {i n : ℕ} (h : i + n ≤ xs.length) :
    (List.range n).map (fun j => (xs[i + j]?).getD a) = (xs.drop i).take n := by
  apply List.ext_getElem
  · simp only [List.length_map, List.length_range, List.length_take, List.length_drop]
    omega
  intro k h₁ h₂
  simp only [List.length_map, List.length_range] at h₁
  rw [List.getElem_map, List.getElem_range, List.getElem_take, List.getElem_drop,
    List.getElem?_eq_getElem (by omega), Option.getD_some]

end Overlay
