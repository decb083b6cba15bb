import Mathlib

/-!
# Ring buffers over free-running counters

A ring buffer of capacity `N` keeps its elements in cells `Fin N`, and two counters that only
ever grow: the position of the oldest element and the position one past the newest. A position
`x` lives in the cell `x % N`. A machine stores the counters modulo `M` (a `uint` wraps at
`2 ^ 32`); as long as `N` divides `M`, the cell of a stored counter is the cell of the true
one.

* `cell`, `contents` (the elements in order, oldest first);
* `contents_push`, `contents_pop`: writing past the newest element appends, and moving the
  oldest position on drops the head;
* `cell_mod`, `contents_mod`: counters stored modulo a multiple of `N` address the same cells;
* `cell_injective`: fewer than `N` consecutive positions occupy distinct cells;
* `dist`, `window`: the elements between two stored counters, with `window_push`,
  `window_pop`, `window_dropLast` and `window_append` for moving and splitting them.
-/

namespace Ring

variable {α : Type*} (N : ℕ) [NeZero N]

/-- The cell of the free-running position `x`. -/
def cell (x : ℕ) : Fin N := ⟨x % N, Nat.mod_lt _ (Nat.pos_of_neZero N)⟩

/-- The `len` elements at positions `head, head + 1, …`, oldest first. -/
def contents (data : Fin N → α) (head len : ℕ) : List α :=
  (List.range len).map fun j => data (cell N (head + j))

variable {N}

@[simp] theorem cell_val (x : ℕ) : (cell N x).val = x % N := rfl

@[simp] theorem length_contents (data : Fin N → α) (head len : ℕ) :
    (contents N data head len).length = len := by
  simp [contents]

@[simp] theorem contents_zero (data : Fin N → α) (head : ℕ) : contents N data head 0 = [] := rfl

/-- Two positions less than `N` apart, in order, have different cells. -/
theorem cell_injective {x j j' : ℕ} (hj : j < N) (hj' : j' < N)
    (h : cell N (x + j) = cell N (x + j')) : j = j' := by
  have hmod : j ≡ j' [MOD N] := Nat.ModEq.add_left_cancel' x (congrArg Fin.val h)
  rwa [Nat.ModEq, Nat.mod_eq_of_lt hj, Nat.mod_eq_of_lt hj'] at hmod

/-- Writing the cell past the newest of fewer than `N` elements appends to the contents. -/
theorem contents_push (data : Fin N → α) (head len : ℕ) (x : α) (hlen : len < N) :
    contents N (Function.update data (cell N (head + len)) x) head (len + 1) =
      contents N data head len ++ [x] := by
  rw [contents, List.range_succ, List.map_append, List.map_singleton, Function.update_self]
  congr 1
  apply List.map_congr_left
  intro j hj
  have hjl : j < len := List.mem_range.mp hj
  -- the older elements sit in other cells than the new one
  have hne : cell N (head + j) ≠ cell N (head + len) := fun h =>
    absurd (cell_injective (by omega) hlen h) (by omega)
  rw [Function.update_of_ne hne]

/-- Moving the oldest position on drops the head of the contents. -/
theorem contents_pop (data : Fin N → α) (head len : ℕ) :
    contents N data head (len + 1) = data (cell N head) :: contents N data (head + 1) len := by
  rw [contents, List.range_succ_eq_map, List.map_cons, List.map_map, Nat.add_zero]
  congr 1
  apply List.map_congr_left
  intro j _
  simp [Nat.add_assoc, Nat.add_comm 1 j]

variable {M : ℕ}

/-- A counter stored modulo a multiple of `N` lies in the cell of the true position. -/
theorem cell_mod (hNM : N ∣ M) (x : ℕ) : cell N (x % M) = cell N x := by
  ext
  simp [Nat.mod_mod_of_dvd x hNM]

theorem cell_mod_add (hNM : N ∣ M) (x j : ℕ) : cell N (x % M + j) = cell N (x + j) := by
  ext
  simp only [cell_val]
  rw [Nat.add_mod, Nat.mod_mod_of_dvd x hNM, ← Nat.add_mod]

theorem contents_mod (hNM : N ∣ M) (data : Fin N → α) (head len : ℕ) :
    contents N data (head % M) len = contents N data head len := by
  simp only [contents, cell_mod_add hNM]

/-- The first `a + b` elements are the first `a`, then the `b` after them. -/
theorem contents_add (data : Fin N → α) (head a b : ℕ) :
    contents N data head (a + b) = contents N data head a ++ contents N data (head + a) b := by
  simp only [contents, List.range_add, List.map_append, List.map_map]
  congr 1
  apply List.map_congr_left
  intro j _
  simp [Nat.add_assoc]

theorem contents_succ (data : Fin N → α) (head len : ℕ) :
    contents N data head (len + 1) = contents N data head len ++ [data (cell N (head + len))] := by
  rw [contents, List.range_succ, List.map_append, List.map_singleton]
  rfl

/-- Moving the newest position back drops the last element. -/
theorem contents_dropLast (data : Fin N → α) (head len : ℕ) :
    (contents N data head (len + 1)).dropLast = contents N data head len := by
  rw [contents_succ, List.dropLast_concat]

/-! ## Windows between two stored counters

The counters a machine keeps are the true positions modulo `M`; what lies between two of them is
the window from one counter for the distance to the other, `hi - lo` on unsigned words. -/

section Window

variable (N) (M : ℕ)

/-- `hi - lo` on unsigned words of range `M`. -/
def dist (lo hi : ℕ) : ℕ := (M - lo + hi) % M

/-- The elements from the counter `lo` up to the counter `hi`. -/
def window (data : Fin N → α) (lo hi : ℕ) : List α := contents N data lo (dist M lo hi)

variable {N M}

/-- The distance without `%`, for counters below `M`. -/
theorem dist_eq {lo hi : ℕ} (hlo : lo < M) (hhi : hi < M) :
    dist M lo hi = if lo ≤ hi then hi - lo else M - lo + hi := by
  unfold dist
  split_ifs with h
  · rw [Nat.mod_eq_sub_mod (by omega), Nat.mod_eq_of_lt (by omega)]
    omega
  · exact Nat.mod_eq_of_lt (by omega)

/-- `x + k` on unsigned words, without `%`. -/
theorem add_mod_eq {x k : ℕ} (hx : x < M) (hk : k < M) :
    (x + k) % M = if x + k < M then x + k else x + k - M := by
  split_ifs with h
  · exact Nat.mod_eq_of_lt h
  · rw [Nat.mod_eq_sub_mod (by omega), Nat.mod_eq_of_lt (by omega)]

theorem dist_lt {lo hi : ℕ} (hM : 0 < M) : dist M lo hi < M := Nat.mod_lt _ hM

theorem dist_self {lo : ℕ} (hlo : lo < M) : dist M lo lo = 0 := by
  rw [dist_eq hlo hlo, if_pos le_rfl, Nat.sub_self]

/-- Counters at distance `k` are `k` apart. -/
theorem dist_eq_iff {lo hi k : ℕ} (hlo : lo < M) (hhi : hi < M) (hk : k < M) :
    dist M lo hi = k ↔ hi = (lo + k) % M := by
  rw [dist_eq hlo hhi, add_mod_eq hlo hk]
  split_ifs <;> omega

theorem add_dist_mod {lo hi : ℕ} (hlo : lo < M) (hhi : hi < M) : (lo + dist M lo hi) % M = hi :=
  ((dist_eq_iff hlo hhi (dist_lt (by omega))).mp rfl).symm

@[simp] theorem length_window (data : Fin N → α) (lo hi : ℕ) :
    (window N M data lo hi).length = dist M lo hi :=
  length_contents ..

theorem window_self (data : Fin N → α) {lo : ℕ} (hlo : lo < M) : window N M data lo lo = [] := by
  rw [window, dist_self hlo]
  rfl

theorem window_eq_nil_iff (data : Fin N → α) {lo hi : ℕ} (hlo : lo < M) (hhi : hi < M) :
    window N M data lo hi = [] ↔ lo = hi := by
  rw [← List.length_eq_zero_iff, length_window, dist_eq hlo hhi]
  split_ifs <;> omega

/-- Moving `hi` back, when `lo` is elsewhere, shortens the distance by one. -/
theorem dist_pred {lo hi : ℕ} (hlo : lo < M) (hhi : hi < M) (hne : lo ≠ hi) :
    dist M lo hi = dist M lo ((M - 1 + hi) % M) + 1 := by
  rcases (show M - 1 + hi = hi - 1 + M ∨ M - 1 + hi < M by omega) with hM | hM
  · rw [hM, Nat.add_mod_right, Nat.mod_eq_of_lt (by omega), dist_eq hlo hhi,
      dist_eq hlo (by omega)]
    split_ifs <;> omega
  · rw [Nat.mod_eq_of_lt hM, dist_eq hlo hhi, dist_eq hlo hM]
    split_ifs <;> omega

/-- Moving `hi` back, when `lo` is elsewhere, drops the newest element. -/
theorem window_dropLast (data : Fin N → α) {lo hi : ℕ} (hlo : lo < M) (hhi : hi < M)
    (hne : lo ≠ hi) : window N M data lo ((M - 1 + hi) % M) = (window N M data lo hi).dropLast := by
  rw [window, window, dist_pred hlo hhi hne, contents_dropLast]

variable (hNM : N ∣ M)
include hNM

/-- Writing the cell of `hi`, fewer than `N` past `lo`, and moving `hi` on appends; also across
the wrap of either counter. -/
theorem window_push (hN : N < M) (data : Fin N → α) {lo hi : ℕ} (hlo : lo < M) (hhi : hi < M)
    (x : α) (h : dist M lo hi < N) :
    window N M (Function.update data (cell N hi) x) lo ((hi + 1) % M) =
      window N M data lo hi ++ [x] := by
  have hlen : dist M lo ((hi + 1) % M) = dist M lo hi + 1 := by
    rw [dist_eq_iff hlo (Nat.mod_lt _ (by omega)) (by omega), ← Nat.add_assoc,
      Nat.add_mod (lo + _), add_dist_mod hlo hhi, Nat.add_mod_mod]
  have hcell : cell N hi = cell N (lo + dist M lo hi) := by
    rw [← cell_mod hNM (lo + _), add_dist_mod hlo hhi]
  rw [window, window, hlen, hcell]
  exact contents_push data _ _ x h

/-- Moving `lo` on, when `hi` is elsewhere, takes the oldest element. -/
theorem window_pop (data : Fin N → α) {lo hi : ℕ} (hlo : lo < M) (hhi : hi < M) (hne : lo ≠ hi) :
    window N M data lo hi = data (cell N lo) :: window N M data ((lo + 1) % M) hi := by
  have hlen : dist M lo hi = dist M ((lo + 1) % M) hi + 1 := by
    rw [dist_eq hlo hhi, dist_eq (Nat.mod_lt _ (by omega)) hhi, add_mod_eq hlo (by omega)]
    split_ifs <;> omega
  rw [window, window, hlen, contents_pop, contents_mod hNM]

/-- A window with `lo` and `hi` apart ends with the element before `hi`. -/
theorem window_last (data : Fin N → α) {lo hi : ℕ} (hlo : lo < M) (hhi : hi < M) (hne : lo ≠ hi) :
    window N M data lo hi =
      window N M data lo ((M - 1 + hi) % M) ++ [data (cell N ((M - 1 + hi) % M))] := by
  have hpred : (M - 1 + hi) % M < M := Nat.mod_lt _ (by omega)
  rw [window, window, dist_pred hlo hhi hne, contents_succ, ← cell_mod hNM (lo + _),
    add_dist_mod hlo hpred]

/-- A counter `mid` between `lo` and `hi` splits the window. -/
theorem window_append (data : Fin N → α) {lo mid hi : ℕ} (hlo : lo < M) (hmid : mid < M)
    (hhi : hi < M) (h : dist M lo mid ≤ dist M lo hi) :
    window N M data lo hi = window N M data lo mid ++ window N M data mid hi := by
  have hlen : dist M lo hi = dist M lo mid + dist M mid hi := by
    rw [dist_eq hlo hhi, dist_eq hlo hmid, dist_eq hmid hhi] at *
    split_ifs at * <;> omega
  rw [window, window, window, hlen, contents_add, ← contents_mod hNM data (lo + _),
    add_dist_mod hlo hmid]

end Window

end Ring
