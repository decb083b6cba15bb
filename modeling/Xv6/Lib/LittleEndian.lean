import Mathlib

/-!
# Little-endian integers in byte memory

A memory is a function `c : ℕ → UInt8` from addresses to bytes. `get w c o` reads the
`w`-byte little-endian unsigned integer stored at address `o`, and `set w c o v` stores the
low `w` bytes of `v` there.

* `get_set_self`: a stored value below `256 ^ w` reads back;
* `get_set_of_le`, `get_set_of_ge`: a store leaves every other non-overlapping integer alone;
* `get_congr`: an integer depends only on its own bytes;
* `get_zero`: zeroed memory reads `0`.
-/

namespace LittleEndian

/-- The `w`-byte little-endian integer at address `o`. -/
def get : ℕ → (ℕ → UInt8) → ℕ → ℕ
  | 0, _, _ => 0
  | w + 1, c, o => (c o).toNat + 256 * get w c (o + 1)

/-- Store the low `w` bytes of `v` at address `o`, least significant first. -/
def set : ℕ → (ℕ → UInt8) → ℕ → ℕ → (ℕ → UInt8)
  | 0, c, _, _ => c
  | w + 1, c, o, v => Function.update (set w c (o + 1) (v / 256)) o (v % 256).toUInt8

variable {c c' : ℕ → UInt8}

theorem get_congr {w o : ℕ} (h : ∀ k, o ≤ k → k < o + w → c k = c' k) : get w c o = get w c' o := by
  induction w generalizing o with
  | zero => rfl
  | succ w ih =>
    simp only [get]
    rw [h o (Nat.le_refl o) (by omega), ih fun k hk₁ hk₂ => h k (by omega) (by omega)]

/-- A store changes only its own `w` bytes. -/
theorem set_apply_of_not_mem {w o v k : ℕ} (hk : k < o ∨ o + w ≤ k) : set w c o v k = c k := by
  induction w generalizing o v with
  | zero => rfl
  | succ w ih =>
    simp only [set]
    rw [Function.update_of_ne (by omega), ih (by omega)]

theorem get_set_self {w o v : ℕ} (hv : v < 256 ^ w) : get w (set w c o v) o = v := by
  induction w generalizing o v with
  | zero =>
    simp only [Nat.pow_zero] at hv
    simp only [get]
    omega
  | succ w ih =>
    simp only [get, set, Function.update_self]
    -- the higher bytes hold `v / 256`, untouched by the store of the lowest one
    have hrest : get w (Function.update (set w c (o + 1) (v / 256)) o (v % 256).toUInt8) (o + 1) =
        get w (set w c (o + 1) (v / 256)) (o + 1) :=
      get_congr fun k hk _ => Function.update_of_ne (by omega) _ _
    have hv' : v / 256 < 256 ^ w := by
      rw [Nat.pow_succ] at hv
      omega
    rw [hrest, ih hv', Nat.toUInt8_eq, UInt8.toNat_ofNat']
    omega

theorem get_set_of_le {w w' o o' v : ℕ} (h : o' + w' ≤ o) : get w' (set w c o v) o' = get w' c o' :=
  get_congr fun _ _ hk => set_apply_of_not_mem (.inl (by omega))

theorem get_set_of_ge {w w' o o' v : ℕ} (h : o + w ≤ o') : get w' (set w c o v) o' = get w' c o' :=
  get_congr fun _ hk _ => set_apply_of_not_mem (.inr (by omega))

theorem get_zero (w o : ℕ) : get w (fun _ => 0) o = 0 := by
  induction w generalizing o with
  | zero => rfl
  | succ w ih => simp [get, ih]

theorem get_lt (w : ℕ) (c : ℕ → UInt8) (o : ℕ) : get w c o < 256 ^ w := by
  induction w generalizing o with
  | zero => simp [get]
  | succ w ih =>
    have h₁ := (c o).toNat_lt
    have h₂ := ih (o + 1)
    simp only [get, Nat.pow_succ]
    -- `x + 256 * y < 256 ^ w * 256` from `x < 256` and `y < 256 ^ w`
    have : 256 * get w c (o + 1) + 256 ≤ 256 ^ w * 256 := by
      rw [Nat.mul_comm (256 ^ w)]
      exact Nat.mul_le_mul_left 256 h₂
    omega

end LittleEndian
