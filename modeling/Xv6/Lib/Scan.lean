import Mathlib

/-!
# First-fit scans

A loop `for(i = lo; i < hi; i++) if(p(i)) return i;` is `List.find?` over a range of
indices. These lemmas say which index such a scan returns: the first one that passes the
test, all those before it failing.

* `find?_range_eq_some_iff`, `find?_range'_eq_some_iff`: scans over `0, …, n - 1` and over
  `s, …, s + n - 1`;
* `find?_finRange_eq_some_iff`: the scan over the slots of a table of `n` entries.
-/

namespace Scan

theorem find?_range'_eq_some_iff {p : ℕ → Bool} {s n b : ℕ} :
    (List.range' s n).find? p = some b ↔ s ≤ b ∧ b < s + n ∧ p b ∧ ∀ j, s ≤ j → j < b → p j = false := by
  induction n generalizing s with
  | zero =>
    simp only [List.range'_zero, List.find?_nil, reduceCtorEq, false_iff]
    rintro ⟨h₁, h₂, -⟩
    omega
  | succ n ih =>
    rw [List.range'_succ, List.find?_cons]
    cases hs : p s with
    | true =>
      -- the scan stops at once
      constructor
      · intro h
        obtain rfl : s = b := Option.some.inj h
        exact ⟨Nat.le_refl s, by omega, hs, fun j h₁ h₂ => absurd h₂ (by omega)⟩
      · rintro ⟨h₁, -, -, hb⟩
        have hnlt : ¬ s < b := fun hlt => by simp [hb s (Nat.le_refl s) hlt] at hs
        rw [show s = b by omega]
    | false =>
      rw [ih]
      constructor
      · rintro ⟨h₁, h₂, hpb, hb⟩
        refine ⟨by omega, by omega, hpb, fun j hj₁ hj₂ => ?_⟩
        rcases Nat.eq_or_lt_of_le hj₁ with rfl | hj
        · exact hs
        · exact hb j hj hj₂
      · rintro ⟨h₁, h₂, hpb, hb⟩
        have hsb : s ≠ b := fun h => by simp [h ▸ hs] at hpb
        exact ⟨by omega, by omega, hpb, fun j hj₁ hj₂ => hb j (by omega) hj₂⟩

theorem find?_range_eq_some_iff {p : ℕ → Bool} {n b : ℕ} :
    (List.range n).find? p = some b ↔ b < n ∧ p b ∧ ∀ j, j < b → p j = false := by
  rw [List.range_eq_range', find?_range'_eq_some_iff]
  simp

theorem find?_finRange_eq_some_iff {n : ℕ} {p : Fin n → Bool} {i : Fin n} :
    (List.finRange n).find? p = some i ↔ p i ∧ ∀ j, j < i → p j = false := by
  rw [List.find?_eq_some_iff_getElem]
  constructor
  · rintro ⟨hpi, k, hk, hki, hbefore⟩
    refine ⟨hpi, fun j hj => ?_⟩
    have hk' : k = i.val := by simpa [Fin.ext_iff] using hki
    have := hbefore j.val (by rw [hk']; exact hj)
    simpa using this
  · rintro ⟨hpi, hbefore⟩
    refine ⟨hpi, i.val, by simp, by simp, fun j hj => ?_⟩
    have := hbefore ⟨j, by omega⟩ (by simpa [Fin.lt_def] using hj)
    simpa using this

end Scan
