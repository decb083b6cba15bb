import Mathlib

/-!
# Copying bytes through 64-bit pointers

The two loops of a `memmove`: `while(n-- > 0) *d++ = *s++;` (`copyUp`), and
`while(n-- > 0) *--d = *--s;` from one past the ends of the ranges (`copyDown`), over a memory
that holds a value at every 64-bit address. `Moved m m' dst src n` says that `m'` holds at
`dst + i` what `m` held at `src + i`, for every `i < n`, and what `m` held everywhere else.

When neither range runs past the top of the address space, the forward loop moves the bytes
unless the destination starts inside the source after its first byte (`copyUp_moved`), and the
backward loop unless the source starts inside the destination after its first byte
(`copyDown_moved`): the bytes a loop still has to read are never written first.

A copy made in pieces, such as one through a page table, reads and writes addresses that need not
be contiguous: `Transfer m m' dst src n` says that `m'` holds at `dst i` what `m` held at `src i`,
for every `i < n`, and what `m` held everywhere else. Two transfers make one when the second
neither reads nor writes an address the first wrote (`Transfer.append`).
-/

namespace ByteCopy

variable {α : Type*}

/-- `while(n-- > 0) *d++ = *s++;` -/
def copyUp (m : BitVec 64 → α) (d s : BitVec 64) : ℕ → BitVec 64 → α
  | 0 => m
  | n + 1 => copyUp (Function.update m d (m s)) (d + 1) (s + 1) n

/-- `while(n-- > 0) *--d = *--s;`, with `d` and `s` one past the ends of the ranges. -/
def copyDown (m : BitVec 64 → α) (d s : BitVec 64) : ℕ → BitVec 64 → α
  | 0 => m
  | n + 1 => copyDown (Function.update m (d - 1) (m (s - 1))) (d - 1) (s - 1) n

/-- `m'` is `m` with the `n` bytes at `src` moved to `dst`. -/
structure Moved (m m' : BitVec 64 → α) (dst src : BitVec 64) (n : ℕ) : Prop where
  copied : ∀ i < n, m' (dst + BitVec.ofNat 64 i) = m (src + BitVec.ofNat 64 i)
  frame : ∀ a, (∀ i < n, a ≠ dst + BitVec.ofNat 64 i) → m' a = m a

theorem Moved.zero (m : BitVec 64 → α) (dst src : BitVec 64) : Moved m m dst src 0 :=
  ⟨fun i hi => absurd hi (Nat.not_lt_zero i), fun _ _ => rfl⟩

/-- Below the top of the address space, `p + i` is the number `p + i`. -/
theorem toNat_add_ofNat (p : BitVec 64) {i : ℕ} (h : p.toNat + i < 2 ^ 64) :
    (p + BitVec.ofNat 64 i).toNat = p.toNat + i := by
  simp only [BitVec.toNat_add, BitVec.toNat_ofNat]
  rw [Nat.mod_eq_of_lt (show i < 2 ^ 64 by omega), Nat.mod_eq_of_lt h]

/-- Two addresses below the top of the address space are equal only as numbers. -/
theorem add_ofNat_ne {p q : BitVec 64} {i j : ℕ} (hp : p.toNat + i < 2 ^ 64)
    (hq : q.toNat + j < 2 ^ 64) (h : p.toNat + i ≠ q.toNat + j) :
    p + BitVec.ofNat 64 i ≠ q + BitVec.ofNat 64 j := fun he =>
  h (by rw [← toNat_add_ofNat p hp, ← toNat_add_ofNat q hq, he])

theorem add_one_add_ofNat (p : BitVec 64) (i : ℕ) :
    p + 1 + BitVec.ofNat 64 i = p + BitVec.ofNat 64 (i + 1) := by
  rw [BitVec.add_assoc, BitVec.ofNat_add, BitVec.add_comm 1]
  rfl

theorem ofNat_add_one_sub_one (p : BitVec 64) (n : ℕ) :
    p + BitVec.ofNat 64 (n + 1) - 1 = p + BitVec.ofNat 64 n := by
  rw [← add_one_add_ofNat, BitVec.add_assoc, BitVec.add_comm 1, ← BitVec.add_assoc,
    BitVec.add_sub_cancel]

theorem add_ofNat_zero (p : BitVec 64) : p + BitVec.ofNat 64 0 = p :=
  BitVec.add_zero p

/-- The forward loop moves the bytes when the destination is below the source or past its
end. -/
theorem copyUp_moved (m : BitVec 64 → α) (dst src : BitVec 64) (n : ℕ)
    (hs : src.toNat + n ≤ 2 ^ 64) (hd : dst.toNat + n ≤ 2 ^ 64)
    (hdir : dst.toNat ≤ src.toNat ∨ src.toNat + n ≤ dst.toNat) :
    Moved m (copyUp m dst src n) dst src n := by
  induction n generalizing m dst src with
  | zero => exact Moved.zero m dst src
  | succ n ih =>
    -- the first byte, then the loop from `dst + 1` and `src + 1`
    have h := ih (Function.update m dst (m src)) (dst + 1) (src + 1) (by bv_omega) (by bv_omega)
      (by bv_omega)
    rw [copyUp]
    refine ⟨fun i hi => ?_, fun a ha => ?_⟩
    · rcases i with _ | i
      · -- the loop does not come back to `dst`
        have hfirst : ∀ j < n, dst + BitVec.ofNat 64 0 ≠ dst + 1 + BitVec.ofNat 64 j := by
          intro j hj
          rw [add_one_add_ofNat]
          exact add_ofNat_ne (by omega) (by omega) (by omega)
        rw [h.frame _ hfirst, add_ofNat_zero, add_ofNat_zero, Function.update_self]
      · -- the byte it reads at `src + i + 1` is not the one it wrote at `dst`
        have hne : src + BitVec.ofNat 64 (i + 1) ≠ dst + BitVec.ofNat 64 0 :=
          add_ofNat_ne (by omega) (by omega) (by omega)
        rw [← add_one_add_ofNat, h.copied i (by omega), add_one_add_ofNat,
          Function.update_of_ne (by simpa using hne)]
    · have ha' : ∀ j < n, a ≠ dst + 1 + BitVec.ofNat 64 j := fun j hj => by
        rw [add_one_add_ofNat]
        exact ha (j + 1) (by omega)
      rw [h.frame a ha', Function.update_of_ne (by simpa using ha 0 (by omega))]

/-- The backward loop moves the bytes when the source is below the destination or past its
end. -/
theorem copyDown_moved (m : BitVec 64 → α) (dst src : BitVec 64) (n : ℕ)
    (hs : src.toNat + n ≤ 2 ^ 64) (hd : dst.toNat + n ≤ 2 ^ 64)
    (hdir : src.toNat ≤ dst.toNat ∨ dst.toNat + n ≤ src.toNat) :
    Moved m (copyDown m (dst + BitVec.ofNat 64 n) (src + BitVec.ofNat 64 n) n) dst src n := by
  induction n generalizing m with
  | zero => exact Moved.zero m dst src
  | succ n ih =>
    -- the last byte, then the loop over the first `n`
    have h := ih (Function.update m (dst + BitVec.ofNat 64 n) (m (src + BitVec.ofNat 64 n)))
      (by omega) (by omega) (by omega)
    rw [copyDown, ofNat_add_one_sub_one, ofNat_add_one_sub_one]
    refine ⟨fun i hi => ?_, fun a ha => ?_⟩
    · rcases Nat.lt_succ_iff_lt_or_eq.1 hi with hi | rfl
      · -- the byte it reads at `src + i` is not the one it wrote at `dst + n`
        have hne : src + BitVec.ofNat 64 i ≠ dst + BitVec.ofNat 64 n :=
          add_ofNat_ne (by omega) (by omega) (by omega)
        rw [h.copied i hi, Function.update_of_ne hne]
      · have hlast : ∀ j < i, dst + BitVec.ofNat 64 i ≠ dst + BitVec.ofNat 64 j := fun j hj =>
          add_ofNat_ne (by omega) (by omega) (by omega)
        rw [h.frame _ hlast, Function.update_self]
    · rw [h.frame a fun j hj => ha j (by omega), Function.update_of_ne (ha n (by omega))]

/-! ### Copies between scattered addresses -/

/-- `m'` is `m` with the value at `src i` written to `dst i`, for every `i < n`. -/
structure Transfer (m m' : BitVec 64 → α) (dst src : ℕ → BitVec 64) (n : ℕ) : Prop where
  copied : ∀ i < n, m' (dst i) = m (src i)
  frame : ∀ a, (∀ i < n, a ≠ dst i) → m' a = m a

theorem Transfer.zero (m : BitVec 64 → α) (dst src : ℕ → BitVec 64) : Transfer m m dst src 0 :=
  ⟨fun i hi => absurd hi (Nat.not_lt_zero i), fun _ _ => rfl⟩

theorem Moved.transfer {m m' : BitVec 64 → α} {dst src : BitVec 64} {n : ℕ}
    (h : Moved m m' dst src n) :
    Transfer m m' (fun i => dst + BitVec.ofNat 64 i) (fun i => src + BitVec.ofNat 64 i) n :=
  ⟨h.copied, h.frame⟩

/-- A transfer of `k` values and then one of `l` more is a transfer of `k + l`, when the second
neither reads nor writes an address the first wrote. -/
theorem Transfer.append {m m₁ m₂ : BitVec 64 → α} {dst src : ℕ → BitVec 64} {k l : ℕ}
    (h₁ : Transfer m m₁ dst src k)
    (h₂ : Transfer m₁ m₂ (fun i => dst (k + i)) (fun i => src (k + i)) l)
    (hread : ∀ i < l, ∀ j < k, src (k + i) ≠ dst j)
    (hwrite : ∀ i < l, ∀ j < k, dst (k + i) ≠ dst j) :
    Transfer m m₂ dst src (k + l) := by
  refine ⟨fun i hi => ?_, fun a ha => ?_⟩
  · rcases Nat.lt_or_ge i k with hik | hki
    · -- written by the first part, and left alone by the second
      rw [h₂.frame _ fun j hj => (hwrite j hj i hik).symm, h₁.copied i hik]
    · -- written by the second part, from an address the first did not touch
      obtain ⟨j, rfl⟩ := Nat.exists_eq_add_of_le hki
      rw [h₂.copied j (by omega), h₁.frame _ (hread j (by omega))]
  · rw [h₂.frame a fun j hj => ha (k + j) (by omega), h₁.frame a fun j hj => ha j (by omega)]

/-- One value, written over `m`. -/
theorem Transfer.single (m : BitVec 64 → α) (dst src : ℕ → BitVec 64) :
    Transfer m (Function.update m (dst 0) (m (src 0))) dst src 1 := by
  refine ⟨fun i hi => ?_, fun a ha => Function.update_of_ne (ha 0 Nat.one_pos) _ _⟩
  rw [Nat.lt_one_iff.1 hi, Function.update_self]

/-- A transfer with the same addresses read another way. -/
theorem Transfer.congr {m m' : BitVec 64 → α} {dst dst' src src' : ℕ → BitVec 64} {n : ℕ}
    (h : Transfer m m' dst src n) (hd : ∀ i < n, dst' i = dst i) (hs : ∀ i < n, src' i = src i) :
    Transfer m m' dst' src' n :=
  ⟨fun i hi => by rw [hd i hi, hs i hi, h.copied i hi],
    fun a ha => h.frame a fun i hi => hd i hi ▸ ha i hi⟩

/-- A first value, and then `l` more that neither read nor write where the first went. -/
theorem Transfer.cons {m m₂ : BitVec 64 → α} {dst src : ℕ → BitVec 64} {l : ℕ}
    (h : Transfer (Function.update m (dst 0) (m (src 0))) m₂ (fun i => dst (i + 1))
      (fun i => src (i + 1)) l)
    (hread : ∀ i < l, src (i + 1) ≠ dst 0) (hwrite : ∀ i < l, dst (i + 1) ≠ dst 0) :
    Transfer m m₂ dst src (l + 1) := by
  have h' : Transfer (Function.update m (dst 0) (m (src 0))) m₂ (fun i => dst (1 + i))
      (fun i => src (1 + i)) l :=
    h.congr (fun i _ => by rw [Nat.add_comm]) (fun i _ => by rw [Nat.add_comm])
  rw [Nat.add_comm]
  exact (Transfer.single m dst src).append h'
    (fun i hi j hj => by rw [Nat.lt_one_iff.1 hj, Nat.add_comm]; exact hread i hi)
    (fun i hi j hj => by rw [Nat.lt_one_iff.1 hj, Nat.add_comm]; exact hwrite i hi)

end ByteCopy
