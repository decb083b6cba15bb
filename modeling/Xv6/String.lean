import Mathlib
import Xv6.Lib.Copy

/-!
# memmove and memset (kernel/string.c, user/ulib.c)

Both `memmove`s copy `n` bytes from `src` to `dst` through `char` pointers and choose the
direction of the copy by comparing the pointers, as 64-bit unsigned numbers. The kernel's takes
a `uint n` and copies backwards when `s < d && s + n > d`; the user library's takes an `int n`,
copies forwards when `src > dst` and backwards otherwise, and its loop `while(n-- > 0)` copies
nothing for `n <= 0`. The kernel's `memset` writes `c` into the `n` bytes from `dst`. Memory
holds a value at every 64-bit address (`ByteCopy`).

* `memmove_moves_bytes`: both move the bytes, however the ranges overlap, when neither range
  runs past the top of the address space;
* `memmove_wraps`: a destination range that does, and each `memmove` copies a byte it has
  already overwritten.
-/

namespace Xv6

open ByteCopy

variable {α : Type*}

/-- `memmove(dst, src, n)` of kernel/string.c. -/
def memmove (m : BitVec 64 → α) (dst src : BitVec 64) (n : BitVec 32) : BitVec 64 → α :=
  if n = 0 then m
  else if src < dst ∧ src + n.setWidth 64 > dst then
    copyDown m (dst + n.setWidth 64) (src + n.setWidth 64) n.toNat
  else copyUp m dst src n.toNat

/-- `memset(dst, c, n)` of kernel/string.c: `cdst[i] = c` for each `i < n`. The loop's `int i`
would overflow before a count of `2^31`; no caller comes near. -/
def memset (m : BitVec 64 → α) (dst : BitVec 64) (c : α) (n : BitVec 32) : BitVec 64 → α :=
  fun a => if (a - dst).toNat < n.toNat then c else m a

namespace ULib

/-- `memmove(vdst, vsrc, n)` of user/ulib.c; `dst += n` adds the `int` sign-extended, and
the loop runs `max n 0` times. -/
def memmove (m : BitVec 64 → α) (dst src : BitVec 64) (n : BitVec 32) : BitVec 64 → α :=
  if src > dst then copyUp m dst src n.toInt.toNat
  else copyDown m (dst + n.signExtend 64) (src + n.signExtend 64) n.toInt.toNat

end ULib

theorem setWidth_eq_ofNat (n : BitVec 32) : n.setWidth 64 = BitVec.ofNat 64 n.toNat := by
  apply BitVec.eq_of_toNat_eq
  rw [BitVec.toNat_setWidth, BitVec.toNat_ofNat]

/-- A positive `int` sign-extends to its value. -/
theorem signExtend_eq_ofNat {n : BitVec 32} (h : 0 < n.toInt) :
    n.signExtend 64 = BitVec.ofNat 64 n.toInt.toNat := by
  have hmsb : n.msb = false :=
    BitVec.msb_eq_false_iff_two_mul_lt.2 (BitVec.toInt_pos_iff.1 (Int.le_of_lt h))
  rw [BitVec.signExtend_eq_setWidth_of_msb_false hmsb, setWidth_eq_ofNat,
    BitVec.toInt_eq_toNat_of_msb hmsb, Int.toNat_natCast]

theorem memmove_moved (m : BitVec 64 → α) (dst src : BitVec 64) (n : BitVec 32)
    (hs : src.toNat + n.toNat ≤ 2 ^ 64) (hd : dst.toNat + n.toNat ≤ 2 ^ 64) :
    Moved m (memmove m dst src n) dst src n.toNat := by
  unfold memmove
  split_ifs with h0 hback
  · -- `n == 0`: the early return
    subst h0
    exact Moved.zero m dst src
  · -- the source starts below the destination and runs into it: backwards
    rw [setWidth_eq_ofNat]
    exact copyDown_moved m dst src n.toNat hs hd (Or.inl (Nat.le_of_lt hback.1))
  · -- the destination is below the source, or past its end: forwards
    refine copyUp_moved m dst src n.toNat hs hd ?_
    rw [setWidth_eq_ofNat] at hback
    bv_omega

theorem ULib.memmove_moved (m : BitVec 64 → α) (dst src : BitVec 64) (n : BitVec 32)
    (hs : src.toNat + n.toInt.toNat ≤ 2 ^ 64) (hd : dst.toNat + n.toInt.toNat ≤ 2 ^ 64) :
    Moved m (ULib.memmove m dst src n) dst src n.toInt.toNat := by
  unfold ULib.memmove
  split_ifs with hfwd
  · exact copyUp_moved m dst src _ hs hd (Or.inl (Nat.le_of_lt hfwd))
  · rcases Int.lt_or_le 0 n.toInt with hpos | hneg
    · rw [signExtend_eq_ofNat hpos]
      exact copyDown_moved m dst src _ hs hd (Or.inl (by bv_omega))
    · -- `n <= 0`: the loop does not run
      rw [Int.toNat_of_nonpos hneg]
      exact Moved.zero m dst src

/-- Both `memmove`s move the bytes from before the call, the ranges overlapping in either
direction, when neither range runs past the top of the address space. -/
theorem memmove_moves_bytes (m : BitVec 64 → α) (dst src : BitVec 64) :
    (∀ n : BitVec 32, src.toNat + n.toNat ≤ 2 ^ 64 → dst.toNat + n.toNat ≤ 2 ^ 64 →
      Moved m (memmove m dst src n) dst src n.toNat) ∧
    (∀ n : BitVec 32, src.toNat + n.toInt.toNat ≤ 2 ^ 64 → dst.toNat + n.toInt.toNat ≤ 2 ^ 64 →
      Moved m (ULib.memmove m dst src n) dst src n.toInt.toNat) :=
  ⟨memmove_moved m dst src, ULib.memmove_moved m dst src⟩

/-- Eight bytes moved four bytes up, onto themselves. -/
theorem memmove_moves_bytes_overlap :
    Moved (fun a : BitVec 64 => a.toNat) (memmove (fun a => a.toNat) 8 4 8) 8 4 8 ∧
      Moved (fun a : BitVec 64 => a.toNat) (ULib.memmove (fun a => a.toNat) 8 4 8) 8 4 8 :=
  ⟨(memmove_moves_bytes (fun a : BitVec 64 => a.toNat) 8 4).1 8 (by decide) (by decide),
    (memmove_moves_bytes (fun a : BitVec 64 => a.toNat) 8 4).2 8 (by decide) (by decide)⟩

/-- A destination that runs past the top of the address space: the kernel's `memmove` copies
forwards, as `s + n` wraps to `0`, and the second byte it reads at `src + 1 = dst` is the one it
has just written; the user library's copies backwards from `dst + 2 = 1` and reads at `src = 0`
the byte it has just written there. -/
theorem memmove_wraps :
    ¬ Moved (fun a : BitVec 64 => a.toNat) (memmove (fun a => a.toNat) (-1) (-2) 2) (-1) (-2) 2 ∧
      ¬ Moved (fun a : BitVec 64 => a.toNat) (ULib.memmove (fun a => a.toNat) (-1) 0 2) (-1) 0 2 :=
  ⟨fun h => absurd (h.copied 1 (by decide)) (by decide),
    fun h => absurd (h.copied 0 (by decide)) (by decide)⟩

end Xv6
