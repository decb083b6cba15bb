import Mathlib

/-!
# sleep (kernel/sysproc.c, kernel/trap.c)

`sys_sleep(n)` reads `ticks0 = ticks` and loops `while(ticks - ticks0 < n)`, returning `-1` if
the process has been killed and sleeping on `&ticks` otherwise. `clockintr` increments the
`uint` counter `ticks` and wakes the sleepers; `kill` sets `p->killed` and wakes the process.
The loop runs once at the call and once after each wakeup (`Wake`).

`ticks - ticks0` is a `uint`, and C converts the `int n` to `uint` for the comparison, so the
loop waits for `n` read as an unsigned number of ticks (`sys_sleep_eq_sleepFor`): for `n >= 0`
that is `n`, whatever `ticks` was and however often it wraps; for `n < 0` it is `2^32 + n`
(`sys_sleep_negative`).

* `sleepFor k killed`: sleeping for `k` more clock ticks, the behaviour one expects;
* `sys_sleep_eq_sleepFor`: the loop over any sequence of wakeups, from any `ticks`.
-/

namespace Xv6

/-- What wakes a process sleeping in `sys_sleep`: `clockintr`, or `kill`. -/
inductive Wake
  | tick
  | kill
  deriving DecidableEq, Repr

/-- The state `sys_sleep` reads: `ticks`, and the sleeping process's `killed` flag. -/
structure Clock where
  ticks : BitVec 32
  killed : Bool
  deriving DecidableEq, Repr

/-- A wakeup: `clockintr`'s `ticks++`, or `kill`'s `p->killed = 1`. -/
def Clock.wake (c : Clock) : Wake → Clock
  | .tick => { c with ticks := c.ticks + 1 }
  | .kill => { c with killed := true }

/-- `sys_sleep`'s loop `while(ticks - ticks0 < n)` at the clock `c`, then at each of the wakeups
`ws`: what it returns, and the wakeups after it returned; `none` while it still sleeps. -/
def sleepLoop (n ticks0 : BitVec 32) (c : Clock) (ws : List Wake) : Option (ℤ × List Wake) :=
  if c.ticks - ticks0 < n then
    if c.killed then some (-1, ws)
    else
      match ws with
      | [] => none
      | w :: ws => sleepLoop n ticks0 (c.wake w) ws
  else some (0, ws)

/-- `sys_sleep(n)` from the clock `c`: `ticks0 = ticks`, then the loop. -/
def sys_sleep (n : BitVec 32) (c : Clock) (ws : List Wake) : Option (ℤ × List Wake) :=
  sleepLoop n c.ticks c ws

/-- Sleeping for `k` more clock ticks: return 0 once they have passed, or -1 at the first
wakeup after a kill before that. -/
def sleepFor : ℕ → Bool → List Wake → Option (ℤ × List Wake)
  | 0, _, ws => some (0, ws)
  | _ + 1, true, ws => some (-1, ws)
  | _ + 1, false, [] => none
  | k + 1, false, .tick :: ws => sleepFor k false ws
  | k + 1, false, .kill :: ws => sleepFor (k + 1) true ws

theorem sleepFor_zero (b : Bool) (ws : List Wake) : sleepFor 0 b ws = some (0, ws) := by
  cases b <;> cases ws <;> rfl

section SleepFor

variable {k : ℕ} (hk : 0 < k) (ws : List Wake)
include hk

theorem sleepFor_killed : sleepFor k true ws = some (-1, ws) := by
  cases k with
  | zero => exact absurd hk (Nat.lt_irrefl 0)
  | succ k => cases ws <;> rfl

theorem sleepFor_nil : sleepFor k false [] = none := by
  cases k with
  | zero => exact absurd hk (Nat.lt_irrefl 0)
  | succ k => rfl

theorem sleepFor_tick : sleepFor k false (.tick :: ws) = sleepFor (k - 1) false ws := by
  cases k with
  | zero => exact absurd hk (Nat.lt_irrefl 0)
  | succ k => rfl

theorem sleepFor_kill : sleepFor k false (.kill :: ws) = sleepFor k true ws := by
  cases k with
  | zero => exact absurd hk (Nat.lt_irrefl 0)
  | succ k => rfl

end SleepFor

/-- The loop, `e` ticks after `ticks0` with `e ≤ n`, sleeps for the other `n - e`: the `uint`
subtraction `ticks - ticks0` counts the ticks across a wrap of `ticks`. -/
theorem sleepLoop_eq_sleepFor (n ticks0 : BitVec 32) (c : Clock) (ws : List Wake)
    (hle : (c.ticks - ticks0).toNat ≤ n.toNat) :
    sleepLoop n ticks0 c ws = sleepFor (n.toNat - (c.ticks - ticks0).toNat) c.killed ws := by
  revert hle
  fun_induction sleepLoop n ticks0 c ws with
  | case1 ws c hlt hk =>
    intro _
    rw [hk, sleepFor_killed (by rw [BitVec.lt_def] at hlt; omega)]
  | case2 c hlt hk =>
    intro _
    rw [Bool.not_eq_true] at hk
    rw [hk, sleepFor_nil (by rw [BitVec.lt_def] at hlt; omega)]
  | case3 c hlt hk w ws ih =>
    intro _
    have hpos : 0 < n.toNat - (c.ticks - ticks0).toNat := by
      rw [BitVec.lt_def] at hlt
      omega
    rw [Bool.not_eq_true] at hk
    cases w with
    | tick =>
      -- one more tick has passed
      have he : (c.ticks + 1 - ticks0).toNat = (c.ticks - ticks0).toNat + 1 := by
        rw [BitVec.lt_def] at hlt
        bv_omega
      rw [ih (by simp only [Clock.wake]; omega), hk, sleepFor_tick hpos]
      simp only [Clock.wake, he, hk]
      rw [Nat.sub_sub]
    | kill =>
      rw [ih (by simp only [Clock.wake]; omega), hk, sleepFor_kill hpos]
      rfl
  | case4 ws c hlt =>
    intro _
    rw [BitVec.lt_def] at hlt
    rw [show n.toNat - (c.ticks - ticks0).toNat = 0 by omega, sleepFor_zero]

/-- `sys_sleep(n)` sleeps for `n`, read as an unsigned number, clock ticks. -/
theorem sys_sleep_eq_sleepFor (n : BitVec 32) (c : Clock) (ws : List Wake) :
    sys_sleep n c ws = sleepFor n.toNat c.killed ws := by
  rw [sys_sleep, sleepLoop_eq_sleepFor n c.ticks c ws (by simp), BitVec.sub_self,
    BitVec.toNat_zero, Nat.sub_zero]

/-- Ticks alone: the sleep ends at the `k`th, with the others left. -/
theorem sleepFor_ticks (k j : ℕ) :
    sleepFor k false (List.replicate j .tick) =
      if k ≤ j then some (0, List.replicate (j - k) .tick) else none := by
  induction k generalizing j with
  | zero => rw [sleepFor_zero, if_pos (Nat.zero_le j), Nat.sub_zero]
  | succ k ih =>
    cases j with
    | zero => rw [List.replicate_zero, sleepFor_nil (Nat.succ_pos k), if_neg (by omega)]
    | succ j =>
      rw [List.replicate_succ, sleepFor_tick (Nat.succ_pos k), Nat.succ_sub_one, ih j]
      simp only [Nat.add_le_add_iff_right, Nat.add_sub_add_right]

/-- A negative `n` is read as `2^32 + n` ticks: `sys_sleep(n)` does not return at once, and
returns only after `2^32 + n` clock interrupts. -/
theorem sys_sleep_negative (n : BitVec 32) (hn : n.toInt < 0) (c : Clock) (hc : c.killed = false) :
    sys_sleep n c [] = none ∧
      sys_sleep n c (List.replicate (n.toInt + 2 ^ 32 - 1).toNat .tick) = none ∧
      sys_sleep n c (List.replicate (n.toInt + 2 ^ 32).toNat .tick) = some (0, []) := by
  -- the `int` is the `uint` less `2^32`
  have hnat : n.toInt = (n.toNat : ℤ) - 2 ^ 32 := by
    simp only [BitVec.toInt_eq_toNat_cond] at hn ⊢
    split_ifs at hn ⊢ <;> omega
  have hk : (n.toInt + 2 ^ 32).toNat = n.toNat := by omega
  have hk' : (n.toInt + 2 ^ 32 - 1).toNat = n.toNat - 1 := by omega
  have hpos : 0 < n.toNat := by
    have := BitVec.toInt_neg_iff.1 hn
    omega
  rw [hk, hk', sys_sleep_eq_sleepFor, sys_sleep_eq_sleepFor, sys_sleep_eq_sleepFor, hc,
    sleepFor_ticks, sleepFor_ticks, if_neg (by omega), if_pos (Nat.le_refl _), Nat.sub_self]
  exact ⟨sleepFor_nil hpos, rfl, rfl⟩

/-- `sleep(-1)` before any clock interrupt. -/
theorem sys_sleep_minus_one :
    (-1 : BitVec 32).toInt < 0 ∧
      sys_sleep (-1) ⟨0, false⟩ [] = none ∧
      sys_sleep (-1) ⟨0, false⟩ (List.replicate ((-1 : BitVec 32).toInt + 2 ^ 32 - 1).toNat .tick) =
        none ∧
      sys_sleep (-1) ⟨0, false⟩ (List.replicate ((-1 : BitVec 32).toInt + 2 ^ 32).toNat .tick) =
        some (0, []) :=
  ⟨by decide, sys_sleep_negative (-1) (by decide) ⟨0, false⟩ rfl⟩

end Xv6
