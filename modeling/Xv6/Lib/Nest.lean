import Mathlib

/-!
# Matched save and restore

A value of type `α` (an interrupt-enable bit, a priority level) is saved and replaced by `off`
on each `push`, and each `pop` gives back what its matching `push` saved; `set` replaces the
value outright. The abstract machine keeps every saved value on a stack (`Stack`). An
implementation keeps only a depth counter and the value saved by the outermost `push`
(`Counter`): that is enough as long as the value is `off` whenever the depth is positive, since
every inner `push` then saves `off`.

* `Op`, `depth`, `Stack.step`, `Stack.run`, `Stack.run_append`;
* `Stack.run_of_nonneg`: a run that never pops below its start keeps the stack it started on
  and puts `depth` values on top of it;
* `Stack.run_matched`: a `push`, then a run that returns to the same depth without going below
  it, then a `pop`, give back the stack and the value as they were;
* `Counter`, `Counter.abs`, `Counter.Inv`, `Counter.step_abs`: the counter simulates the stack
  and keeps its invariant, provided a value other than `off` is only `set` at depth 0.
-/

namespace Nest

variable {α : Type*}

/-- An operation on a value with matched save and restore. -/
inductive Op (α : Type*)
  | push
  | pop
  | set (v : α)
  deriving DecidableEq, Repr

/-- How an operation moves the nesting depth. -/
def Op.delta : Op α → ℤ
  | .push => 1
  | .pop => -1
  | .set _ => 0

/-- The number of pushes less the number of pops. -/
def depth : List (Op α) → ℤ
  | [] => 0
  | o :: w => o.delta + depth w

@[simp] theorem depth_nil : depth ([] : List (Op α)) = 0 := rfl

@[simp] theorem depth_cons (o : Op α) (w : List (Op α)) : depth (o :: w) = o.delta + depth w :=
  rfl

@[simp] theorem depth_append (w₁ w₂ : List (Op α)) : depth (w₁ ++ w₂) = depth w₁ + depth w₂ := by
  induction w₁ with
  | nil => simp
  | cons o w ih => rw [List.cons_append, depth_cons, depth_cons, ih, Int.add_assoc]

/-- A word whose prefixes never go below depth 0 has its prefixes' property on each part: the
prefixes of `w₁` are prefixes of `w₁ ++ w₂`. -/
theorem nonneg_left {w₁ w₂ : List (Op α)} (h : ∀ k ≤ (w₁ ++ w₂).length, 0 ≤ depth ((w₁ ++ w₂).take k)) :
    ∀ k ≤ w₁.length, 0 ≤ depth (w₁.take k) := by
  intro k hk
  have := h k (by rw [List.length_append]; omega)
  rwa [List.take_append_of_le_length hk] at this

/-! ## The stack machine -/

/-- The values saved by the pushes not yet popped, innermost first, and the current value. -/
structure Stack (α : Type*) where
  saved : List α
  cur : α
  deriving DecidableEq, Repr

/-- `push` saves the current value and puts `off` in its place; `pop` restores the value saved
last, and fails when nothing is saved; `set v` makes `v` current. -/
def Stack.step (off : α) : Stack α → Op α → Option (Stack α)
  | ⟨st, c⟩, .push => some ⟨c :: st, off⟩
  | ⟨x :: st, _⟩, .pop => some ⟨st, x⟩
  | ⟨[], _⟩, .pop => none
  | ⟨st, _⟩, .set v => some ⟨st, v⟩

/-- The operations of `w` in order, failing at the first `pop` with nothing saved. -/
def Stack.run (off : α) : Stack α → List (Op α) → Option (Stack α)
  | s, [] => some s
  | s, o :: w => (s.step off o).bind fun s' => Stack.run off s' w

namespace Stack

variable (off : α)

@[simp] theorem run_nil (s : Stack α) : run off s [] = some s := rfl

@[simp] theorem run_cons (s : Stack α) (o : Op α) (w : List (Op α)) :
    run off s (o :: w) = (s.step off o).bind fun s' => run off s' w := rfl

theorem run_append (s : Stack α) (w₁ w₂ : List (Op α)) :
    run off s (w₁ ++ w₂) = (run off s w₁).bind fun s' => run off s' w₂ := by
  induction w₁ generalizing s with
  | nil => rfl
  | cons o w ih =>
    rw [List.cons_append, run_cons, run_cons, Option.bind_assoc]
    simp only [ih]

theorem run_concat (s : Stack α) (w : List (Op α)) (o : Op α) :
    run off s (w ++ [o]) = (run off s w).bind fun s' => s'.step off o := by
  rw [run_append]
  congr 1
  funext s'
  rw [run_cons]
  cases s'.step off o <;> rfl

/-- A run that never pops below where it started leaves the stack it started on in place and
puts `depth w` values on top of it. -/
theorem run_of_nonneg (S : List α) (x : α) (w : List (Op α))
    (h : ∀ k ≤ w.length, 0 ≤ depth (w.take k)) :
    ∃ T c, run off ⟨S, x⟩ w = some ⟨T ++ S, c⟩ ∧ (T.length : ℤ) = depth w := by
  -- induction from the end of the word: the last operation acts on what the rest left
  induction w using List.reverseRecOn with
  | nil => exact ⟨[], x, rfl, rfl⟩
  | append_singleton w o ih =>
    obtain ⟨T, c, hrun, hlen⟩ := ih (nonneg_left h)
    have hall : 0 ≤ depth (w ++ [o]) := by
      have := h (w ++ [o]).length (Nat.le_refl _)
      rwa [List.take_length] at this
    rw [run_concat, hrun, Option.bind_some]
    rw [depth_append, depth_cons, depth_nil] at hall ⊢
    cases o with
    | push => exact ⟨c :: T, off, rfl, by simp [Op.delta, hlen]⟩
    | pop =>
      -- a pop is above the start, so something of `T` is there to restore
      obtain _ | ⟨y, T'⟩ := T
      · simp only [Op.delta, List.length_nil] at hlen hall
        omega
      · exact ⟨T', y, rfl, by simp only [Op.delta, List.length_cons] at hlen ⊢; omega⟩
    | set v => exact ⟨T, v, rfl, by simp [Op.delta, hlen]⟩

/-- Each `pop` restores what its matching `push` saved: a `push`, a run back to the same depth
that never goes below it, and a `pop` leave the stack and the current value as they found
them. -/
theorem run_matched (S : List α) (x : α) (w : List (Op α))
    (h : ∀ k ≤ w.length, 0 ≤ depth (w.take k)) (h0 : depth w = 0) :
    run off ⟨S, x⟩ (.push :: (w ++ [.pop])) = some ⟨S, x⟩ := by
  obtain ⟨T, c, hrun, hlen⟩ := run_of_nonneg off (x :: S) off w h
  have hT : T = [] := List.eq_nil_of_length_eq_zero (by omega)
  subst hT
  rw [run_cons, step, Option.bind_some, run_concat, hrun, Option.bind_some]
  rfl

end Stack

/-! ## The counter

The implementation keeps the depth, the value the outermost `push` saved, and the current
value. -/

/-- A depth counter with the value saved by the outermost `push`. -/
structure Counter (α : Type*) where
  depth : ℕ
  outer : α
  cur : α
  deriving DecidableEq, Repr

/-- `push` saves the current value only from depth 0; `pop` restores the saved value only when it
brings the depth back to 0, and fails at depth 0. -/
def Counter.step (off : α) : Counter α → Op α → Option (Counter α)
  | ⟨n, o, c⟩, .push => some ⟨n + 1, if n = 0 then c else o, off⟩
  | ⟨n, o, c⟩, .pop => if n = 0 then none else some ⟨n - 1, o, if n - 1 = 0 then o else c⟩
  | ⟨n, o, _⟩, .set v => some ⟨n, o, v⟩

namespace Counter

variable {off : α}

/-- The stack a counter stands for: `off` saved by every push but the outermost. -/
def abs (off : α) (c : Counter α) : Stack α :=
  ⟨if c.depth = 0 then [] else List.replicate (c.depth - 1) off ++ [c.outer], c.cur⟩

/-- Inside a push the value is `off`. -/
def Inv (off : α) (c : Counter α) : Prop := 0 < c.depth → c.cur = off

/-- One step of the counter is one step of the stack it stands for, moves the depth by the
operation's `delta`, and keeps the invariant, when a value other than `off` is only set at depth
0. -/
theorem step_abs {c c' : Counter α} {o : Op α} (hinv : c.Inv off)
    (hset : ∀ v, o = .set v → c.depth = 0 ∨ v = off) (h : c.step off o = some c') :
    c'.Inv off ∧ (c.abs off).step off o = some (c'.abs off) ∧ (c'.depth : ℤ) = c.depth + o.delta := by
  obtain ⟨n, x, y⟩ := c
  cases o with
  | push =>
    cases h
    refine ⟨fun _ => rfl, ?_, by simp [Op.delta]⟩
    -- from depth 0 the push saves the current value; above it, the current value is `off`
    obtain _ | m := n
    · simp [abs, Stack.step]
    · have hy : y = off := hinv (Nat.succ_pos m)
      simp [abs, Stack.step, List.replicate_succ, hy]
  | pop =>
    obtain _ | n := n
    · simp [step] at h
    · simp only [step, Nat.add_one_ne_zero, if_false, Nat.add_sub_cancel, Option.some.injEq] at h
      subst h
      refine ⟨fun hpos => ?_, ?_, by simp only [Op.delta]; omega⟩
      · -- still inside a push: the current value stays `off`
        simp only at hpos ⊢
        rw [if_neg (Nat.pos_iff_ne_zero.1 hpos)]
        exact hinv (Nat.succ_pos n)
      · -- the last pop restores the outermost value, the others restore `off`
        cases n with
        | zero => simp [abs, Stack.step]
        | succ m =>
          have hy : y = off := hinv (Nat.succ_pos _)
          simp [abs, Stack.step, List.replicate_succ, hy]
  | set v =>
    cases h
    refine ⟨fun hpos => ?_, rfl, by simp [Op.delta]⟩
    rcases hset v rfl with hn | hv
    · exact absurd hn (Nat.pos_iff_ne_zero.1 hpos)
    · exact hv

/-- A pop fails exactly at depth 0. -/
theorem step_pop_eq_none (c : Counter α) : c.step off .pop = none ↔ c.depth = 0 := by
  obtain ⟨n, x, y⟩ := c
  simp only [step]
  split_ifs with hn <;> simp [hn]

end Counter

end Nest
