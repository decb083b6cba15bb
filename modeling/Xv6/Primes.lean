import Xv6.Lib.Scan
import Xv6.Lib.Sieve
import Xv6.Param

/-!
# primes (user/primes.c)

`main` writes `2, …, N` into a pipe read by the first stage; each stage (`primeSieve`) prints the
first int it reads, makes a pipe, forks the next stage onto its read end and passes on the ints
its prime does not divide. A stage's child closes the new pipe's write end but never the read
ends it inherited, so stage `k` runs with the descriptors `0 … k + 2` open.

Each pipe is a FIFO with one writer that closes it at the end, so the ints a stage reads are
the ones its parent passes on, then end of file (the pipe model of `Xv6.Pipe`); the run is the
chain of stages over these streams. Descriptor tables have `NOFILE` slots, `fdalloc` takes the
lowest free one, and `sys_pipe` fails when it finds two no longer. `primeSieve` does not check:
after a failed `pipe()`, `new_pipefd` holds whatever the stack held, and the model stops there
(`none`).

* `pipe_below_of_lt`, `pipe_below_of_le`: a table with `0 … m - 1` open gets `m` and `m + 1`
  if `m + 1 < NOFILE`, and nothing otherwise;
* `primeSieve_below`: the chain prints what `Sieve.sieve` keeps, unless a stage runs out of
  descriptors;
* `primes_fd_limit`: `main` with `N` prints the primes up to `N` when `π(N) ≤ 11`, and otherwise
  the twelfth stage's `pipe()` fails.
-/

namespace Xv6.Primes

/-- `fdalloc`: the lowest free slot of the table. -/
def fdalloc (t : Fin NOFILE → Bool) : Option (Fin NOFILE) :=
  (List.finRange NOFILE).find? fun fd => !t fd

/-- `sys_pipe`'s two descriptors, the lowest free slot first; when the second is missing the
first is freed again (`p->ofile[fd0] = 0`) and the call fails. -/
def pipe (t : Fin NOFILE → Bool) : Option (Fin NOFILE × Fin NOFILE × (Fin NOFILE → Bool)) :=
  match fdalloc t with
  | none => none
  | some fd0 =>
    let t := Function.update t fd0 true
    match fdalloc t with
    | none => none
    | some fd1 => some (fd0, fd1, Function.update t fd1 true)

/-- `primeSieve(read_fd)` in a process with open descriptors `t`, where `read(read_fd)` gives
the ints `input` and then 0: what the chain of stages prints (`printf("prime %d\n", p)` for each
`p`), or `none` from the first `pipe()` that fails. The ints are positive, so C's `%` is
`Nat.mod`. -/
def primeSieve (t : Fin NOFILE → Bool) : List ℕ → Option (List ℕ)
  | [] => some []
  | p :: rest =>
    match pipe t with
    | none => none
    | some (_, w, t') =>
      -- the child closes `new_pipefd[1]` and reads what the parent passes on
      (p :: ·) <$> primeSieve (Function.update t' w false) (rest.filter fun n => n % p ≠ 0)
termination_by l => l.length
decreasing_by
  rw [List.length_unattach, List.length_cons]
  exact Nat.lt_succ_of_le ((List.length_filter_le _ _).trans_eq List.length_attach)

/-- `main()` run with `2, …, N` in place of `2, …, 35`, from a process with open descriptors
`t`: the first stage is the child, which closes `pipefd[1]`. -/
def main (t : Fin NOFILE → Bool) (N : ℕ) : Option (List ℕ) :=
  match pipe t with
  | none => none
  | some (_, w, t') => primeSieve (Function.update t' w false) (List.range' 2 (N - 1))

/-! ## Descriptor tables -/

/-- The table with `0 … m - 1` open and the other slots free. -/
def below (m : ℕ) : Fin NOFILE → Bool := fun fd => decide (fd.val < m)

theorem fdalloc_below_of_lt {m : ℕ} (h : m < NOFILE) : fdalloc (below m) = some ⟨m, h⟩ := by
  refine Scan.find?_finRange_eq_some_iff.2 ⟨by simp [below], fun j hj => ?_⟩
  have : j.val < m := hj
  simp [below, this]

theorem fdalloc_below_of_le {m : ℕ} (h : NOFILE ≤ m) : fdalloc (below m) = none := by
  refine List.find?_eq_none.2 fun fd _ => ?_
  have : fd.val < m := by omega
  simp [below, this]

theorem update_below_true {m : ℕ} (h : m < NOFILE) :
    Function.update (below m) ⟨m, h⟩ true = below (m + 1) := by
  funext fd
  by_cases hfd : fd = ⟨m, h⟩
  · subst hfd
    simp [below]
  · have hne : fd.val ≠ m := fun e => hfd (Fin.ext e)
    rw [Function.update_of_ne hfd]
    simp only [below, decide_eq_decide]
    omega

theorem update_below_false {m : ℕ} (h : m < NOFILE) :
    Function.update (below (m + 1)) ⟨m, h⟩ false = below m := by
  funext fd
  by_cases hfd : fd = ⟨m, h⟩
  · subst hfd
    simp [below]
  · have hne : fd.val ≠ m := fun e => hfd (Fin.ext e)
    rw [Function.update_of_ne hfd]
    simp only [below, decide_eq_decide]
    omega

/-- `pipe()` with `0 … m - 1` open returns `m` and `m + 1`. -/
theorem pipe_below_of_lt {m : ℕ} (h : m + 1 < NOFILE) :
    pipe (below m) = some (⟨m, by omega⟩, ⟨m + 1, h⟩, below (m + 2)) := by
  rw [pipe, fdalloc_below_of_lt (by omega)]
  dsimp only
  rw [update_below_true, fdalloc_below_of_lt h]
  dsimp only
  rw [update_below_true]

/-- `pipe()` fails when fewer than two slots are free. -/
theorem pipe_below_of_le {m : ℕ} (h : NOFILE ≤ m + 1) : pipe (below m) = none := by
  by_cases hm : m < NOFILE
  · rw [pipe, fdalloc_below_of_lt hm]
    dsimp only
    rw [update_below_true, fdalloc_below_of_le h]
  · rw [pipe, fdalloc_below_of_le (by omega)]

/-! ## The chain -/

/-- From a stage with `0 … m - 1` open, the chain prints what the sieve keeps, as long as the
last stage to make a pipe still finds two slots: stage `j` of the chain has `0 … m + j - 1`
open. The induction follows the sieve, one stage at a time. -/
theorem primeSieve_below (m : ℕ) (input : List ℕ) :
    primeSieve (below m) input =
      if input = [] ∨ m + (Sieve.sieve input).length < NOFILE then some (Sieve.sieve input)
      else none := by
  induction input using Sieve.sieve_induction generalizing m with
  | nil => simp [primeSieve, Sieve.sieve]
  | cons p rest ih =>
    rw [primeSieve, Sieve.sieve_cons, List.length_cons]
    by_cases hroom : m + 1 < NOFILE
    · -- the pipe is made, and the child has `0 … m` open
      rw [pipe_below_of_lt hroom]
      dsimp only
      rw [update_below_false (by omega), ih (m + 1)]
      by_cases hrest : rest.filter (fun n => n % p ≠ 0) = []
      · -- the child reads end of file at once
        rw [hrest, Sieve.sieve_nil, if_pos (.inl rfl),
          if_pos (.inr (by rw [List.length_nil]; omega))]
        rfl
      · by_cases hfit : m + 1 + (Sieve.sieve (rest.filter fun n => n % p ≠ 0)).length < NOFILE
        · rw [if_pos (.inr hfit), if_pos (.inr (by omega))]
          rfl
        · rw [if_neg fun h => h.elim hrest hfit,
            if_neg fun h => h.elim (List.cons_ne_nil _ _) fun h' => hfit (by omega)]
          rfl
    · -- `pipe()` fails here
      rw [pipe_below_of_le (by omega)]
      dsimp only
      rw [if_neg fun h => h.elim (List.cons_ne_nil _ _) fun h' => hroom (by omega)]

/-- `main` with `2, …, N` in place of `2, …, 35`, started with the descriptors `0`, `1`, `2`
open, prints `prime p` for each prime `p ≤ N`, in increasing order, when there are at most 11 of
them. With 12 or more, the twelfth stage, which has `0 … 14` open, prints its prime and its
`pipe()` fails: `new_pipefd` is left uninitialized. -/
theorem primes_fd_limit (N : ℕ) :
    main (below 3) N =
      if Nat.primeCounting N ≤ 11 then some ((List.range' 2 (N - 1)).filter Nat.Prime)
      else none := by
  -- the first stage has `0 … 3` open: the console and the read end of `main`'s pipe
  rw [main, pipe_below_of_lt (by decide)]
  dsimp only
  rw [update_below_false (by decide), primeSieve_below]
  -- `2, …, N` are the survivors of 2, and the sieve keeps the primes
  have hsurv : List.range' 2 (N - 1) = Sieve.survivors N 2 := by
    refine (List.filter_eq_self.2 fun n hn => ?_).symm
    rw [List.mem_range'_1] at hn
    exact decide_eq_true (Nat.minFac_prime (by omega)).two_le
  rw [hsurv, Sieve.sieve_survivors, ← hsurv,
    show N + 1 - 2 = N - 1 by omega, Sieve.length_primes]
  by_cases hπ : Nat.primeCounting N ≤ 11
  · rw [if_pos (.inr (by unfold NOFILE; omega)), if_pos hπ]
  · have hne : List.range' 2 (N - 1) ≠ [] := by
      intro h
      have := Sieve.length_primes N
      rw [h] at this
      simp at this
      omega
    rw [if_neg (by simp only [hne, false_or]; unfold NOFILE; omega), if_neg hπ]

end Xv6.Primes
