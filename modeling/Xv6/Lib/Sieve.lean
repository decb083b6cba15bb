import Mathlib

/-!
# A pipeline sieve

A chain of stages, each of which keeps the first number it is given and passes on those that
number does not divide (`sieve`). Fed `2, …, N`, the chain keeps the primes up to `N`, in order:
the numbers stage `k` is given are those in `[2, N]` with no prime factor below its first one
(`survivors`), and that first one is the next prime.

* `head_survivors`: the least survivor is the least prime at or above the bound;
* `filter_survivors`: passing on what it does not divide leaves the survivors of the next bound;
* `sieve_survivors`, `length_primes`: the chain keeps the primes, `π(N)` of them.
-/

namespace Sieve

/-- The numbers in `[2, N]` with no prime factor below `p`. -/
def survivors (N p : ℕ) : List ℕ := (List.range' 2 (N - 1)).filter fun n => p ≤ n.minFac

/-- The chain of stages: each keeps its first number and passes on the numbers it does not
divide. -/
def sieve : List ℕ → List ℕ
  | [] => []
  | m :: rest => m :: sieve (rest.filter fun n => n % m ≠ 0)
termination_by l => l.length
decreasing_by
  rw [List.length_unattach, List.length_cons]
  exact Nat.lt_succ_of_le ((List.length_filter_le _ _).trans_eq List.length_attach)

theorem sieve_nil : sieve [] = [] := by
  rw [sieve]

theorem sieve_cons (m : ℕ) (rest : List ℕ) :
    sieve (m :: rest) = m :: sieve (rest.filter fun n => n % m ≠ 0) := by
  rw [sieve]

/-- Induction along the chain: a stage, then the stage fed what it passes on. -/
@[elab_as_elim]
theorem sieve_induction {motive : List ℕ → Prop} (nil : motive [])
    (cons : ∀ m rest, motive (rest.filter fun n => n % m ≠ 0) → motive (m :: rest))
    (l : List ℕ) : motive l := by
  induction hn : l.length using Nat.strongRecOn generalizing l with
  | _ n ih =>
    cases l with
    | nil => exact nil
    | cons m rest =>
      refine cons m rest (ih _ ?_ _ rfl)
      have := List.length_filter_le (fun n => decide (n % m ≠ 0)) rest
      rw [← hn, List.length_cons]
      omega

theorem mem_survivors {N p n : ℕ} : n ∈ survivors N p ↔ 2 ≤ n ∧ n ≤ N ∧ p ≤ n.minFac := by
  simp only [survivors, List.mem_filter, List.mem_range'_1, decide_eq_true_eq]
  omega

theorem survivors_pairwise (N p : ℕ) : (survivors N p).Pairwise (· < ·) :=
  List.Pairwise.filter _ (List.pairwise_lt_range' 1)

/-- The first survivor is the least prime at or above `p`, if there is one up to `N`. -/
theorem head_survivors {N p m : ℕ} {rest : List ℕ} (h : survivors N p = m :: rest) :
    m.Prime ∧ p ≤ m ∧ m ≤ N ∧ ∀ q, q.Prime → p ≤ q → q ≤ N → m ≤ q := by
  obtain ⟨h2, hN, hp⟩ := mem_survivors.1 (h ▸ List.mem_cons_self : m ∈ survivors N p)
  -- the survivors come in increasing order, from `m`
  have hfirst : ∀ x ∈ survivors N p, m ≤ x := by
    have hsorted := survivors_pairwise N p
    rw [h] at hsorted ⊢
    intro x hx
    rcases List.mem_cons.1 hx with rfl | hx
    · exact Nat.le_refl _
    · exact Nat.le_of_lt (List.rel_of_pairwise_cons hsorted hx)
  have hprime : m.minFac.Prime := Nat.minFac_prime (by omega)
  -- the least prime factor of `m` survives too, so it is `m`
  have hfac : m.minFac ∈ survivors N p :=
    mem_survivors.2 ⟨hprime.two_le, (Nat.minFac_le (by omega)).trans hN,
      by rw [hprime.minFac_eq]; exact hp⟩
  have hmf : m.minFac = m := Nat.le_antisymm (Nat.minFac_le (by omega)) (hfirst _ hfac)
  refine ⟨hmf ▸ hprime, hmf ▸ hp, hN, fun q hq hpq hqN => hfirst q ?_⟩
  exact mem_survivors.2 ⟨hq.two_le, hqN, by rw [hq.minFac_eq]; exact hpq⟩

/-- The stage whose first number is `m` passes on the survivors of `m + 1`. -/
theorem filter_survivors {N p m : ℕ} {rest : List ℕ} (h : survivors N p = m :: rest) :
    rest.filter (fun n => n % m ≠ 0) = survivors N (m + 1) := by
  obtain ⟨hprime, hpm, -, hleast⟩ := head_survivors h
  have hdrop : rest.filter (fun n => n % m ≠ 0) = (m :: rest).filter (fun n => n % m ≠ 0) := by
    rw [List.filter_cons, if_neg (by simp)]
  rw [hdrop, ← h, survivors, survivors, List.filter_filter]
  refine List.filter_congr fun n hn => ?_
  rw [List.mem_range'_1] at hn
  have hprime_n : n.minFac.Prime := Nat.minFac_prime (by omega)
  rw [Bool.eq_iff_iff]
  simp only [Bool.and_eq_true, decide_eq_true_eq]
  constructor
  · -- a prime factor of `n` at most `m` would be `m`, which does not divide `n`
    rintro ⟨hmod, hp⟩
    by_contra hle
    have hmin := hleast _ hprime_n hp ((Nat.minFac_le (by omega)).trans (by omega))
    have heq : n.minFac = m := by omega
    exact hmod (Nat.mod_eq_zero_of_dvd (heq ▸ Nat.minFac_dvd n))
  · intro hlt
    refine ⟨fun hmod => ?_, by omega⟩
    have := Nat.minFac_le_of_dvd hprime.two_le (Nat.dvd_of_mod_eq_zero hmod)
    omega

/-- The chain fed the survivors of `p` keeps the primes from `p` to `N`, in order. -/
theorem sieve_survivors (N p : ℕ) :
    sieve (survivors N p) = (List.range' p (N + 1 - p)).filter Nat.Prime := by
  induction hn : N + 1 - p using Nat.strongRecOn generalizing p with
  | _ n ih =>
    cases hs : survivors N p with
    | nil =>
      -- no survivor: no prime in `[p, N]`
      rw [← hn, sieve, eq_comm, List.filter_eq_nil_iff]
      intro q hq hqp
      rw [List.mem_range'_1] at hq
      have hmem : q ∈ survivors N p :=
        mem_survivors.2 ⟨(of_decide_eq_true hqp).two_le, by omega,
          by rw [(of_decide_eq_true hqp).minFac_eq]; omega⟩
      rw [hs] at hmem
      cases hmem
    | cons m rest =>
      obtain ⟨hprime, hpm, hmN, hleast⟩ := head_survivors hs
      rw [← hn, sieve_cons, filter_survivors hs, ih (N + 1 - (m + 1)) (by omega) (m + 1) rfl]
      -- `[p, N]` is `[p, m)`, with no prime, then `m`, then `[m + 1, N]`
      have hsplit : List.range' p (N + 1 - p) =
          List.range' p (m - p) ++ m :: List.range' (m + 1) (N + 1 - (m + 1)) := by
        have happ := @List.range'_append p (m - p) (N + 1 - m) 1
        rw [Nat.one_mul, show p + (m - p) = m by omega,
          show m - p + (N + 1 - m) = N + 1 - p by omega] at happ
        rw [← happ, show N + 1 - m = N + 1 - (m + 1) + 1 by omega, List.range'_succ]
      have hnone : (List.range' p (m - p)).filter Nat.Prime = [] := by
        rw [List.filter_eq_nil_iff]
        intro q hq hqp
        rw [List.mem_range'_1] at hq
        have := hleast q (of_decide_eq_true hqp) hq.1 (by omega)
        omega
      rw [hsplit, List.filter_append, hnone, List.nil_append, List.filter_cons,
        if_pos (by simpa using hprime)]

/-- There are `π(N)` primes in `[2, N]`. -/
theorem length_primes (N : ℕ) :
    ((List.range' 2 (N - 1)).filter Nat.Prime).length = Nat.primeCounting N := by
  rw [Nat.primeCounting, Nat.primeCounting', Nat.count, List.countP_eq_length_filter]
  rcases N with _ | N
  · rfl
  · -- `[0, N + 1]` is `0`, `1`, then `[2, N + 1]`
    have hsplit : List.range (N + 1 + 1) = List.range' 0 2 ++ List.range' 2 N := by
      rw [List.range_eq_range', List.range'_append]
      congr 1
      omega
    rw [hsplit, List.filter_append]
    rfl

end Sieve
