import Mathlib

/-!
# Runs of atomic operations and their crash prefixes

A state of type `σ` is changed by atomic operations of type `ω`, each interpreted by
`act : ω → σ → σ`. A program that issues the operations `ops` in order and is cut off
after `k` of them leaves the state `run act s (ops.take k)`: the crash prefixes.

* `run`, with its equations for `[]`, `::`, `++` and for lists built by `List.range`;
* `run_take_append`: a prefix of `l₁ ++ l₂` is a prefix of `l₁`, or all of `l₁` and then a
  prefix of `l₂`;
* `run_of_forall_mem`, `run_take_of_forall_mem`: a property that every operation keeps holds
  after every prefix;
* `forall_run_take_append`: a property of every prefix of `l₁` and of every prefix of `l₂`
  (started where `l₁` ends) is a property of every prefix of `l₁ ++ l₂`.

For runs that can fail, `List.foldlM` over `Option`: `foldlM_induction` carries a property
through a run that succeeds, and `foldlM_exists` shows that a run succeeds.
-/

namespace AtomicRun

variable {σ ω : Type*} (act : ω → σ → σ)

/-- Apply the operations in order. -/
def run (s : σ) (ops : List ω) : σ := ops.foldl (fun s o => act o s) s

@[simp] theorem run_nil (s : σ) : run act s [] = s := rfl

@[simp] theorem run_cons (s : σ) (o : ω) (ops : List ω) :
    run act s (o :: ops) = run act (act o s) ops := rfl

@[simp] theorem run_append (s : σ) (l₁ l₂ : List ω) :
    run act s (l₁ ++ l₂) = run act (run act s l₁) l₂ := by
  simp [run, List.foldl_append]

theorem run_singleton (s : σ) (o : ω) : run act s [o] = act o s := rfl

/-- The operations indexed by `0, …, n`: the last one is applied last. -/
theorem run_range_succ (s : σ) (f : ℕ → ω) (n : ℕ) :
    run act s ((List.range (n + 1)).map f) = act (f n) (run act s ((List.range n).map f)) := by
  rw [List.range_succ, List.map_append, run_append]
  rfl

/-- A crash prefix of `l₁ ++ l₂`. -/
theorem run_take_append (s : σ) (l₁ l₂ : List ω) (k : ℕ) :
    run act s ((l₁ ++ l₂).take k) =
      if k ≤ l₁.length then run act s (l₁.take k)
      else run act (run act s l₁) (l₂.take (k - l₁.length)) := by
  split_ifs with hk
  · rw [List.take_append_of_le_length hk]
  · rw [List.take_append, List.take_of_length_le (by omega), run_append]

section Invariant

variable {act} (P : σ → Prop)

/-- A property kept by every operation of the list holds after all of them. -/
theorem run_of_forall_mem {s : σ} {ops : List ω} (hs : P s)
    (h : ∀ o ∈ ops, ∀ t, P t → P (act o t)) : P (run act s ops) := by
  induction ops generalizing s with
  | nil => exact hs
  | cons o ops ih =>
    rw [run_cons]
    exact ih (h o (List.mem_cons_self ..) s hs)
      (fun o' ho' t ht => h o' (List.mem_cons_of_mem _ ho') t ht)

/-- A property kept by every operation of the list holds after every crash prefix. -/
theorem run_take_of_forall_mem {s : σ} {ops : List ω} (hs : P s)
    (h : ∀ o ∈ ops, ∀ t, P t → P (act o t)) (k : ℕ) : P (run act s (ops.take k)) :=
  run_of_forall_mem P hs (fun o ho => h o (List.mem_of_mem_take ho))

/-- Crash prefixes of a sequence of two phases. -/
theorem forall_run_take_append {s : σ} {l₁ l₂ : List ω}
    (h₁ : ∀ k, P (run act s (l₁.take k)))
    (h₂ : ∀ k, P (run act (run act s l₁) (l₂.take k))) (k : ℕ) :
    P (run act s ((l₁ ++ l₂).take k)) := by
  rw [run_take_append]
  split_ifs
  · exact h₁ k
  · exact h₂ _

/-- Crash prefixes of a single operation: before it, or after it. -/
theorem forall_run_take_singleton {s : σ} {o : ω} (h₀ : P s) (h₁ : P (act o s)) (k : ℕ) :
    P (run act s ([o].take k)) := by
  cases k with
  | zero => exact h₀
  | succ k => simpa using h₁

end Invariant

/-! ### Fallible runs

A step that may fail is a function `f : σ → α → Option σ`, and a run over the inputs `l` is
`l.foldlM f s`. -/

section Fallible

variable {α : Type*} {f : σ → α → Option σ}

/-- A property of the state after `k` steps that every successful step carries to `k + 1`
holds at the end of a successful run, with `k` the number of inputs. -/
theorem foldlM_induction (l : List α) :
    ∀ (P : ℕ → σ → Prop) {s s' : σ}, (∀ k t a t', P k t → f t a = some t' → P (k + 1) t') →
      P 0 s → l.foldlM f s = some s' → P l.length s' := by
  induction l with
  | nil =>
    intro P s s' _ hs h
    cases h
    exact hs
  | cons a l ih =>
    intro P s s' hstep hs h
    rw [List.foldlM_cons] at h
    cases ht : f s a with
    | none => simp [ht] at h
    | some t =>
      simp only [ht, Option.bind_eq_bind, Option.bind_some] at h
      -- the rest of the run starts one step later
      exact ih (fun k => P (k + 1)) (fun k u b u' hu hf => hstep (k + 1) u b u' hu hf)
        (hstep 0 s a t hs ht) h

/-- When the step on the `k`-th input succeeds from every state meeting `P k`, into one meeting
`P (k + 1)`, the whole run succeeds. -/
theorem foldlM_exists (l : List α) :
    ∀ (P : ℕ → σ → Prop) {s : σ},
      (∀ k t (hk : k < l.length), P k t → ∃ t', f t l[k] = some t' ∧ P (k + 1) t') →
      P 0 s → ∃ s', l.foldlM f s = some s' ∧ P l.length s' := by
  induction l with
  | nil =>
    intro P s _ hs
    exact ⟨s, rfl, hs⟩
  | cons a l ih =>
    intro P s hstep hs
    obtain ⟨t, ht, hPt⟩ := hstep 0 s (by simp) hs
    -- the rest of the run starts one step later
    obtain ⟨s', hrun, hP⟩ := ih (fun k => P (k + 1))
      (fun k u hk hu => hstep (k + 1) u (by simpa using hk) hu) hPt
    rw [List.getElem_cons_zero] at ht
    refine ⟨s', ?_, hP⟩
    rw [List.foldlM_cons, ht]
    exact hrun

end Fallible

end AtomicRun
