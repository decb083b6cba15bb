import Xv6.Proc
import Xv6.Lib.Nest

/-!
# Interrupt nesting: `push_off`, `pop_off`, spinlocks and `sched`

`kernel/spinlock.c`, and `sched` of `kernel/proc.c`. Each CPU counts in `noff` the `push_off`
calls not yet matched by a `pop_off`, and keeps in `intena` whether interrupts were enabled before
the outermost one. `acquire` calls `push_off` before it spins, `release` calls `pop_off` after it
frees the lock. `sched` runs with one lock held, the process's own, and carries `intena` across
`swtch`: the kernel thread may come back on another CPU, whose `intena` its scheduler has set.

The model is a kernel thread's view of the CPU it runs on: the operations `push_off`, `pop_off`,
`intr_on`, `intr_off` and `sched` (`Op`), run in order by `runOps` up to the first panic. `sched`
comes back on a CPU whose scheduler has just taken the process's lock (`Resume`).

* `Cpu`, `intr_on`, `intr_off`, `push_off`, `pop_off`, `Spinlock`, `holding`, `acquire`,
  `release`, `Resume`, `sched`, `Op`, `runOps`, `depth`;
* `acquire_cpu`, `release_cpu`: on the CPU, `acquire` is a `push_off` and `release` a `pop_off`;
* `Op.run_spec`: each operation is a step of the counter of `Nest`, and only `sched` can panic
  when `pop_off` comes at a positive depth with interrupts off;
* `Nested`: the run never pops below depth 0 and turns interrupts on only at depth 0;
  `runOps_spec`: such a run never panics in `pop_off`, keeps `noff` equal to the depth and
  interrupts off inside, and simulates the stack of saved interrupt states of `Nest`;
* `interrupt_nesting`: from `noff = 0`, in addition, the `pop_off` that brings `noff` back to 0
  restores the interrupt state from before the matching `push_off`, `sched`s in between
  included.
-/

namespace Xv6

/-- The fields of `struct cpu` that `push_off`, `pop_off` and `sched` use, and the CPU's
interrupt-enable bit `SSTATUS_SIE`, which `intr_get()` reads. `noff` is an `int` that starts at
0 and that `pop_off` never takes below 0. -/
structure Cpu where
  noff : ℕ
  intena : Bool
  sie : Bool
  deriving DecidableEq, Repr

/-- `intr_on()` (`kernel/riscv.h`). -/
def intr_on (c : Cpu) : Cpu := { c with sie := true }

/-- `intr_off()`. -/
def intr_off (c : Cpu) : Cpu := { c with sie := false }

/-- `push_off()`. -/
def push_off (c : Cpu) : Cpu :=
  let old := c.sie
  let c := intr_off c
  let c := if c.noff = 0 then { c with intena := old } else c
  { c with noff := c.noff + 1 }

@[simp] theorem push_off_noff (c : Cpu) : (push_off c).noff = c.noff + 1 := by
  unfold push_off
  dsimp only
  split <;> rfl

@[simp] theorem push_off_sie (c : Cpu) : (push_off c).sie = false := by
  unfold push_off
  dsimp only
  split <;> rfl

/-- `pop_off()`, with its two panics. -/
def pop_off (c : Cpu) : Except String Cpu :=
  if c.sie then .error "pop_off - interruptible"
  else if c.noff < 1 then .error "pop_off"
  else
    let c := { c with noff := c.noff - 1 }
    .ok (if c.noff = 0 ∧ c.intena then intr_on c else c)

/-! ## Spinlocks -/

/-- `struct spinlock` without its name: `locked`, and the CPU holding it (`lk->cpu`, a null
pointer for none). -/
structure Spinlock (ι : Type*) where
  locked : Bool
  cpu : Option ι
  deriving DecidableEq, Repr

section Lock

variable {ι : Type*} [DecidableEq ι]

/-- `holding(lk)` on the CPU `me`. -/
def holding (lk : Spinlock ι) (me : ι) : Bool := lk.locked && lk.cpu == some me

/-- `acquire(lk)` on the CPU `me`. The loop on `__sync_lock_test_and_set` spins while another
CPU holds the lock; the model gives the lock and the CPU as they are once the swap finds the lock
free. Whether this CPU holds it cannot change while it spins. -/
def acquire (me : ι) (lk : Spinlock ι) (c : Cpu) : Except String (Spinlock ι × Cpu) :=
  let c := push_off c
  if holding lk me then .error "acquire"
  else .ok (⟨true, some me⟩, c)

/-- `release(lk)` on the CPU `me`. -/
def release (me : ι) (lk : Spinlock ι) (c : Cpu) : Except String (Spinlock ι × Cpu) :=
  if !holding lk me then .error "release"
  else
    let lk : Spinlock ι := { lk with cpu := none }
    let lk : Spinlock ι := { lk with locked := false }
    (pop_off c).map fun c => (lk, c)

/-- On the CPU, an `acquire` that returns is a `push_off`, and the lock is then held. -/
theorem acquire_cpu {me : ι} {lk lk' : Spinlock ι} {c c' : Cpu}
    (h : acquire me lk c = .ok (lk', c')) : c' = push_off c ∧ holding lk' me = true := by
  unfold acquire at h
  split_ifs at h
  cases h
  exact ⟨rfl, by simp [holding]⟩

/-- On the CPU, a `release` that returns is a `pop_off`, and the lock is then free. -/
theorem release_cpu {me : ι} {lk lk' : Spinlock ι} {c c' : Cpu}
    (h : release me lk c = .ok (lk', c')) : pop_off c = .ok c' ∧ lk'.locked = false := by
  unfold release at h
  split_ifs at h
  cases hpop : pop_off c with
  | error m => simp [hpop, Except.map] at h
  | ok c₁ =>
    simp only [hpop, Except.map, Except.ok.injEq, Prod.mk.injEq] at h
    obtain ⟨rfl, rfl⟩ := h
    exact ⟨rfl, rfl⟩

end Lock

/-! ## `sched` -/

/-- The CPU on which `swtch` in `sched` comes back: its scheduler has just taken the process's
lock with `acquire(&p->lock)` and holds no other lock, so `noff` is 1 and interrupts are off. -/
structure Resume where
  cpu : Cpu
  noff_eq : cpu.noff = 1
  sie_eq : cpu.sie = false

instance : DecidableEq Resume := fun a b =>
  decidable_of_iff (a.cpu = b.cpu) ⟨fun h => by cases a; cases b; cases h; rfl, fun h => h ▸ rfl⟩

/-- What `scheduler()` leaves on its CPU after `intr_on()` and `acquire(&p->lock)`, from the top
of its loop, where it holds no lock. -/
def Resume.ofScheduler (c : Cpu) (h : c.noff = 0) : Resume :=
  ⟨push_off (intr_on c), by rw [push_off_noff]; exact congrArg (· + 1) h, push_off_sie _⟩

/-- `sched()` by a process whose lock is held iff `held` and whose state is `state`, on the CPU
`c`; `swtch(&p->context, &mycpu()->context)` comes back on `r.cpu`, which is `mycpu()` from then
on. -/
def sched (held : Bool) (state : ProcState) (c : Cpu) (r : Resume) : Except String Cpu :=
  if !held then .error "sched p->lock"
  else if c.noff ≠ 1 then .error "sched locks"
  else if state = .RUNNING then .error "sched running"
  else if c.sie then .error "sched interruptible"
  else
    let intena := c.intena
    .ok { r.cpu with intena := intena }

/-! ## A kernel thread's run -/

/-- What a kernel thread does to the interrupt state of the CPU it runs on. `acquire` and
`release` come in as a `push_off` and a `pop_off` (`acquire_cpu`, `release_cpu`). -/
inductive Op
  | push_off
  | pop_off
  | intr_on
  | intr_off
  | sched (held : Bool) (state : ProcState) (r : Resume)
  deriving DecidableEq

/-- One operation. -/
def Op.run : Op → Cpu → Except String Cpu
  | .push_off, c => .ok (Xv6.push_off c)
  | .pop_off, c => Xv6.pop_off c
  | .intr_on, c => .ok (Xv6.intr_on c)
  | .intr_off, c => .ok (Xv6.intr_off c)
  | .sched held state r, c => Xv6.sched held state c r

/-- The operations in order, up to the first panic. -/
def runOps (c : Cpu) : List Op → Except String Cpu
  | [] => .ok c
  | o :: ops => (o.run c).bind fun c' => runOps c' ops

/-- What an operation does to the stack of saved interrupt states: `sched` finds interrupts off
and comes back with them off. -/
def Op.toNest : Op → Nest.Op Bool
  | .push_off => .push
  | .pop_off => .pop
  | .intr_on => .set true
  | .intr_off => .set false
  | .sched .. => .set false

/-- The nesting depth after `ops`: its `push_off`s less its `pop_off`s. -/
def depth (ops : List Op) : ℤ := Nest.depth (ops.map Op.toNest)

/-- The CPU's interrupt state as a counter of `Nest`, with interrupts off inside a push. -/
def Cpu.toCounter (c : Cpu) : Nest.Counter Bool := ⟨c.noff, c.intena, c.sie⟩

@[simp] theorem depth_nil : depth [] = 0 := rfl

@[simp] theorem depth_cons (o : Op) (ops : List Op) :
    depth (o :: ops) = o.toNest.delta + depth ops := rfl

theorem runOps_cons_of_ok {c c₁ : Cpu} {o : Op} (ops : List Op) (h : o.run c = .ok c₁) :
    runOps c (o :: ops) = runOps c₁ ops := by
  rw [runOps, h]
  rfl

/-- Each operation is a step of the counter, and the only panics left, once `pop_off` comes at
a positive depth with interrupts off, are `sched`'s. -/
theorem Op.run_spec {o : Op} {c : Cpu} (hinv : c.toCounter.Inv false)
    (hpop : o = .pop_off → 1 ≤ c.noff) :
    (∀ m, o.run c = .error m → m ≠ "pop_off" ∧ m ≠ "pop_off - interruptible") ∧
      ∀ c', o.run c = .ok c' → c.toCounter.step false o.toNest = some c'.toCounter := by
  obtain ⟨n, intena, sie⟩ := c
  cases o with
  | push_off =>
    refine ⟨fun m h => (by cases h), fun c' h => ?_⟩
    cases h
    by_cases hn : n = 0 <;> simp [Op.toNest, Xv6.push_off, Xv6.intr_off, Nest.Counter.step,
      Cpu.toCounter, hn]
  | pop_off =>
    have hn : 1 ≤ n := hpop rfl
    -- inside a push interrupts are off, so neither panic of `pop_off` fires
    have hsie : sie = false := hinv hn
    subst hsie
    have hrun : Op.run .pop_off ⟨n, intena, false⟩ =
        .ok (if n - 1 = 0 ∧ intena = true then ⟨n - 1, intena, true⟩ else ⟨n - 1, intena, false⟩) := by
      simp only [Op.run, Xv6.pop_off, Bool.false_eq_true, if_false, if_neg (show ¬n < 1 by omega)]
      rfl
    refine ⟨fun m h => ?_, fun c' h => ?_⟩
    · rw [hrun] at h
      cases h
    · rw [hrun] at h
      cases h
      cases intena <;> by_cases hn' : n - 1 = 0 <;>
        simp [Op.toNest, Nest.Counter.step, Cpu.toCounter, hn', show n ≠ 0 by omega]
  | intr_on =>
    refine ⟨fun m h => (by cases h), fun c' h => ?_⟩
    cases h
    rfl
  | intr_off =>
    refine ⟨fun m h => (by cases h), fun c' h => ?_⟩
    cases h
    rfl
  | sched held state r =>
    simp only [Op.run, Xv6.sched] at *
    refine ⟨fun m h => ?_, fun c' h => ?_⟩
    · -- `sched`'s own checks
      split_ifs at h <;> cases h <;> decide
    · split_ifs at h with hheld hnoff hstate hsie
      cases h
      simp only [Bool.not_eq_true] at hsie
      simp only [ne_eq, Decidable.not_not] at hnoff
      subst hnoff hsie
      simp [Op.toNest, Nest.Counter.step, Cpu.toCounter, r.noff_eq, r.sie_eq]

/-! ## Runs -/

/-- A run from depth `n` that never pops below depth 0 and turns interrupts on only at
depth 0. -/
structure Nested (n : ℕ) (ops : List Op) : Prop where
  nonneg : ∀ k ≤ ops.length, 0 ≤ (n : ℤ) + depth (ops.take k)
  intr_on : ∀ k (hk : k < ops.length), ops[k] = .intr_on → (n : ℤ) + depth (ops.take k) = 0

namespace Nested

variable {n : ℕ} {o : Op} {ops : List Op}

theorem pop_pos (h : Nested n (o :: ops)) (ho : o = .pop_off) : 1 ≤ n := by
  have := h.nonneg 1 (by simp)
  subst ho
  simp [Op.toNest, Nest.Op.delta] at this
  omega

theorem intr_on_zero (h : Nested n (o :: ops)) (ho : o = .intr_on) : n = 0 := by
  have := h.intr_on 0 (by simp) ho
  simp only [List.take_zero, depth_nil, Int.add_zero] at this
  omega

/-- After the first operation, the rest of the run starts at the depth the operation left. -/
theorem tail (h : Nested n (o :: ops)) {n' : ℕ} (hn : (n' : ℤ) = n + o.toNest.delta) :
    Nested n' ops := by
  refine ⟨fun k hk => ?_, fun k hk hon => ?_⟩
  · have := h.nonneg (k + 1) (by simp; omega)
    rw [List.take_succ_cons, depth_cons] at this
    omega
  · have := h.intr_on (k + 1) (by simp; omega) (by simpa using hon)
    rw [List.take_succ_cons, depth_cons] at this
    omega

/-- A prefix of such a run is one. -/
theorem left {ops₁ ops₂ : List Op} (h : Nested n (ops₁ ++ ops₂)) : Nested n ops₁ := by
  refine ⟨fun k hk => ?_, fun k hk hon => ?_⟩
  · have := h.nonneg k (by simp; omega)
    rwa [List.take_append_of_le_length hk] at this
  · have := h.intr_on k (by simp; omega) (by rwa [List.getElem_append_left hk])
    rwa [List.take_append_of_le_length (Nat.le_of_lt hk)] at this

end Nested

/-- A run that never pops below depth 0 and turns interrupts on only at depth 0 never panics in
`pop_off`; when it does not panic in `sched`, it leaves `noff` at the depth and interrupts off
inside a push, and its image is a run of the stack of saved interrupt states. -/
theorem runOps_spec (ops : List Op) :
    ∀ c : Cpu, c.toCounter.Inv false → Nested c.noff ops →
      (∀ m, runOps c ops = .error m → m ≠ "pop_off" ∧ m ≠ "pop_off - interruptible") ∧
        ∀ c', runOps c ops = .ok c' →
          c'.toCounter.Inv false ∧ (c'.noff : ℤ) = c.noff + depth ops ∧
            Nest.Stack.run false (c.toCounter.abs false) (ops.map Op.toNest) =
              some (c'.toCounter.abs false) := by
  -- induction on the run, from any CPU state meeting the invariant
  induction ops with
  | nil =>
    intro c hinv _
    refine ⟨fun m h => (by cases h), fun c' h => ?_⟩
    cases h
    exact ⟨hinv, by simp, rfl⟩
  | cons o ops ih =>
    intro c hinv hnest
    obtain ⟨herr, hok⟩ := Op.run_spec hinv (hnest.pop_pos)
    cases hrun : o.run c with
    | error m =>
      -- the run stops at the panic of `o`
      have hstop : runOps c (o :: ops) = .error m := by rw [runOps, hrun]; rfl
      refine ⟨fun m' h => ?_, fun c' h => ?_⟩
      · rw [hstop] at h
        cases h
        exact herr m hrun
      · rw [hstop] at h
        cases h
    | ok c₁ =>
      -- `intr_on` sets interrupts on at depth 0 only, `sched` and `intr_off` set them off
      have hset : ∀ v, o.toNest = .set v → c.toCounter.depth = 0 ∨ v = false := by
        intro v hv
        cases o <;> simp only [Op.toNest, reduceCtorEq, Nest.Op.set.injEq] at hv
        · exact Or.inl (hnest.intr_on_zero rfl)
        · exact Or.inr hv.symm
        · exact Or.inr hv.symm
      obtain ⟨hinv₁, habs, hdepth⟩ := Nest.Counter.step_abs hinv hset (hok c₁ hrun)
      obtain ⟨herr₁, hok₁⟩ := ih c₁ hinv₁ (hnest.tail hdepth)
      rw [runOps_cons_of_ok ops hrun]
      refine ⟨herr₁, fun c' h => ?_⟩
      obtain ⟨hinv', hdepth', hrun'⟩ := hok₁ c' h
      refine ⟨hinv', ?_, ?_⟩
      · rw [hdepth', depth_cons]
        change (c₁.noff : ℤ) = c.noff + o.toNest.delta at hdepth
        omega
      · rw [List.map_cons, Nest.Stack.run_cons, habs, Option.bind_some]
        exact hrun'

/-- Interrupt nesting is restored exactly. From a CPU with `noff = 0` and any interrupt state,
along any run of a kernel thread in which pops never outnumber pushes and interrupts are turned
on only at depth 0: `pop_off` never panics; `noff` is the depth and interrupts are off while it is
positive; and the `pop_off` that brings `noff` back to 0 leaves interrupts as they were before
the `push_off` that raised it from 0, across the `sched`s in between. -/
theorem interrupt_nesting (c₀ : Cpu) (h₀ : c₀.noff = 0) (ops : List Op)
    (hbal : ∀ k ≤ ops.length, 0 ≤ depth (ops.take k))
    (hon : ∀ k (hk : k < ops.length), ops[k] = .intr_on → depth (ops.take k) = 0) :
    (∀ m, runOps c₀ ops = .error m → m ≠ "pop_off" ∧ m ≠ "pop_off - interruptible") ∧
      (∀ c, runOps c₀ ops = .ok c → (c.noff : ℤ) = depth ops ∧ (0 < c.noff → c.sie = false)) ∧
      ∀ pre mid, ops = pre ++ .push_off :: (mid ++ [.pop_off]) →
        (∀ k ≤ mid.length, 0 ≤ depth (mid.take k)) → depth mid = 0 →
        ∀ c c', runOps c₀ pre = .ok c → runOps c₀ ops = .ok c' → c'.sie = c.sie := by
  have hinv₀ : c₀.toCounter.Inv false := fun h => absurd h (by simp [Cpu.toCounter, h₀])
  have hnest : Nested c₀.noff ops :=
    ⟨fun k hk => by simpa [h₀] using hbal k hk, fun k hk hk' => by simpa [h₀] using hon k hk hk'⟩
  obtain ⟨herr, hok⟩ := runOps_spec ops c₀ hinv₀ hnest
  refine ⟨herr, fun c h => ?_, fun pre mid hops hmid hmid0 c c' hpre hall => ?_⟩
  · obtain ⟨hinv, hdepth, -⟩ := hok c h
    exact ⟨by simpa [h₀] using hdepth, hinv⟩
  · -- both runs are runs of the stack machine, which a matched push and pop leave as found
    have hnest_pre : Nested c₀.noff pre := by
      rw [hops] at hnest
      exact hnest.left
    obtain ⟨-, -, hstack_pre⟩ := (runOps_spec pre c₀ hinv₀ hnest_pre).2 c hpre
    obtain ⟨-, -, hstack⟩ := hok c' hall
    have hmid' : ∀ k ≤ (mid.map Op.toNest).length, 0 ≤ Nest.depth ((mid.map Op.toNest).take k) := by
      intro k hk
      rw [← List.map_take]
      exact hmid k (by simpa using hk)
    have hmatched := Nest.Stack.run_matched false (c.toCounter.abs false).saved
      (c.toCounter.abs false).cur _ hmid' hmid0
    rw [hops, List.map_append, Nest.Stack.run_append, hstack_pre, Option.bind_some,
      List.map_cons, List.map_append] at hstack
    rw [show Op.toNest .push_off = .push from rfl, List.map_singleton,
      show Op.toNest .pop_off = .pop from rfl, hmatched] at hstack
    exact (congrArg Nest.Stack.cur (Option.some.inj hstack)).symm

/-- What `yield()` does to the interrupt state: `myproc()` (a `push_off`/`pop_off` pair around
reading `mycpu()->proc`), `acquire(&p->lock)`, then `sched()`, whose own `myproc()` comes before
its checks, with the process `RUNNABLE` and coming back on `r`, and `release(&p->lock)`. -/
def yield (r : Resume) : List Op :=
  [.push_off, .pop_off, .push_off, .push_off, .pop_off, .sched true .RUNNABLE r, .pop_off]

/-- A thread with interrupts off yields and comes back on a CPU whose scheduler ran with
interrupts on: interrupts are off again after `release`. -/
theorem interrupt_nesting_yield :
    let ops := yield (Resume.ofScheduler ⟨0, false, false⟩ rfl)
    (∀ m, runOps ⟨0, true, false⟩ ops = .error m → m ≠ "pop_off" ∧ m ≠ "pop_off - interruptible") ∧
      (∀ c, runOps ⟨0, true, false⟩ ops = .ok c →
        (c.noff : ℤ) = depth ops ∧ (0 < c.noff → c.sie = false)) ∧
      ∀ pre mid, ops = pre ++ .push_off :: (mid ++ [.pop_off]) →
        (∀ k ≤ mid.length, 0 ≤ depth (mid.take k)) → depth mid = 0 →
        ∀ c c', runOps ⟨0, true, false⟩ pre = .ok c → runOps ⟨0, true, false⟩ ops = .ok c' →
          c'.sie = c.sie :=
  interrupt_nesting ⟨0, true, false⟩ rfl _ (by decide) (by decide)

example : runOps ⟨0, true, false⟩ (yield (Resume.ofScheduler ⟨0, false, false⟩ rfl)) =
    .ok ⟨0, false, false⟩ := rfl

end Xv6
