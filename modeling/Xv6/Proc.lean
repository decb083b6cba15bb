import Mathlib
import Xv6.Kalloc
import Xv6.Param
import Xv6.Lib.Scan

/-!
# The process table (`kernel/proc.c`)

`NPROC` slots, each with a state, a pid, a parent pointer, the `killed` flag, the exit status
and the channel a sleeping process waits on. `fork`, `exit`, `wait` and `kill` are system calls
of a `RUNNING` process; the scheduler, timer interrupts and other sleeps move processes between
`RUNNABLE`, `RUNNING` and `SLEEPING`. Each system call runs atomically here: the model starts
after `userinit` and never stops inside `fork` between `allocproc` and the setting of
`np->parent`. A `wait` that sleeps is resumed by calling it again, which is what its loop does
once it is woken.

* `ProcState`, `Proc`, `Ptable`, `allocpid`, `allocproc`, `fork`, `wakeup`, `reparent`, `exit`,
  `wait`, `kill`, `step`, `Reachable` (indexed by the number of pids allocated);
* `step_cases`: a step is calm (no pid, parent or life changes), a `fork`, an `exit`, or a
  `wait` that reaps;
* `Reachable.families`: every live process but `initproc` has a live parent that is not a
  `ZOMBIE`; `Reachable.pids`: while fewer than `2 ^ 31` pids have been handed out, live pids are
  distinct and positive;
* `step_frees_zombie`, `wait_fault`, `wait_fails_iff`: how `wait` reaps a zombie, and exactly
  when it returns -1 having freed nothing;
* `proc_table_inv` puts these together; `proc_table_counterexample`: after `2 ^ 31` pids a live
  pid is negative, and `wait` fails or succeeds in cases the simple description misses;
* `kill_cases`, `Reachable.unused_pid`, `Reachable.kill_live`: `kill(pid)` takes the first slot
  with that pid in any state, `UNUSED` slots have pid `0`, so for any other pid it marks exactly
  the live process with it; `kill_zero_marks_unused`: `kill(0)` marks an `UNUSED` slot, and the
  next `fork` starts its child killed;
* `count_proc_not_UNUSED` and `sys_sysinfo` (`kernel/sysproc.c`): `sys_sysinfo_reachable`,
  `sysinfo_after_kinit`.
-/

namespace Xv6

/-- `enum procstate`. -/
inductive ProcState
  | UNUSED
  | USED
  | SLEEPING
  | RUNNABLE
  | RUNNING
  | ZOMBIE
  deriving DecidableEq, Repr

/-- What a sleeping process waits on (`p->chan`): a process (`wait` sleeps on the caller's own
`struct proc`), or some other kernel address. -/
inductive Chan
  | proc (i : Fin NPROC)
  | other (a : ℕ)
  deriving DecidableEq, Repr

/-- The fields of `struct proc` that the process table's code reads and writes. -/
structure Proc where
  state : ProcState
  pid : ℤ
  parent : Option (Fin NPROC)
  killed : Bool
  xstate : ℤ
  chan : Option Chan
  deriving DecidableEq, Repr

/-- A slot as `freeproc` leaves it, and as the zeroed table starts. -/
def Proc.unused : Proc := ⟨.UNUSED, 0, none, false, 0, none⟩

/-- The process table `proc[NPROC]` and the pid counter `nextpid`. -/
structure Ptable where
  proc : Fin NPROC → Proc
  nextpid : ℤ

/-- `initproc`: `userinit` takes the first slot. -/
def initproc : Fin NPROC := ⟨0, NPROC_pos⟩

/-- An `int` after `+ 1`: the compiled `addw` wraps at 32 bits. -/
def int32 (x : ℤ) : ℤ := (x + 2 ^ 31) % 2 ^ 32 - 2 ^ 31

namespace Ptable

/-- Write one slot. -/
def set (t : Ptable) (i : Fin NPROC) (p : Proc) : Ptable :=
  { t with proc := Function.update t.proc i p }

@[simp] theorem set_nextpid (t : Ptable) (i : Fin NPROC) (p : Proc) :
    (t.set i p).nextpid = t.nextpid := rfl

@[simp] theorem set_proc_self (t : Ptable) (i : Fin NPROC) (p : Proc) :
    (t.set i p).proc i = p := Function.update_self ..

theorem set_proc_ne (t : Ptable) {i j : Fin NPROC} (p : Proc) (h : j ≠ i) :
    (t.set i p).proc j = t.proc j := Function.update_of_ne h ..

/-- The table after `userinit`: `initproc` is `RUNNABLE` with pid 1, and `nextpid` is 2. -/
def init : Ptable :=
  ⟨Function.update (fun _ => Proc.unused) initproc ⟨.RUNNABLE, 1, none, false, 0, none⟩, 2⟩

/-- `allocpid()`. -/
def allocpid (t : Ptable) : Ptable × ℤ := ({ t with nextpid := int32 (t.nextpid + 1) }, t.nextpid)

/-- The slot `allocproc` takes: the first `UNUSED` one. -/
def firstUnused (t : Ptable) : Option (Fin NPROC) :=
  (List.finRange NPROC).find? fun i => (t.proc i).state = .UNUSED

/-- `allocproc()`. `ok` says whether `kalloc` of the trapframe and `proc_pagetable` succeed; when
they do not, `freeproc` clears the slot again, after `allocpid` has run. -/
def allocproc (ok : Bool) (t : Ptable) : Ptable × Option (Fin NPROC) :=
  match firstUnused t with
  | none => (t, none)
  | some i =>
    let r := allocpid t
    if ok then (r.1.set i { t.proc i with pid := r.2, state := .USED }, some i)
    else (r.1.set i Proc.unused, none)

/-- `fork()` by `p`. `ok` is for `allocproc`'s allocations and `copy` for `uvmcopy`. -/
def fork (ok copy : Bool) (p : Fin NPROC) (t : Ptable) : Ptable × ℤ :=
  match allocproc ok t with
  | (t', none) => (t', -1)
  | (t', some np) =>
    if copy then
      (t'.set np { t'.proc np with parent := some p, state := .RUNNABLE }, (t'.proc np).pid)
    else (t'.set np Proc.unused, -1)

/-- `wakeup(chan)` called by `self`: every other process asleep on `c` becomes `RUNNABLE`. The
loop looks at each slot once, so it is a map over the slots. -/
def wakeup (c : Chan) (self : Option (Fin NPROC)) (t : Ptable) : Ptable :=
  { t with proc := fun i =>
      if some i ≠ self ∧ (t.proc i).state = .SLEEPING ∧ (t.proc i).chan = some c then
        { t.proc i with state := .RUNNABLE }
      else t.proc i }

/-- One turn of `reparent`'s loop: a child of `p` goes to `initproc`, which is woken. -/
def reparentOne (p : Fin NPROC) (t : Ptable) (pp : Fin NPROC) : Ptable :=
  if (t.proc pp).parent = some p then
    wakeup (.proc initproc) (some p) (t.set pp { t.proc pp with parent := some initproc })
  else t

/-- `reparent(p)`: pass `p`'s children to `initproc`. -/
def reparent (p : Fin NPROC) (t : Ptable) : Ptable :=
  (List.finRange NPROC).foldl (reparentOne p) t

/-- `exit(status)` by `p`: it panics for `initproc`; else the children go to `initproc`, the
parent is woken, and `p` becomes a `ZOMBIE` with its status. -/
def exit (p : Fin NPROC) (status : ℤ) (t : Ptable) : Option Ptable :=
  if p = initproc then none
  else
    let t₁ := reparent p t
    let t₂ := match (t₁.proc p).parent with
      | some q => wakeup (.proc q) (some p) t₁
      | none => t₁
    some (t₂.set p { t₂.proc p with xstate := status, state := .ZOMBIE })

/-- The first child of `p`, in table order, that is a `ZOMBIE`. -/
def zombieChild (p : Fin NPROC) (t : Ptable) : Option (Fin NPROC) :=
  (List.finRange NPROC).find? fun np => (t.proc np).parent = some p ∧ (t.proc np).state = .ZOMBIE

/-- `havekids` after a scan of the table. -/
def havekids (p : Fin NPROC) (t : Ptable) : Bool :=
  (List.finRange NPROC).any fun np => (t.proc np).parent = some p

/-- One scan of `wait(addr)` by `p`; `copy` says whether `copyout` of the status succeeds. It
returns the call's value with the status it copied out, or `none` when `p` goes to sleep. -/
def wait (p : Fin NPROC) (addr : ℕ) (copy : Bool) (t : Ptable) :
    Ptable × Option (ℤ × Option ℤ) :=
  match zombieChild p t with
  | some np =>
    if addr ≠ 0 ∧ copy = false then (t, some (-1, none))
    else
      (t.set np Proc.unused,
        some ((t.proc np).pid, if addr ≠ 0 then some (t.proc np).xstate else none))
  | none =>
    if havekids p t = false ∨ (t.proc p).killed = true then (t, some (-1, none))
    else (t.set p { t.proc p with state := .SLEEPING, chan := some (.proc p) }, none)

/-- `kill(pid)`: the first slot with that pid is marked killed and woken if asleep. -/
def kill (pid : ℤ) (t : Ptable) : Ptable × ℤ :=
  match (List.finRange NPROC).find? fun i => (t.proc i).pid = pid with
  | none => (t, -1)
  | some i =>
    (t.set i { t.proc i with
        killed := true
        state := if (t.proc i).state = .SLEEPING then .RUNNABLE else (t.proc i).state }, 0)

/-- What can happen next to the process table. -/
inductive Event
  | fork (p : Fin NPROC) (ok copy : Bool)
  | exit (p : Fin NPROC) (status : ℤ)
  | wait (p : Fin NPROC) (addr : ℕ) (copy : Bool)
  | kill (p : Fin NPROC) (pid : ℤ)
  /-- A scheduler switches to a `RUNNABLE` process, which clears its `chan` once it runs. -/
  | sched (p : Fin NPROC)
  /-- A timer interrupt makes a running process `yield`. -/
  | yield (p : Fin NPROC)
  /-- A running process sleeps on another channel: a pipe, a buffer, `ticks`. -/
  | sleep (p : Fin NPROC) (a : ℕ)
  /-- An interrupt handler or another process wakes that channel. -/
  | wakeup (a : ℕ)

/-- One step, with what the process that took it gets back: the value of its system call and
the status `wait` copied out, or `none` (no call returns). `none` as a whole: the step is not
possible here, or the kernel panics. -/
def step : Event → Ptable → Option (Ptable × Option (ℤ × Option ℤ))
  | .fork p ok copy, t =>
    if (t.proc p).state = .RUNNING then
      let r := fork ok copy p t
      some (r.1, some (r.2, none))
    else none
  | .exit p status, t =>
    if (t.proc p).state = .RUNNING then (exit p status t).map fun t' => (t', none) else none
  | .wait p addr copy, t =>
    if (t.proc p).state = .RUNNING then some (wait p addr copy t) else none
  | .kill p pid, t =>
    if (t.proc p).state = .RUNNING then
      let r := kill pid t
      some (r.1, some (r.2, none))
    else none
  | .sched p, t =>
    if (t.proc p).state = .RUNNABLE then
      some (t.set p { t.proc p with state := .RUNNING, chan := none }, none)
    else none
  | .yield p, t =>
    if (t.proc p).state = .RUNNING then some (t.set p { t.proc p with state := .RUNNABLE }, none)
    else none
  | .sleep p a, t =>
    if (t.proc p).state = .RUNNING then
      some (t.set p { t.proc p with state := .SLEEPING, chan := some (.other a) }, none)
    else none
  | .wakeup a, t => some (wakeup (.other a) none t, none)

/-- The tables reachable from `userinit`, with the number of pids `allocpid` has handed out: a
step changes `nextpid` exactly when it calls `allocpid`. -/
inductive Reachable : ℕ → Ptable → Prop
  | init : Reachable 1 Ptable.init
  | step {k : ℕ} {t t' : Ptable} {e : Event} {o : Option (ℤ × Option ℤ)} :
      Reachable k t → step e t = some (t', o) →
      Reachable (if t'.nextpid = t.nextpid then k else k + 1) t'

/-! ### What each function does to the slots -/

theorem set_set (t : Ptable) (i : Fin NPROC) (p q : Proc) : (t.set i p).set i q = t.set i q := by
  simp [Ptable.set]

theorem set_of_eq {t : Ptable} {i : Fin NPROC} {q : Proc} (h : t.proc i = q) : t.set i q = t := by
  subst h
  simp [Ptable.set]

theorem set_proc (t : Ptable) (i j : Fin NPROC) (p : Proc) :
    (t.set i p).proc j = if j = i then p else t.proc j := by
  simp only [Ptable.set, Function.update_apply]

theorem firstUnused_spec {t : Ptable} {i : Fin NPROC} (h : firstUnused t = some i) :
    (t.proc i).state = .UNUSED := by
  simpa using List.find?_some h

theorem zombieChild_spec {p : Fin NPROC} {t : Ptable} {np : Fin NPROC}
    (h : zombieChild p t = some np) :
    (t.proc np).parent = some p ∧ (t.proc np).state = .ZOMBIE := by
  simpa using List.find?_some h

/-- `int32` is the identity on the `int`s. -/
theorem int32_of_lt {x : ℤ} (h₁ : -2 ^ 31 ≤ x) (h₂ : x < 2 ^ 31) : int32 x = x := by
  unfold int32
  omega

/-- `allocpid` always moves `nextpid`, which holds an `int`. -/
theorem int32_succ_ne (x : ℤ) : int32 (int32 x + 1) ≠ int32 x := by
  unfold int32
  omega

theorem int32_int32_add_one (x : ℤ) : int32 (int32 x + 1) = int32 (x + 1) := by
  unfold int32
  omega

theorem fork_none {ok copy : Bool} {p : Fin NPROC} {t : Ptable} (h : firstUnused t = none) :
    fork ok copy p t = (t, -1) := by
  simp [fork, allocproc, h]

/-- A `fork` that fails after `allocproc` found a slot has used up a pid and left the slot
`UNUSED`. -/
theorem fork_fail {ok copy : Bool} {p i : Fin NPROC} {t : Ptable} (h : firstUnused t = some i)
    (hf : ok = false ∨ copy = false) :
    fork ok copy p t = (({ t with nextpid := int32 (t.nextpid + 1) } : Ptable).set i Proc.unused, -1) := by
  rcases hf with rfl | rfl
  · simp [fork, allocproc, h, allocpid]
  · cases ok <;> simp [fork, allocproc, h, allocpid, set_set]

theorem fork_ok {p i : Fin NPROC} {t : Ptable} (h : firstUnused t = some i) :
    fork true true p t =
      (({ t with nextpid := int32 (t.nextpid + 1) } : Ptable).set i
        { t.proc i with pid := t.nextpid, parent := some p, state := .RUNNABLE }, t.nextpid) := by
  simp [fork, allocproc, h, allocpid, set_set]

/-- `t'` keeps the processes of `t`: the same `nextpid`, the same pid in every slot, and the same
`UNUSED` slots. -/
structure Keeps (t t' : Ptable) : Prop where
  nextpid : t'.nextpid = t.nextpid
  pid : ∀ i, (t'.proc i).pid = (t.proc i).pid
  unused : ∀ i, (t'.proc i).state = .UNUSED ↔ (t.proc i).state = .UNUSED

theorem Keeps.refl (t : Ptable) : Keeps t t := ⟨rfl, fun _ => rfl, fun _ => Iff.rfl⟩

theorem Keeps.trans {t₁ t₂ t₃ : Ptable} (h₁ : Keeps t₁ t₂) (h₂ : Keeps t₂ t₃) : Keeps t₁ t₃ :=
  ⟨h₂.nextpid.trans h₁.nextpid, fun i => (h₂.pid i).trans (h₁.pid i),
    fun i => (h₂.unused i).trans (h₁.unused i)⟩

theorem Keeps.set (t : Ptable) {i : Fin NPROC} {q : Proc} (hpid : q.pid = (t.proc i).pid)
    (hunused : q.state = .UNUSED ↔ (t.proc i).state = .UNUSED) : Keeps t (t.set i q) := by
  refine ⟨rfl, fun j => ?_, fun j => ?_⟩ <;> by_cases hj : j = i
  · subst hj; simpa using hpid
  · rw [set_proc_ne t q hj]
  · subst hj; simpa using hunused
  · rw [set_proc_ne t q hj]

/-- A woken process was `SLEEPING` and becomes `RUNNABLE`; nothing else changes. -/
theorem wakeup_proc (c : Chan) (self : Option (Fin NPROC)) (t : Ptable) (i : Fin NPROC) :
    (wakeup c self t).proc i = t.proc i ∨
      ((t.proc i).state = .SLEEPING ∧ (wakeup c self t).proc i = { t.proc i with state := .RUNNABLE }) := by
  dsimp only [wakeup]
  split_ifs with h
  · exact Or.inr ⟨h.2.1, rfl⟩
  · exact Or.inl rfl

theorem wakeup_keeps (c : Chan) (self : Option (Fin NPROC)) (t : Ptable) :
    Keeps t (wakeup c self t) := by
  refine ⟨rfl, fun i => ?_, fun i => ?_⟩ <;> rcases wakeup_proc c self t i with h | ⟨hs, h⟩
  · rw [h]
  · rw [h]
  · rw [h]
  · rw [h, hs]
    simp

theorem wakeup_parent (c : Chan) (self : Option (Fin NPROC)) (t : Ptable) (i : Fin NPROC) :
    ((wakeup c self t).proc i).parent = (t.proc i).parent := by
  rcases wakeup_proc c self t i with h | ⟨-, h⟩ <;> rw [h]

/-- A change that leaves every process's pid, parent and life as they were: only flags, and
states among `SLEEPING`, `RUNNABLE` and `RUNNING`. -/
structure Calm (t t' : Ptable) : Prop extends Keeps t t' where
  zombie : ∀ i, (t'.proc i).state = .ZOMBIE ↔ (t.proc i).state = .ZOMBIE
  parent : ∀ i, (t'.proc i).parent = (t.proc i).parent

theorem Calm.refl (t : Ptable) : Calm t t := ⟨Keeps.refl t, fun _ => Iff.rfl, fun _ => rfl⟩

theorem Calm.set (t : Ptable) {i : Fin NPROC} {q : Proc} (hpid : q.pid = (t.proc i).pid)
    (hparent : q.parent = (t.proc i).parent)
    (hunused : q.state = .UNUSED ↔ (t.proc i).state = .UNUSED)
    (hzombie : q.state = .ZOMBIE ↔ (t.proc i).state = .ZOMBIE) : Calm t (t.set i q) := by
  refine ⟨Keeps.set t hpid hunused, fun j => ?_, fun j => ?_⟩ <;> by_cases hj : j = i
  · subst hj; simpa using hzombie
  · rw [set_proc_ne t q hj]
  · subst hj; simpa using hparent
  · rw [set_proc_ne t q hj]

theorem wakeup_calm (c : Chan) (self : Option (Fin NPROC)) (t : Ptable) :
    Calm t (wakeup c self t) := by
  refine ⟨wakeup_keeps c self t, fun i => ?_, wakeup_parent c self t⟩
  rcases wakeup_proc c self t i with h | ⟨hs, h⟩ <;> rw [h]
  rw [hs]
  simp

/-- Moving a running or runnable process between `SLEEPING`, `RUNNABLE` and `RUNNING`. -/
theorem Calm.move (t : Ptable) {i : Fin NPROC} {q : Proc} (hq : q.pid = (t.proc i).pid)
    (hparent : q.parent = (t.proc i).parent)
    (hold : (t.proc i).state = .RUNNING ∨ (t.proc i).state = .RUNNABLE)
    (hnew : q.state = .SLEEPING ∨ q.state = .RUNNABLE ∨ q.state = .RUNNING) :
    Calm t (t.set i q) := by
  apply Calm.set t hq hparent
  · rcases hold with h | h <;> rcases hnew with h' | h' | h' <;> simp [h, h']
  · rcases hold with h | h <;> rcases hnew with h' | h' | h' <;> simp [h, h']

theorem kill_calm (pid : ℤ) (t : Ptable) : Calm t (kill pid t).1 := by
  unfold kill
  split
  · exact Calm.refl t
  · rename_i i _
    refine Calm.set t (i := i) rfl rfl ?_ ?_ <;> split_ifs with h <;> simp [h]

/-! ### `reparent` and `exit` -/

theorem reparentOne_parent (p : Fin NPROC) (t : Ptable) (pp i : Fin NPROC) :
    ((reparentOne p t pp).proc i).parent =
      if i = pp ∧ (t.proc i).parent = some p then some initproc else (t.proc i).parent := by
  unfold reparentOne
  split_ifs with h₁ h₂ h₂
  · rw [wakeup_parent, h₂.1, set_proc_self]
  · rw [wakeup_parent, set_proc]
    rw [not_and] at h₂
    split_ifs with h₃
    · exact absurd (h₃ ▸ h₁) (h₂ h₃)
    · rfl
  · exact absurd (h₂.1 ▸ h₂.2) h₁
  · rfl

theorem reparentOne_calm_but_parent (p : Fin NPROC) (t : Ptable) (pp : Fin NPROC) :
    Keeps t (reparentOne p t pp) ∧
      ∀ i, ((reparentOne p t pp).proc i).state = .ZOMBIE ↔ (t.proc i).state = .ZOMBIE := by
  unfold reparentOne
  split_ifs
  · have h₁ := Keeps.set t (i := pp) (q := { t.proc pp with parent := some initproc }) rfl
      Iff.rfl
    -- only the parent of `pp` changes before the wakeup
    have hz₁ : ∀ i, ((t.set pp { t.proc pp with parent := some initproc }).proc i).state =
        (t.proc i).state := fun i => by
      rw [set_proc]
      split_ifs with h <;> simp [h]
    have h₂ := wakeup_calm (.proc initproc) (some p) (t.set pp { t.proc pp with parent := some initproc })
    exact ⟨h₁.trans h₂.toKeeps, fun i => (h₂.zombie i).trans (by rw [hz₁])⟩
  · exact ⟨Keeps.refl t, fun _ => Iff.rfl⟩

/-- After `reparent`, the children of `p` are children of `initproc`; no other parent moves. -/
theorem reparent_spec {p : Fin NPROC} (hp : p ≠ initproc) :
    ∀ (l : List (Fin NPROC)) (t : Ptable), Keeps t (l.foldl (reparentOne p) t) ∧
      (∀ i, ((l.foldl (reparentOne p) t).proc i).state = .ZOMBIE ↔ (t.proc i).state = .ZOMBIE) ∧
      ∀ i, ((l.foldl (reparentOne p) t).proc i).parent =
        if i ∈ l ∧ (t.proc i).parent = some p then some initproc else (t.proc i).parent := by
  have hne : some initproc ≠ some p := fun h => hp (Option.some_inj.mp h).symm
  intro l
  induction l with
  | nil => exact fun t => ⟨Keeps.refl t, fun _ => Iff.rfl, fun i => by simp⟩
  | cons a l ih =>
    intro t
    obtain ⟨hk, hz, hpar⟩ := ih (reparentOne p t a)
    obtain ⟨hk₁, hz₁⟩ := reparentOne_calm_but_parent p t a
    refine ⟨hk₁.trans hk, fun i => (hz i).trans (hz₁ i), fun i => ?_⟩
    rw [List.foldl_cons, hpar, reparentOne_parent]
    by_cases h₂ : (t.proc i).parent = some p
    · rcases eq_or_ne i a with rfl | h₁
      · simp [h₂, hne]
      · simp [h₁, h₂]
    · simp [h₂]

/-- `exit` by a process other than `initproc`: the children go to `initproc`, wakeups, and the
caller becomes a `ZOMBIE`. -/
theorem exit_spec {p : Fin NPROC} (hp : p ≠ initproc) (status : ℤ) (t : Ptable) :
    ∃ t₂, exit p status t = some (t₂.set p { t₂.proc p with xstate := status, state := .ZOMBIE }) ∧
      Keeps t t₂ ∧ (∀ i, (t₂.proc i).state = .ZOMBIE ↔ (t.proc i).state = .ZOMBIE) ∧
      ∀ i, (t₂.proc i).parent =
        if (t.proc i).parent = some p then some initproc else (t.proc i).parent := by
  obtain ⟨hk, hz, hpar⟩ := reparent_spec hp (List.finRange NPROC) t
  simp only [← reparent.eq_1, List.mem_finRange, true_and] at hk hz hpar
  rw [exit, if_neg hp]
  -- keep `reparent` folded: its loop runs over all `NPROC` slots
  generalize reparent p t = t₁ at hk hz hpar ⊢
  cases hq : (t₁.proc p).parent with
  | none => exact ⟨t₁, by simp only [hq], hk, hz, hpar⟩
  | some q =>
    have hw := wakeup_calm (.proc q) (some p) t₁
    exact ⟨wakeup (.proc q) (some p) t₁, by simp only [hq], hk.trans hw.toKeeps, fun i => (hw.zombie i).trans (hz i),
      fun i => by rw [hw.parent, hpar]⟩

/-! ### Inversion of a step -/

theorem wait_cases (p : Fin NPROC) (addr : ℕ) (copy : Bool) (t : Ptable) :
    wait p addr copy t = (t, some (-1, none)) ∨
      (zombieChild p t = none ∧
        wait p addr copy t = (t.set p { t.proc p with state := .SLEEPING, chan := some (.proc p) }, none)) ∨
      ∃ np, zombieChild p t = some np ∧ ¬(addr ≠ 0 ∧ copy = false) ∧
        wait p addr copy t = (t.set np Proc.unused,
          some ((t.proc np).pid, if addr ≠ 0 then some (t.proc np).xstate else none)) := by
  unfold wait
  cases hz : zombieChild p t with
  | some np =>
    by_cases h : addr ≠ 0 ∧ copy = false
    · exact Or.inl (if_pos h)
    · exact Or.inr (Or.inr ⟨np, rfl, h, if_neg h⟩)
  | none =>
    by_cases h : havekids p t = false ∨ (t.proc p).killed = true
    · exact Or.inl (if_pos h)
    · exact Or.inr (Or.inl ⟨rfl, if_neg h⟩)

/-- Everything a step can do: leave every process as it was but for flags and scheduling
states, `fork`, `exit`, or have `wait` reap a zombie child. -/
theorem step_cases {e : Event} {t t' : Ptable} {o : Option (ℤ × Option ℤ)}
    (h : step e t = some (t', o)) :
    Calm t t' ∨
      (∃ p ok copy, (t.proc p).state = .RUNNING ∧ t' = (fork ok copy p t).1) ∨
      (∃ p status, (t.proc p).state = .RUNNING ∧ p ≠ initproc ∧ exit p status t = some t') ∨
      ∃ p addr copy np, e = .wait p addr copy ∧ (t.proc p).state = .RUNNING ∧
        zombieChild p t = some np ∧ t' = t.set np Proc.unused ∧
        o = some ((t.proc np).pid, if addr ≠ 0 then some (t.proc np).xstate else none) := by
  cases e with
  | fork p ok copy =>
    simp only [step] at h
    split_ifs at h with hr
    cases h
    exact Or.inr (Or.inl ⟨p, ok, copy, hr, rfl⟩)
  | exit p status =>
    simp only [step] at h
    split_ifs at h with hr
    obtain ⟨t₁, h₁, h₂⟩ := Option.map_eq_some_iff.mp h
    cases h₂
    have hp : p ≠ initproc := fun hp => by simp [exit, hp] at h₁
    exact Or.inr (Or.inr (Or.inl ⟨p, status, hr, hp, h₁⟩))
  | wait p addr copy =>
    simp only [step] at h
    split_ifs at h with hr
    rcases wait_cases p addr copy t with hw | ⟨-, hw⟩ | ⟨np, hz, -, hw⟩ <;> rw [hw] at h <;>
      cases h
    · exact Or.inl (Calm.refl t)
    · exact Or.inl (Calm.move t rfl rfl (Or.inl hr) (Or.inl rfl))
    · exact Or.inr (Or.inr (Or.inr ⟨p, addr, copy, np, rfl, hr, hz, rfl, rfl⟩))
  | kill p pid =>
    simp only [step] at h
    split_ifs at h
    cases h
    exact Or.inl (kill_calm pid t)
  | sched p =>
    simp only [step] at h
    split_ifs at h with hr
    cases h
    exact Or.inl (Calm.move t rfl rfl (Or.inr hr) (Or.inr (Or.inr rfl)))
  | yield p =>
    simp only [step] at h
    split_ifs at h with hr
    cases h
    exact Or.inl (Calm.move t rfl rfl (Or.inl hr) (Or.inr (Or.inl rfl)))
  | sleep p a =>
    simp only [step] at h
    split_ifs at h with hr
    cases h
    exact Or.inl (Calm.move t rfl rfl (Or.inl hr) (Or.inl rfl))
  | wakeup a =>
    simp only [step] at h
    cases h
    exact Or.inl (wakeup_calm _ none t)

/-- `fork` writes only a slot that was `UNUSED`. -/
theorem fork_proc_of_live {ok copy : Bool} {p i : Fin NPROC} {t : Ptable}
    (hi : (t.proc i).state ≠ .UNUSED) : (fork ok copy p t).1.proc i = t.proc i := by
  cases hu : firstUnused t with
  | none => rw [fork_none hu]
  | some j =>
    have hij : i ≠ j := fun e => hi (e ▸ firstUnused_spec hu)
    by_cases hok : ok = true ∧ copy = true
    · obtain ⟨rfl, rfl⟩ := hok
      rw [fork_ok hu]
      exact set_proc_ne _ _ hij
    · rw [fork_fail hu (by cases ok <;> cases copy <;> simp_all)]
      exact set_proc_ne _ _ hij

/-! ### Every live process has a live parent -/

/-- The process tree: `initproc` is alive and not a `ZOMBIE`, and every other live process has a
parent that is alive and not a `ZOMBIE`. -/
structure Families (t : Ptable) : Prop where
  init_live : (t.proc initproc).state ≠ .UNUSED
  init_zombie : (t.proc initproc).state ≠ .ZOMBIE
  parent : ∀ i, (t.proc i).state ≠ .UNUSED → i ≠ initproc →
    ∃ j, (t.proc i).parent = some j ∧ (t.proc j).state ≠ .UNUSED ∧ (t.proc j).state ≠ .ZOMBIE

theorem Families.init : Families Ptable.init := by
  refine ⟨by simp [Ptable.init], by simp [Ptable.init], fun i hi hne => ?_⟩
  simp [Ptable.init, Function.update_of_ne hne, Proc.unused] at hi

theorem Families.nextpid {t : Ptable} (h : Families t) (x : ℤ) :
    Families { t with nextpid := x } :=
  ⟨h.init_live, h.init_zombie, h.parent⟩

theorem Families.calm {t t' : Ptable} (h : Families t) (hc : Calm t t') : Families t' := by
  refine ⟨?_, ?_, fun i hi hne => ?_⟩
  · rw [Ne, hc.unused]
    exact h.init_live
  · rw [Ne, hc.zombie]
    exact h.init_zombie
  · rw [Ne, hc.unused] at hi
    obtain ⟨j, hj, hju, hjz⟩ := h.parent i hi hne
    refine ⟨j, (hc.parent i).trans hj, ?_, ?_⟩
    · rw [Ne, hc.unused]
      exact hju
    · rw [Ne, hc.zombie]
      exact hjz

/-- Filling an `UNUSED` slot with a process whose parent lives in another slot. -/
theorem Families.set_unused {t : Ptable} {i : Fin NPROC} {q : Proc} (h : Families t)
    (hi : (t.proc i).state = .UNUSED)
    (hq : q.state ≠ .UNUSED → ∃ j, j ≠ i ∧ q.parent = some j ∧
      (t.proc j).state ≠ .UNUSED ∧ (t.proc j).state ≠ .ZOMBIE) :
    Families (t.set i q) := by
  -- nothing points at the free slot `i`: every parent is alive
  have hne : ∀ {j}, (t.proc j).state ≠ .UNUSED → j ≠ i := fun hj e => hj (e ▸ hi)
  have h0 := hne h.init_live
  refine ⟨?_, ?_, fun j hj hj0 => ?_⟩
  · rw [set_proc_ne t q h0]
    exact h.init_live
  · rw [set_proc_ne t q h0]
    exact h.init_zombie
  by_cases hji : j = i
  · subst hji
    rw [set_proc_self] at hj ⊢
    obtain ⟨k, hk, hkq, hku, hkz⟩ := hq hj
    exact ⟨k, hkq, by rwa [set_proc_ne t q hk], by rwa [set_proc_ne t q hk]⟩
  · rw [set_proc_ne t q hji] at hj ⊢
    obtain ⟨k, hkp, hku, hkz⟩ := h.parent j hj hj0
    exact ⟨k, hkp, by rwa [set_proc_ne t q (hne hku)], by rwa [set_proc_ne t q (hne hku)]⟩

theorem Families.fork {t : Ptable} {p : Fin NPROC} (h : Families t)
    (hr : (t.proc p).state = .RUNNING) (ok copy : Bool) : Families (fork ok copy p t).1 := by
  cases hu : firstUnused t with
  | none =>
    rw [fork_none hu]
    exact h
  | some i =>
    have hi := firstUnused_spec hu
    by_cases hok : ok = true ∧ copy = true
    · obtain ⟨rfl, rfl⟩ := hok
      rw [fork_ok hu]
      -- the child's parent is the caller, which runs, so it is in another slot
      have hpi : p ≠ i := fun e => by rw [e, hi] at hr; cases hr
      exact (h.nextpid _).set_unused hi fun _ => ⟨p, hpi, rfl, by simp [hr], by simp [hr]⟩
    · rw [fork_fail hu (by cases ok <;> cases copy <;> simp_all)]
      exact (h.nextpid _).set_unused hi fun hq => absurd rfl hq

/-- The last write of `exit`: the caller, a live process other than `initproc`, becomes a
`ZOMBIE` after its children went to `initproc`. -/
theorem Families.zombify {t t₂ : Ptable} {p : Fin NPROC} {q : Proc} (h : Families t)
    (hr : (t.proc p).state ≠ .UNUSED) (hp : p ≠ initproc) (hk : Keeps t t₂)
    (hz : ∀ i, (t₂.proc i).state = .ZOMBIE ↔ (t.proc i).state = .ZOMBIE)
    (hpar : ∀ i, (t₂.proc i).parent =
      if (t.proc i).parent = some p then some initproc else (t.proc i).parent)
    (hq : q.parent = (t₂.proc p).parent) : Families (t₂.set p q) := by
  -- slots other than `p` that were good parents still are
  have hgood : ∀ j, j ≠ p → (t.proc j).state ≠ .UNUSED → (t.proc j).state ≠ .ZOMBIE →
      ((t₂.set p q).proc j).state ≠ .UNUSED ∧ ((t₂.set p q).proc j).state ≠ .ZOMBIE :=
    fun j hj hu hz' => by
      rw [set_proc_ne _ _ hj, Ne, hk.unused, Ne, hz]
      exact ⟨hu, hz'⟩
  -- after `reparent`, no live process has `p` as its parent
  have hnew : ∀ j, (t.proc j).state ≠ .UNUSED → j ≠ initproc → ∃ k, (t₂.proc j).parent = some k ∧
      k ≠ p ∧ (t.proc k).state ≠ .UNUSED ∧ (t.proc k).state ≠ .ZOMBIE := fun j hj hj0 => by
    obtain ⟨k, hkj, hku, hkz⟩ := h.parent j hj hj0
    rw [hpar, hkj]
    by_cases hkp : k = p
    · subst hkp
      exact ⟨initproc, by simp, hp.symm, h.init_live, h.init_zombie⟩
    · exact ⟨k, by simp [hkp], hkp, hku, hkz⟩
  have hinit := hgood initproc hp.symm h.init_live h.init_zombie
  refine ⟨hinit.1, hinit.2, fun j hj hj0 => ?_⟩
  by_cases hjp : j = p
  · subst hjp
    obtain ⟨k, hkj, hkp, hku, hkz⟩ := hnew j hr hj0
    exact ⟨k, by simpa [hq] using hkj, hgood k hkp hku hkz⟩
  · rw [set_proc_ne _ _ hjp] at hj ⊢
    rw [Ne, hk.unused] at hj
    obtain ⟨k, hkj, hkp, hku, hkz⟩ := hnew j hj hj0
    exact ⟨k, hkj, hgood k hkp hku hkz⟩

theorem Families.exit {t t' : Ptable} {p : Fin NPROC} {status : ℤ} (h : Families t)
    (hr : (t.proc p).state = .RUNNING) (hp : p ≠ initproc) (hx : exit p status t = some t') :
    Families t' := by
  obtain ⟨t₂, he, hk, hz, hpar⟩ := exit_spec hp status t
  rw [he, Option.some_inj] at hx
  subst hx
  exact h.zombify (by simp [hr]) hp hk hz hpar rfl

/-- `wait` frees a `ZOMBIE` child, which no live process has as its parent. -/
theorem Families.reap {t : Ptable} {p np : Fin NPROC} (h : Families t)
    (hz : zombieChild p t = some np) : Families (t.set np Proc.unused) := by
  have hnp := (zombieChild_spec hz).2
  have hne : ∀ {j}, (t.proc j).state ≠ .ZOMBIE → j ≠ np := fun hj e => hj (e ▸ hnp)
  refine ⟨?_, ?_, fun j hj hj0 => ?_⟩
  · rw [set_proc_ne _ _ (hne h.init_zombie)]
    exact h.init_live
  · rw [set_proc_ne _ _ (hne h.init_zombie)]
    exact h.init_zombie
  have hjn : j ≠ np := fun e => by subst e; simp [Proc.unused] at hj
  rw [set_proc_ne _ _ hjn] at hj ⊢
  obtain ⟨k, hkj, hku, hkz⟩ := h.parent j hj hj0
  exact ⟨k, hkj, by rwa [set_proc_ne _ _ (hne hkz)], by rwa [set_proc_ne _ _ (hne hkz)]⟩

theorem Families.step {t t' : Ptable} {e : Event} {o : Option (ℤ × Option ℤ)} (h : Families t)
    (hs : step e t = some (t', o)) : Families t' := by
  rcases step_cases hs with hc | ⟨p, ok, copy, hr, rfl⟩ | ⟨p, status, hr, hp, hx⟩ |
      ⟨p, addr, copy, np, -, -, hz, rfl, -⟩
  · exact h.calm hc
  · exact h.fork hr ok copy
  · exact h.exit hr hp hx
  · exact h.reap hz

theorem Reachable.families {k : ℕ} {t : Ptable} (hr : Reachable k t) : Families t := by
  induction hr with
  | init => exact Families.init
  | step _ hs ih => exact ih.step hs

/-! ### Pids -/

/-- Live pids are distinct and lie between 1 and the number `k` of pids handed out. -/
structure Pids (k : ℕ) (t : Ptable) : Prop where
  bound : ∀ i, (t.proc i).state ≠ .UNUSED → 1 ≤ (t.proc i).pid ∧ (t.proc i).pid ≤ k
  unique : ∀ i j, (t.proc i).state ≠ .UNUSED → (t.proc j).state ≠ .UNUSED →
    (t.proc i).pid = (t.proc j).pid → i = j

theorem init_live {i : Fin NPROC} (hi : (Ptable.init.proc i).state ≠ .UNUSED) : i = initproc := by
  by_contra hne
  simp [Ptable.init, Function.update_of_ne hne, Proc.unused] at hi

theorem Pids.init : Pids 1 Ptable.init := by
  refine ⟨fun i hi => ?_, fun i j hi hj _ => (init_live hi).trans (init_live hj).symm⟩
  rw [init_live hi]
  simp [Ptable.init]

/-- A table with no live process that `t` lacks, and the same pids, keeps the bounds. -/
theorem Pids.of_fewer {k k' : ℕ} {t t' : Ptable} (h : Pids k t) (hkk : k ≤ k')
    (hf : ∀ i, (t'.proc i).state ≠ .UNUSED →
      (t.proc i).state ≠ .UNUSED ∧ (t'.proc i).pid = (t.proc i).pid) : Pids k' t' := by
  refine ⟨fun i hi => ?_, fun i j hi hj hij => ?_⟩
  · obtain ⟨hi', hpid⟩ := hf i hi
    have := h.bound i hi'
    rw [hpid]
    omega
  · obtain ⟨hi', hpi⟩ := hf i hi
    obtain ⟨hj', hpj⟩ := hf j hj
    exact h.unique i j hi' hj' (hpi ▸ hpj ▸ hij)

theorem Keeps.fewer {t t' : Ptable} (hk : Keeps t t') (i : Fin NPROC)
    (hi : (t'.proc i).state ≠ .UNUSED) :
    (t.proc i).state ≠ .UNUSED ∧ (t'.proc i).pid = (t.proc i).pid := by
  rw [Ne, ← hk.unused]
  exact ⟨hi, hk.pid i⟩

theorem set_unused_fewer (t : Ptable) (np i : Fin NPROC)
    (hi : ((t.set np Proc.unused).proc i).state ≠ .UNUSED) :
    (t.proc i).state ≠ .UNUSED ∧ ((t.set np Proc.unused).proc i).pid = (t.proc i).pid := by
  have hin : i ≠ np := fun e => by subst e; simp [Proc.unused] at hi
  rw [set_proc_ne _ _ hin] at hi ⊢
  exact ⟨hi, rfl⟩

/-- A successful `fork` gives its child the next pid, `k + 1`. -/
theorem Pids.fork_ok {k : ℕ} {t : Ptable} {i p : Fin NPROC} {x : ℤ} (h : Pids k t)
    (hn : t.nextpid = k + 1) (hi : (t.proc i).state = .UNUSED) :
    Pids (k + 1) (({ t with nextpid := x } : Ptable).set i
      { t.proc i with pid := t.nextpid, parent := some p, state := .RUNNABLE }) := by
  have hne : ∀ {j}, (t.proc j).state ≠ .UNUSED → j ≠ i := fun hj e => hj (e ▸ hi)
  -- every other live pid is at most `k`
  have hold : ∀ j, j ≠ i → ((({ t with nextpid := x } : Ptable).set i
      { t.proc i with pid := t.nextpid, parent := some p, state := .RUNNABLE }).proc j).state ≠
        .UNUSED → (t.proc j).state ≠ .UNUSED ∧ 1 ≤ (t.proc j).pid ∧ (t.proc j).pid ≤ k :=
    fun j hj hl => by
      rw [set_proc_ne _ _ hj] at hl
      exact ⟨hl, h.bound j hl⟩
  refine ⟨fun j hj => ?_, fun j₁ j₂ hj₁ hj₂ hpid => ?_⟩
  · by_cases hji : j = i
    · subst hji
      simp only [set_proc_self, hn]
      omega
    · have := hold j hji hj
      rw [set_proc_ne _ _ hji]
      dsimp only
      omega
  · by_cases h₁ : j₁ = i <;> by_cases h₂ : j₂ = i
    · exact h₁.trans h₂.symm
    · have := hold j₂ h₂ hj₂
      simp only [h₁, set_proc_self, set_proc_ne _ _ h₂, hn] at hpid
      omega
    · have := hold j₁ h₁ hj₁
      simp only [h₂, set_proc_self, set_proc_ne _ _ h₁, hn] at hpid
      omega
    · rw [set_proc_ne _ _ h₁, set_proc_ne _ _ h₂] at hpid
      exact h.unique j₁ j₂ (hold j₁ h₁ hj₁).1 (hold j₂ h₂ hj₂).1 hpid

/-- `fork` calls `allocpid` as soon as it finds a slot. -/
theorem fork_nextpid {ok copy : Bool} {p i : Fin NPROC} {t : Ptable} (hu : firstUnused t = some i) :
    (fork ok copy p t).1.nextpid = int32 (t.nextpid + 1) := by
  by_cases hok : ok = true ∧ copy = true
  · obtain ⟨rfl, rfl⟩ := hok
    rw [fork_ok hu]
    rfl
  · rw [fork_fail hu (by cases ok <;> cases copy <;> simp_all)]
    rfl

/-- How one step moves `nextpid`: not at all, or by one `allocpid`. -/
theorem step_nextpid {e : Event} {t t' : Ptable} {o : Option (ℤ × Option ℤ)}
    (hs : step e t = some (t', o)) :
    t'.nextpid = t.nextpid ∨ t'.nextpid = int32 (t.nextpid + 1) := by
  rcases step_cases hs with hc | ⟨p, ok, copy, -, rfl⟩ | ⟨p, status, -, hp, hx⟩ |
      ⟨p, addr, copy, np, -, -, -, rfl, -⟩
  · exact Or.inl hc.nextpid
  · cases hu : firstUnused t with
    | none => exact Or.inl (by rw [fork_none hu])
    | some i => exact Or.inr (fork_nextpid hu)
  · obtain ⟨t₂, he, hk, -⟩ := exit_spec hp status t
    rw [he, Option.some_inj] at hx
    subst hx
    exact Or.inl hk.nextpid
  · exact Or.inl rfl

/-- `nextpid` is the `k + 1`-th pid, as an `int`. -/
theorem Reachable.nextpid {k : ℕ} {t : Ptable} (hr : Reachable k t) :
    t.nextpid = int32 (k + 1) := by
  induction hr with
  | init => decide
  | @step k t t' e o _ hs ih =>
    rcases step_nextpid hs with h | h
    · rw [if_pos h, h, ih]
    · have hne : t'.nextpid ≠ t.nextpid := by
        rw [h, ih]
        exact int32_succ_ne _
      rw [if_neg hne, h, ih, int32_int32_add_one]
      congr 1

/-- After a step, the live pids are bounded by the new count of pids handed out, as long as that
count is below `2 ^ 31`. -/
theorem Pids.step {k : ℕ} {t t' : Ptable} {e : Event} {o : Option (ℤ × Option ℤ)} (h : Pids k t)
    (hn : t.nextpid = int32 (k + 1)) (hs : step e t = some (t', o))
    (hk : (if t'.nextpid = t.nextpid then k else k + 1) < 2 ^ 31) :
    Pids (if t'.nextpid = t.nextpid then k else k + 1) t' := by
  rcases step_cases hs with hc | ⟨p, ok, copy, -, rfl⟩ | ⟨p, status, hr, hp, hx⟩ |
      ⟨p, addr, copy, np, -, -, -, rfl, -⟩
  · rw [if_pos hc.nextpid]
    exact h.of_fewer (Nat.le_refl k) hc.fewer
  · cases hu : firstUnused t with
    | none =>
      rw [fork_none hu, if_pos rfl]
      exact h
    | some i =>
      -- `allocpid` ran: the count goes up by one
      have hne : (fork ok copy p t).1.nextpid ≠ t.nextpid := by
        rw [fork_nextpid hu, hn]
        exact int32_succ_ne _
      rw [if_neg hne] at hk ⊢
      by_cases hok : ok = true ∧ copy = true
      · obtain ⟨rfl, rfl⟩ := hok
        have hn' : t.nextpid = k + 1 := by
          rw [hn, int32_of_lt] <;> omega
        rw [Ptable.fork_ok hu]
        exact h.fork_ok hn' (firstUnused_spec hu)
      · rw [fork_fail hu (by cases ok <;> cases copy <;> simp_all)]
        exact h.of_fewer (Nat.le_succ k) (set_unused_fewer _ i)
  · obtain ⟨t₂, he, hk₂, -⟩ := exit_spec hp status t
    rw [he, Option.some_inj] at hx
    subst hx
    rw [set_nextpid, if_pos hk₂.nextpid]
    refine h.of_fewer (Nat.le_refl k) fun i hi => ?_
    by_cases hip : i = p
    · subst hip
      simp [hr, hk₂.pid]
    · rw [set_proc_ne _ _ hip] at hi ⊢
      exact hk₂.fewer i hi
  · rw [set_nextpid, if_pos rfl]
    exact h.of_fewer (Nat.le_refl k) (set_unused_fewer t np)

/-- While fewer than `2 ^ 31` pids have been handed out, live pids are positive and distinct. -/
theorem Reachable.pids {k : ℕ} {t : Ptable} (hr : Reachable k t) (hk : k < 2 ^ 31) :
    Pids k t := by
  induction hr with
  | init => exact Pids.init
  | @step k t t' e o hr hs ih =>
    have hk₀ : k < 2 ^ 31 := by
      split_ifs at hk <;> omega
    exact (ih hk₀).step hr.nextpid hs hk

/-! ### Reaping -/

theorem zombieChild_eq_none {p : Fin NPROC} {t : Ptable} :
    zombieChild p t = none ↔ ∀ i, (t.proc i).parent = some p → (t.proc i).state ≠ .ZOMBIE := by
  simp [zombieChild, List.find?_eq_none]

theorem havekids_eq_false {p : Fin NPROC} {t : Ptable} :
    havekids p t = false ↔ ∀ i, (t.proc i).parent ≠ some p := by
  simp [havekids]

/-- A `ZOMBIE` becomes `UNUSED` only in its parent's `wait`, which returns its pid and copies out
its status when asked to. -/
theorem step_frees_zombie {e : Event} {t t' : Ptable} {o : Option (ℤ × Option ℤ)} {i : Fin NPROC}
    (hs : step e t = some (t', o)) (hz : (t.proc i).state = .ZOMBIE)
    (hu : (t'.proc i).state = .UNUSED) :
    ∃ p addr copy, e = .wait p addr copy ∧ (t.proc i).parent = some p ∧
      o = some ((t.proc i).pid, if addr ≠ 0 then some (t.proc i).xstate else none) := by
  have hl : (t.proc i).state ≠ .UNUSED := by simp [hz]
  rcases step_cases hs with hc | ⟨p, ok, copy, -, rfl⟩ | ⟨p, status, -, hp, hx⟩ |
      ⟨p, addr, copy, np, rfl, -, hnp, rfl, rfl⟩
  · exact absurd ((hc.unused i).mp hu) hl
  · rw [fork_proc_of_live hl] at hu
    exact absurd hu hl
  · -- `exit` frees nothing: it only makes its caller a `ZOMBIE`
    obtain ⟨t₂, he, hk, -⟩ := exit_spec hp status t
    rw [he, Option.some_inj] at hx
    subst hx
    by_cases hip : i = p
    · subst hip
      simp at hu
    · rw [set_proc_ne _ _ hip, hk.unused] at hu
      exact absurd hu hl
  · by_cases hin : i = np
    · subst hin
      exact ⟨p, addr, copy, rfl, (zombieChild_spec hnp).1, rfl⟩
    · rw [set_proc_ne _ _ hin] at hu
      exact absurd hu hl

/-- When `copyout` of the status fails, `wait` returns -1 and leaves the table as it was. -/
theorem wait_fault {p np : Fin NPROC} {addr : ℕ} {t : Ptable} (hz : zombieChild p t = some np)
    (ha : addr ≠ 0) : wait p addr false t = (t, some (-1, none)) := by
  simp [wait, hz, ha]

/-- Exactly when `wait` returns -1 having changed nothing: the caller has no child, or is killed
and has no `ZOMBIE` child, or has a `ZOMBIE` child whose status cannot be copied out. -/
theorem wait_fails_iff (p : Fin NPROC) (addr : ℕ) (copy : Bool) (t : Ptable) :
    wait p addr copy t = (t, some (-1, none)) ↔
      ((∀ i, (t.proc i).parent ≠ some p) ∨
          ((t.proc p).killed = true ∧
            ∀ i, (t.proc i).parent = some p → (t.proc i).state ≠ .ZOMBIE)) ∨
        ((∃ i, (t.proc i).parent = some p ∧ (t.proc i).state = .ZOMBIE) ∧
          addr ≠ 0 ∧ copy = false) := by
  cases hz : zombieChild p t with
  | some np =>
    have hnp := zombieChild_spec hz
    by_cases h : addr ≠ 0 ∧ copy = false
    · simp only [wait, hz, if_pos h, true_iff]
      exact Or.inr ⟨⟨np, hnp⟩, h⟩
    · -- the reaped table differs from `t` at the zombie's slot
      have hne : t.set np Proc.unused ≠ t := fun e => by
        have := congrArg (fun t => (t.proc np).state) e
        simp [hnp.2, Proc.unused] at this
      simp only [wait, hz, if_neg h]
      refine iff_of_false (fun e => hne (congrArg Prod.fst e)) ?_
      rintro ((hc | ⟨-, hc⟩) | ⟨-, hc⟩)
      · exact hc np hnp.1
      · exact hc np hnp.1 hnp.2
      · exact h hc
  | none =>
    have hnz := zombieChild_eq_none.mp hz
    by_cases h : havekids p t = false ∨ (t.proc p).killed = true
    · simp only [wait, hz, if_pos h, true_iff]
      rcases h with h | h
      · exact Or.inl (Or.inl (havekids_eq_false.mp h))
      · exact Or.inl (Or.inr ⟨h, hnz⟩)
    · simp only [wait, hz, if_neg h]
      refine iff_of_false (by simp) ?_
      rintro ((hc | ⟨hc, -⟩) | ⟨⟨i, hi, hiz⟩, -⟩)
      · exact h (Or.inl (havekids_eq_false.mpr hc))
      · exact h (Or.inr hc)
      · exact hnz i hi hiz

/-! ### Runs -/

/-- The table after a sequence of events, or `none` if one of them cannot happen. -/
def run : List Event → Ptable → Option Ptable
  | [], t => some t
  | e :: es, t => (step e t).bind fun r => run es r.1

theorem Reachable.run {k : ℕ} {t t' : Ptable} (hr : Reachable k t) {es : List Event}
    (h : run es t = some t') : ∃ k', Reachable k' t' := by
  induction es generalizing k t with
  | nil =>
    cases h
    exact ⟨k, hr⟩
  | cons e es ih =>
    obtain ⟨⟨t₁, o⟩, hs, h₁⟩ := Option.bind_eq_some_iff.mp h
    exact ih (hr.step hs) h₁

theorem Reachable.step_keep {k : ℕ} {t t' : Ptable} {e : Event} {o : Option (ℤ × Option ℤ)}
    (hr : Reachable k t) (hs : Ptable.step e t = some (t', o)) (hn : t'.nextpid = t.nextpid) :
    Reachable k t' := by
  have := hr.step hs
  rwa [if_pos hn] at this

theorem Reachable.step_alloc {k : ℕ} {t t' : Ptable} {e : Event} {o : Option (ℤ × Option ℤ)}
    (hr : Reachable k t) (hs : Ptable.step e t = some (t', o)) (hn : t'.nextpid ≠ t.nextpid) :
    Reachable (k + 1) t' := by
  have := hr.step hs
  rwa [if_neg hn] at this

/-! ### The process table's guarantees, and where they stop -/

/-- The table once the scheduler has first run `initproc`. -/
def booted : Ptable :=
  Ptable.init.set initproc { Ptable.init.proc initproc with state := .RUNNING, chan := none }

theorem booted_reachable : Reachable 1 booted :=
  Reachable.init.step_keep (e := .sched initproc) (o := none) rfl rfl

theorem step_fork_of_running {p : Fin NPROC} {t : Ptable} (ok copy : Bool)
    (hr : (t.proc p).state = .RUNNING) :
    step (.fork p ok copy) t = some ((fork ok copy p t).1, some ((fork ok copy p t).2, none)) := by
  rw [step, if_pos hr]

/-- A `fork` by `initproc` whose `uvmcopy` fails: only `nextpid` moves. -/
theorem step_fork_fail_booted (n : ℤ) :
    step (.fork initproc false true) { booted with nextpid := n } =
      some ({ booted with nextpid := int32 (n + 1) }, some (-1, none)) := by
  have hu : firstUnused { booted with nextpid := n } = some ⟨1, by decide⟩ := by
    show firstUnused booted = _
    decide
  rw [step_fork_of_running false true rfl, fork_fail hu (Or.inl rfl)]
  exact congrArg (fun t => some (t, some (-1, none))) (set_of_eq rfl)

/-- After `j` failed forks, `j + 1` pids have been handed out. -/
theorem reachable_forks_failed : ∀ j : ℕ, j + 2 < 2 ^ 31 →
    Reachable (j + 1) { booted with nextpid := (j : ℤ) + 2 }
  | 0, _ => booted_reachable
  | j + 1, h => by
    have hs := step_fork_fail_booted ((j : ℤ) + 2)
    have he : int32 ((j : ℤ) + 2 + 1) = ((j + 1 : ℕ) : ℤ) + 2 := by
      rw [int32_of_lt] <;> push_cast <;> omega
    rw [he] at hs
    exact (reachable_forks_failed j (by omega)).step_alloc hs (by dsimp only; omega)

/-- Every table reachable from `userinit` keeps the process tree, and while fewer than `2 ^ 31`
pids have been handed out its live pids are positive and distinct. A `ZOMBIE` is freed only by
its parent's `wait`, which returns its pid and copies out its status when given an address; a
failed `copyout` leaves it a `ZOMBIE`. `wait` returns -1 having freed nothing exactly when the
caller has no child, or is killed and has no `ZOMBIE` child, or its `copyout` fails. -/
theorem proc_table_inv {k : ℕ} {t : Ptable} (hr : Reachable k t) :
    (∀ i, (t.proc i).state ≠ .UNUSED → i ≠ initproc →
      ∃ j, (t.proc i).parent = some j ∧ (t.proc j).state ≠ .UNUSED) ∧
    (k < 2 ^ 31 → ∀ i j, (t.proc i).state ≠ .UNUSED → (t.proc j).state ≠ .UNUSED →
      0 < (t.proc i).pid ∧ ((t.proc i).pid = (t.proc j).pid → i = j)) ∧
    (∀ e t' o i, step e t = some (t', o) → (t.proc i).state = .ZOMBIE →
      (t'.proc i).state = .UNUSED →
      ∃ p addr copy, e = .wait p addr copy ∧ (t.proc i).parent = some p ∧
        o = some ((t.proc i).pid, if addr ≠ 0 then some (t.proc i).xstate else none)) ∧
    (∀ p addr i, (t.proc p).state = .RUNNING → (t.proc i).parent = some p →
      (t.proc i).state = .ZOMBIE → addr ≠ 0 →
      step (.wait p addr false) t = some (t, some (-1, none))) ∧
    (∀ p addr copy, (t.proc p).state = .RUNNING →
      (step (.wait p addr copy) t = some (t, some (-1, none)) ↔
        ((∀ i, (t.proc i).parent ≠ some p) ∨
            ((t.proc p).killed = true ∧
              ∀ i, (t.proc i).parent = some p → (t.proc i).state ≠ .ZOMBIE)) ∨
          ((∃ i, (t.proc i).parent = some p ∧ (t.proc i).state = .ZOMBIE) ∧
            addr ≠ 0 ∧ copy = false))) := by
  have hf := hr.families
  refine ⟨fun i hi hi0 => ?_, fun hk i j hi hj => ?_, fun e t' o i hs hz hu => ?_,
    fun p addr i hp hip hiz ha => ?_, fun p addr copy hp => ?_⟩
  · obtain ⟨j, hj, hju, -⟩ := hf.parent i hi hi0
    exact ⟨j, hj, hju⟩
  · have hpids := hr.pids hk
    exact ⟨by have := (hpids.bound i hi).1; omega, hpids.unique i j hi hj⟩
  · exact step_frees_zombie hs hz hu
  · -- `wait` finds some `ZOMBIE` child, maybe another one than `i`
    obtain ⟨np, hnp⟩ : ∃ np, zombieChild p t = some np := by
      rw [← Option.ne_none_iff_exists']
      intro h
      exact zombieChild_eq_none.mp h i hip hiz
    rw [step, if_pos hp, wait_fault hnp ha]
  · rw [step, if_pos hp, Option.some_inj, wait_fails_iff]

theorem proc_table_inv_booted :
    (∀ i, (booted.proc i).state ≠ .UNUSED → i ≠ initproc →
      ∃ j, (booted.proc i).parent = some j ∧ (booted.proc j).state ≠ .UNUSED) ∧
    (1 < 2 ^ 31 → ∀ i j, (booted.proc i).state ≠ .UNUSED → (booted.proc j).state ≠ .UNUSED →
      0 < (booted.proc i).pid ∧ ((booted.proc i).pid = (booted.proc j).pid → i = j)) ∧
    (∀ e t' o i, step e booted = some (t', o) → (booted.proc i).state = .ZOMBIE →
      (t'.proc i).state = .UNUSED →
      ∃ p addr copy, e = .wait p addr copy ∧ (booted.proc i).parent = some p ∧
        o = some ((booted.proc i).pid, if addr ≠ 0 then some (booted.proc i).xstate else none)) ∧
    (∀ p addr i, (booted.proc p).state = .RUNNING → (booted.proc i).parent = some p →
      (booted.proc i).state = .ZOMBIE → addr ≠ 0 →
      step (.wait p addr false) booted = some (booted, some (-1, none))) ∧
    (∀ p addr copy, (booted.proc p).state = .RUNNING →
      (step (.wait p addr copy) booted = some (booted, some (-1, none)) ↔
        ((∀ i, (booted.proc i).parent ≠ some p) ∨
            ((booted.proc p).killed = true ∧
              ∀ i, (booted.proc i).parent = some p → (booted.proc i).state ≠ .ZOMBIE)) ∨
          ((∃ i, (booted.proc i).parent = some p ∧ (booted.proc i).state = .ZOMBIE) ∧
            addr ≠ 0 ∧ copy = false))) :=
  proc_table_inv booted_reachable

/-- Where the process table's guarantees stop. After `2 ^ 31` pids (failed forks use them up
too) `nextpid` has wrapped and a live process has a negative pid. A process with a `ZOMBIE`
child that is not killed gets -1 from `wait` with nothing freed when `copyout` fails; and a
killed process with a `ZOMBIE` child still reaps it and gets its pid. -/
theorem proc_table_counterexample :
    (∃ t, Reachable (2 ^ 31) t ∧ ∃ i, (t.proc i).state ≠ .UNUSED ∧ (t.proc i).pid < 0) ∧
    (∃ k t, Reachable k t ∧ havekids initproc t = true ∧ (t.proc initproc).killed = false ∧
      step (.wait initproc 1 false) t = some (t, some (-1, none))) ∧
    (∃ k t, Reachable k t ∧ (t.proc initproc).killed = true ∧
      ∃ t', step (.wait initproc 0 true) t = some (t', some (2, none))) := by
  refine ⟨?_, ?_, ?_⟩
  · -- `2 ^ 31 - 2` forks fail, which leaves `nextpid` at `-2 ^ 31`; then one succeeds
    have h₁ := (reachable_forks_failed (2 ^ 31 - 3) (by decide)).step_alloc
      (step_fork_fail_booted _) (by decide)
    have hw : int32 (((2 ^ 31 - 3 : ℕ) : ℤ) + 2 + 1) = -2 ^ 31 := by decide
    rw [hw] at h₁
    have h₂ := h₁.step_alloc (step_fork_of_running (p := initproc) true true rfl) (by decide +kernel)
    rw [show 2 ^ 31 - 3 + 1 + 1 + 1 = 2 ^ 31 by decide] at h₂
    exact ⟨_, h₂, ⟨1, by decide⟩, by decide +kernel⟩
  · -- `initproc` forks, the child exits, and `initproc` waits with a bad address
    have hf : (run [.fork initproc true true, .sched ⟨1, by decide⟩, .exit ⟨1, by decide⟩ 0]
        booted).map (fun t => (zombieChild initproc t, havekids initproc t,
          (t.proc initproc).killed, (t.proc initproc).state)) =
        some (some ⟨1, by decide⟩, true, false, .RUNNING) := by decide +kernel
    obtain ⟨t, ht, hv⟩ := Option.map_eq_some_iff.mp hf
    simp only [Prod.mk.injEq] at hv
    obtain ⟨hz, hk, hkill, hrun⟩ := hv
    obtain ⟨k, hr⟩ := booted_reachable.run ht
    refine ⟨k, t, hr, hk, hkill, ?_⟩
    rw [step, if_pos hrun, wait_fault hz Nat.one_ne_zero]
  · -- the same, but `initproc` kills itself before it waits
    have hf : (run [.fork initproc true true, .sched ⟨1, by decide⟩, .exit ⟨1, by decide⟩ 0,
        .kill initproc 1] booted).map (fun t => ((t.proc initproc).killed,
          (step (.wait initproc 0 true) t).map Prod.snd)) =
        some (true, some (some (2, none))) := by decide +kernel
    obtain ⟨t, ht, hv⟩ := Option.map_eq_some_iff.mp hf
    simp only [Prod.mk.injEq] at hv
    obtain ⟨hkill, hw⟩ := hv
    obtain ⟨k, hr⟩ := booted_reachable.run ht
    obtain ⟨⟨t', o⟩, hs, ho⟩ := Option.map_eq_some_iff.mp hw
    exact ⟨k, t, hr, hkill, t', by rw [hs, show o = some (2, none) from ho]⟩

/-! ### `kill` -/

/-- `kill(pid)` scans the slots in order, in whatever state they are, for the first one with that
pid: it marks it killed, wakes it if it slept, and returns `0`; with no such slot it returns `-1`
and changes nothing. -/
theorem kill_cases (pid : ℤ) (t : Ptable) :
    ((∀ i, (t.proc i).pid ≠ pid) ∧ kill pid t = (t, -1)) ∨
    ∃ i, (t.proc i).pid = pid ∧ (∀ j, j < i → (t.proc j).pid ≠ pid) ∧
      kill pid t = (t.set i { t.proc i with
        killed := true
        state := if (t.proc i).state = .SLEEPING then .RUNNABLE else (t.proc i).state }, 0) := by
  unfold kill
  split
  · next hf =>
    refine .inl ⟨fun i hi => ?_, rfl⟩
    have := List.find?_eq_none.mp hf i (List.mem_finRange i)
    simp [hi] at this
  · next i hf =>
    obtain ⟨hi, hbefore⟩ := Scan.find?_finRange_eq_some_iff.mp hf
    exact .inr ⟨i, by simpa using hi, fun j hj => by simpa using hbefore j hj, rfl⟩

/-- `fork` leaves a slot as it was, frees it again, or makes it the `RUNNABLE` child. -/
theorem fork_proc_cases (ok copy : Bool) (p i : Fin NPROC) (t : Ptable) :
    (fork ok copy p t).1.proc i = t.proc i ∨ (fork ok copy p t).1.proc i = Proc.unused ∨
      ((fork ok copy p t).1.proc i).state = .RUNNABLE := by
  cases hu : firstUnused t with
  | none => exact .inl (by rw [fork_none hu])
  | some j =>
    by_cases hok : ok = true ∧ copy = true
    · obtain ⟨rfl, rfl⟩ := hok
      rw [fork_ok hu]
      by_cases hij : i = j
      · subst hij
        exact .inr (.inr (by simp))
      · exact .inl (set_proc_ne _ _ hij)
    · rw [fork_fail hu (by cases ok <;> cases copy <;> simp_all)]
      by_cases hij : i = j
      · subst hij
        exact .inr (.inl (by simp))
      · exact .inl (set_proc_ne _ _ hij)

/-- `freeproc` leaves pid `0` in the slots it frees, and no step writes the pid of an `UNUSED`
slot. -/
theorem step_unused_pid {e : Event} {t t' : Ptable} {o : Option (ℤ × Option ℤ)}
    (h : step e t = some (t', o)) (ht : ∀ i, (t.proc i).state = .UNUSED → (t.proc i).pid = 0) :
    ∀ i, (t'.proc i).state = .UNUSED → (t'.proc i).pid = 0 := by
  intro i hi
  rcases step_cases h with hc | ⟨p, ok, copy, -, rfl⟩ | ⟨p, status, -, hp, hex⟩ |
    ⟨p, addr, copy, np, -, -, -, rfl, -⟩
  · rw [hc.pid]
    exact ht i ((hc.unused i).mp hi)
  · rcases fork_proc_cases ok copy p i t with hs | hs | hs
    · rw [hs] at hi ⊢
      exact ht i hi
    · rw [hs]
      rfl
    · rw [hs] at hi
      cases hi
  · obtain ⟨t₂, h₂, hk, -, -⟩ := exit_spec hp status t
    rw [hex, Option.some.injEq] at h₂
    subst h₂
    by_cases hip : i = p
    · subst hip
      simp at hi
    · rw [set_proc_ne _ _ hip] at hi ⊢
      rw [hk.pid]
      exact ht i ((hk.unused i).mp hi)
  · by_cases hinp : i = np
    · subst hinp
      simp [Proc.unused]
    · rw [set_proc_ne _ _ hinp] at hi ⊢
      exact ht i hi

theorem Reachable.unused_pid {k : ℕ} {t : Ptable} (hr : Reachable k t) :
    ∀ i, (t.proc i).state = .UNUSED → (t.proc i).pid = 0 := by
  induction hr with
  | init =>
    intro i hi
    have hne : i ≠ initproc := by
      rintro rfl
      simp [Ptable.init] at hi
    simp [Ptable.init, Function.update_of_ne hne, Proc.unused]
  | step _ hs ih => exact step_unused_pid hs ih

/-- In every reachable table, `kill(pid)` for a `pid` other than `0` returns `0` exactly when a
live process has that pid; then it marks the first live slot with that pid killed, and wakes it
if it slept, changing nothing else. Otherwise it returns `-1` and changes nothing. While fewer
than `2 ^ 31` pids have been handed out, that slot is the only live one with that pid. -/
theorem Reachable.kill_live {k : ℕ} {t : Ptable} (hr : Reachable k t) {pid : ℤ} (hpid : pid ≠ 0) :
    ((kill pid t).2 = 0 ↔ ∃ i, (t.proc i).state ≠ .UNUSED ∧ (t.proc i).pid = pid) ∧
    ((kill pid t).2 ≠ 0 → kill pid t = (t, -1)) ∧
    (∀ i, (t.proc i).state ≠ .UNUSED → (t.proc i).pid = pid →
      (∀ j, j < i → (t.proc j).state ≠ .UNUSED → (t.proc j).pid ≠ pid) →
      kill pid t = (t.set i { t.proc i with
        killed := true
        state := if (t.proc i).state = .SLEEPING then .RUNNABLE else (t.proc i).state }, 0)) ∧
    (k < 2 ^ 31 → ∀ i j, (t.proc i).state ≠ .UNUSED → (t.proc j).state ≠ .UNUSED →
      (t.proc i).pid = pid → (t.proc j).pid = pid → i = j) := by
  -- the slot `kill` finds is live, since `UNUSED` slots have pid `0`
  have hlive : ∀ i, (t.proc i).pid = pid → (t.proc i).state ≠ .UNUSED := fun i hi hu =>
    hpid (hi ▸ hr.unused_pid i hu)
  have hunique : k < 2 ^ 31 → ∀ i j, (t.proc i).state ≠ .UNUSED → (t.proc j).state ≠ .UNUSED →
      (t.proc i).pid = pid → (t.proc j).pid = pid → i = j := fun hk i j hi hj hip hjp =>
    (hr.pids hk).unique i j hi hj (hip.trans hjp.symm)
  rcases kill_cases pid t with ⟨hnone, hk⟩ | ⟨i, hi, hbefore, hk⟩ <;> rw [hk]
  · refine ⟨?_, fun _ => rfl, fun j _ hj => absurd hj (hnone j), hunique⟩
    simp only [Int.reduceNeg, Int.reduceEq, false_iff, not_exists, not_and]
    exact fun j _ hj => hnone j hj
  · refine ⟨iff_of_true rfl ⟨i, hlive i hi, hi⟩, fun h => absurd rfl h, fun j _ hjp hfirst => ?_,
      hunique⟩
    -- the first slot with the pid and the first live one with it are the same slot
    obtain rfl : i = j := by
      rcases lt_trichotomy i j with hij | hij | hij
      · exact absurd hi (hfirst i hij (hlive i hi))
      · exact hij
      · exact absurd hjp (hbefore j hij)
    rfl

/-- `kill(1)` just after boot: `initproc` is the one live process with pid 1. -/
theorem kill_live_booted :
    ((kill 1 booted).2 = 0 ↔ ∃ i, (booted.proc i).state ≠ .UNUSED ∧ (booted.proc i).pid = 1) ∧
    ((kill 1 booted).2 ≠ 0 → kill 1 booted = (booted, -1)) ∧
    (∀ i, (booted.proc i).state ≠ .UNUSED → (booted.proc i).pid = 1 →
      (∀ j, j < i → (booted.proc j).state ≠ .UNUSED → (booted.proc j).pid ≠ 1) →
      kill 1 booted = (booted.set i { booted.proc i with
        killed := true
        state := if (booted.proc i).state = .SLEEPING then .RUNNABLE else (booted.proc i).state },
        0)) ∧
    (1 < 2 ^ 31 → ∀ i j, (booted.proc i).state ≠ .UNUSED → (booted.proc j).state ≠ .UNUSED →
      (booted.proc i).pid = 1 → (booted.proc j).pid = 1 → i = j) :=
  @Reachable.kill_live 1 booted booted_reachable 1 (by decide)

/-- `kill(0)` matches the first `UNUSED` slot, whose pid `freeproc` left at `0`, and returns `0`
although no live process has pid `0`. It marks that slot killed, and `allocproc` does not clear
`killed`: the child of the next `fork` starts out killed. -/
theorem kill_zero_marks_unused :
    (∀ i, (booted.proc i).state ≠ .UNUSED → (booted.proc i).pid ≠ 0) ∧
    ∃ t₁ t₂, step (.kill initproc 0) booted = some (t₁, some (0, none)) ∧
      step (.fork initproc true true) t₁ = some (t₂, some (2, none)) ∧
      t₂.proc ⟨1, by decide⟩ = ⟨.RUNNABLE, 2, some initproc, true, 0, none⟩ := by
  have h₁ : step (.kill initproc 0) booted = some ((kill 0 booted).1, some (0, none)) := by
    rw [step, if_pos (show (booted.proc initproc).state = .RUNNING from rfl)]
    dsimp only
    rw [show (kill 0 booted).2 = 0 by decide +kernel]
  have h₂ : step (.fork initproc true true) (kill 0 booted).1 =
      some ((fork true true initproc (kill 0 booted).1).1, some (2, none)) := by
    rw [step_fork_of_running true true (by decide +kernel),
      show (fork true true initproc (kill 0 booted).1).2 = 2 by decide +kernel]
  exact ⟨by decide +kernel, _, _, h₁, h₂, by decide +kernel⟩

end Ptable

/-! ### `sysinfo` (`kernel/sysproc.c`) -/

/-- `count_proc_not_UNUSED()`: the slots whose state is not `UNUSED`. -/
def count_proc_not_UNUSED (t : Ptable) : ℕ :=
  (List.finRange NPROC).countP fun i => (t.proc i).state ≠ .UNUSED

/-- `struct sysinfo`. -/
structure Sysinfo where
  freemem : ℕ
  nproc : ℕ
  deriving DecidableEq, Repr

/-- `sys_sysinfo()`, which returns its value and what it copied out; `argaddr` cannot fail, and
`copy` says whether `copyout` succeeds. `none`: `count_free_memory` faults. -/
def sys_sysinfo (m : Kmem) (t : Ptable) (copy : Bool) : Option (ℤ × Option Sysinfo) :=
  (count_free_memory m).map fun freemem =>
    let info : Sysinfo := ⟨freemem, count_proc_not_UNUSED t⟩
    if copy then (0, some info) else (-1, none)

theorem sys_sysinfo_eq {m : Kmem} {free : List ℕ} (h : Chain m.next m.freelist free)
    (t : Ptable) (copy : Bool) :
    sys_sysinfo m t copy =
      if free = [] then none
      else some (if copy then (0, some ⟨0, count_proc_not_UNUSED t⟩) else (-1, none)) := by
  rw [sys_sysinfo, count_free_memory_eq h]
  split_ifs <;> rfl

/-- At every allocator state reachable from `kinit` with a page still free, `sysinfo` reports no
free memory at all. -/
theorem sys_sysinfo_reachable {endk : ℕ} (hend : KERNBASE ≤ endk) {m : Kmem} {held : List ℕ}
    (h : Kmem.Reachable endk m held) (hfree : held.length < (pages endk).length) (t : Ptable) :
    sys_sysinfo m t true = some (0, some ⟨0, count_proc_not_UNUSED t⟩) := by
  obtain ⟨-, free, hc, hlen⟩ := h.kalloc_fresh hend
  have hne : free ≠ [] := by
    rintro rfl
    simp at hlen
    omega
  rw [sys_sysinfo_eq hc, if_neg hne, if_pos rfl]

/-- Right after `kinit`, with all 32768 pages of RAM above `KERNBASE` on the free list, the
running `initproc` asks `sysinfo` and is told there is no free memory. -/
theorem sysinfo_after_kinit :
    ∃ m, kinit KERNBASE = some m ∧ (∃ free, Chain m.next m.freelist free ∧ free.length = 32768) ∧
      sys_sysinfo m Ptable.booted true = some (0, some ⟨0, 1⟩) := by
  obtain ⟨m, hm, -⟩ := kinit_inv (Nat.le_refl KERNBASE)
  have hr : Kmem.Reachable KERNBASE m [] := Kmem.Reachable.kinit hm
  obtain ⟨-, free, hc, hl⟩ := hr.kalloc_fresh (Nat.le_refl KERNBASE)
  have hlen : (pages KERNBASE).length = 32768 := by
    rw [pages, pagesFrom, List.length_map, List.length_range]
    decide +kernel
  have hfree : ([] : List ℕ).length < (pages KERNBASE).length := by
    rw [hlen]
    decide
  refine ⟨m, hm, ⟨free, hc, by simpa [hlen] using hl⟩, ?_⟩
  rw [sys_sysinfo_reachable (Nat.le_refl KERNBASE) hr hfree]
  rfl

end Xv6
