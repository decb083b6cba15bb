import Mathlib
import Xv6.Lib.Update
import Xv6.Param

/-!
# Log space reservation (`begin_op`, `end_op` and `log_write` in `kernel/log.c`)

File-system calls bracket their writes with `begin_op` and `end_op`. `begin_op` admits a new
operation only while no commit is running and the log has room for `MAXOPBLOCKS` more blocks
for every open operation; `end_op` commits once the last open operation ends; `log_write`
records a block in the header, once (log absorption).

`LogSys np` is the log with the phase of each of `np` processes, and `LogSys.step` one call
of one process. A process calls `log_write` only inside an operation, and each operation
names at most `MAXOPBLOCKS` distinct blocks: calls outside that discipline are not steps.

* `LogSys.Inv`: outstanding operations are counted exactly, a commit runs alone, and the
  header plus what the open operations may still add fits in `LOGSIZE`;
* `LogSys.inv_init`, `LogSys.Inv.step`, `LogSys.Reachable.inv`: every reachable state keeps it;
* consequences: `end_op`'s `log.committing` panic is unreachable, a commit runs with no
  outstanding operation, and a new block is added only while `lh.n < LOGSIZE`;
* `run_logWrite_panic`: `log.size` is `nlog = LOGSIZE` as `mkfs` writes it, so the log has
  `LOGSIZE - 1` slots; three operations of `MAXOPBLOCKS` blocks each are admitted together,
  and the last `log_write` reaches the "too big a transaction" panic.
-/

namespace Xv6

open Finset

/-- The in-memory log (`struct log`) as the reservation code sees it: `log.size` (the
superblock's `nlog`), `outstanding`, `committing`, and the header's entries
`lh.block[0..lh.n)` as a list. -/
structure Log where
  size : ℕ
  outstanding : ℤ
  committing : Bool
  block : List ℕ
  deriving DecidableEq

namespace Log

/-- `log.lh.n`. -/
def n (l : Log) : ℕ := l.block.length

/-- One pass of `begin_op`'s loop: `none` when it sleeps, to try again after a wakeup. -/
def beginOp (l : Log) : Option Log :=
  if l.committing then none
  else if (l.n : ℤ) + (l.outstanding + 1) * MAXOPBLOCKS > LOGSIZE then none
  else some { l with outstanding := l.outstanding + 1 }

/-- `end_op` up to its call of `commit`: the log, and whether this call commits. -/
def endOp (l : Log) : Except String (Log × Bool) :=
  let l := { l with outstanding := l.outstanding - 1 }
  if l.committing then .error "log.committing"
  else if l.outstanding = 0 then .ok ({ l with committing := true }, true)
  else .ok (l, false)

/-- `commit` (which ends with `log.lh.n = 0`) and the rest of `end_op`. -/
def endCommit (l : Log) : Log := { l with block := [], committing := false }

/-- `log_write` of block `b`. -/
def logWrite (l : Log) (b : ℕ) : Except String Log :=
  if l.n ≥ LOGSIZE ∨ l.n ≥ l.size - 1 then .error "too big a transaction"
  else if l.outstanding < 1 then .error "log_write outside of trans"
  else if b ∈ l.block then .ok l
  else .ok { l with block := l.block ++ [b] }

end Log

/-- Where a process stands with respect to the log. -/
inductive OpPhase
  /-- Outside any operation (possibly asleep in `begin_op`). -/
  | idle
  /-- Inside an operation that has passed the distinct blocks `written` to `log_write`. -/
  | active (written : List ℕ)
  /-- Inside `end_op`, running `commit`. -/
  | committing
  deriving DecidableEq

namespace OpPhase

/-- `1` for an open operation. -/
def opens : OpPhase → ℕ
  | active _ => 1
  | _ => 0

/-- The blocks an open operation may still add. -/
def left : OpPhase → ℕ
  | active ws => MAXOPBLOCKS - ws.length
  | _ => 0

theorem left_le (φ : OpPhase) : φ.left ≤ MAXOPBLOCKS * φ.opens := by
  cases φ <;> simp [left, opens]

end OpPhase

/-- The calls a process makes. -/
inductive LogCall (np : ℕ)
  | beginOp (p : Fin np)
  | logWrite (p : Fin np) (b : ℕ)
  | endOp (p : Fin np)
  /-- The committing process finishes `commit` and the rest of `end_op`. -/
  | commit (p : Fin np)

/-- The log and the phase of each of `np` processes. -/
structure LogSys (np : ℕ) where
  log : Log
  phase : Fin np → OpPhase

namespace LogSys

variable {np : ℕ}

/-- An operation that has named `ws` may name `b`: it is one of them, or there is room for
one more distinct block. -/
def MayWrite (ws : List ℕ) (b : ℕ) : Prop := b ∈ ws ∨ ws.length < MAXOPBLOCKS

instance (ws : List ℕ) (b : ℕ) : Decidable (MayWrite ws b) := inferInstanceAs (Decidable (_ ∨ _))

/-- One call; `none` when the call is not one the file system makes in this phase. -/
def step (s : LogSys np) : LogCall np → Option (Except String (LogSys np))
  | .beginOp p =>
    if s.phase p = .idle then
      match s.log.beginOp with
      | none => some (.ok s)
      | some l => some (.ok ⟨l, Function.update s.phase p (.active [])⟩)
    else none
  | .logWrite p b =>
    match s.phase p with
    | .active ws =>
      if MayWrite ws b then
        some ((s.log.logWrite b).map fun l =>
          ⟨l, Function.update s.phase p (.active (if b ∈ ws then ws else ws ++ [b]))⟩)
      else none
    | _ => none
  | .endOp p =>
    match s.phase p with
    | .active _ =>
      some ((s.log.endOp).map fun r =>
        ⟨r.1, Function.update s.phase p (if r.2 then .committing else .idle)⟩)
    | _ => none
  | .commit p =>
    if s.phase p = .committing then some (.ok ⟨s.log.endCommit, Function.update s.phase p .idle⟩)
    else none

/-- A sequence of calls: the state reached, a panic, or `none` if a call was not allowed. -/
def run (s : LogSys np) : List (LogCall np) → Option (Except String (LogSys np))
  | [] => some (.ok s)
  | c :: cs =>
    match s.step c with
    | some (.ok s') => run s' cs
    | r => r

/-- The log after `initlog` on a disk made by `mkfs`: `log.size = nlog = LOGSIZE`, nothing
outstanding, the header empty; no process inside an operation. -/
def init (np : ℕ) : LogSys np := ⟨⟨LOGSIZE, 0, false, []⟩, fun _ => .idle⟩

/-- The states reachable from `init` by calls that do not panic. -/
inductive Reachable : LogSys np → Prop
  | init : Reachable (init np)
  | step {s s' : LogSys np} {c : LogCall np} : Reachable s → s.step c = some (.ok s') → Reachable s'

end LogSys

/-! ### What each call does -/

namespace Log

variable {l l' : Log}

theorem beginOp_eq_some (h : l.beginOp = some l') :
    l.committing = false ∧ (l.n : ℤ) + (l.outstanding + 1) * MAXOPBLOCKS ≤ LOGSIZE ∧
      l' = { l with outstanding := l.outstanding + 1 } := by
  unfold beginOp at h
  split_ifs at h with hc hroom
  cases h
  exact ⟨by simpa using hc, by omega, rfl⟩

theorem logWrite_eq_ok {b : ℕ} (h : l.logWrite b = .ok l') :
    l.n < LOGSIZE ∧ l.n < l.size - 1 ∧ 1 ≤ l.outstanding ∧
      l' = if b ∈ l.block then l else { l with block := l.block ++ [b] } := by
  unfold logWrite at h
  split_ifs at h with hfull hout hb <;> cases h
  · exact ⟨by omega, by omega, by omega, (if_pos hb).symm⟩
  · exact ⟨by omega, by omega, by omega, (if_neg hb).symm⟩

theorem endOp_eq_ok {r : Log × Bool} (h : l.endOp = .ok r) :
    l.committing = false ∧
      (l.outstanding - 1 = 0 ∧ r = ({ l with outstanding := 0, committing := true }, true) ∨
        l.outstanding - 1 ≠ 0 ∧ r = ({ l with outstanding := l.outstanding - 1 }, false)) := by
  unfold endOp at h
  simp only at h
  split_ifs at h with hc hz <;> cases h
  · exact ⟨by simpa using hc, .inl ⟨hz, by rw [hz]⟩⟩
  · exact ⟨by simpa using hc, .inr ⟨hz, rfl⟩⟩

@[simp] theorem n_endCommit : l.endCommit.n = 0 := rfl

end Log

namespace LogSys

variable {np : ℕ} {s s' : LogSys np} {p : Fin np}

theorem step_beginOp_ok (h : s.step (.beginOp p) = some (.ok s')) :
    s.phase p = .idle ∧
      (s' = s ∨ ∃ l, s.log.beginOp = some l ∧ s' = ⟨l, Function.update s.phase p (.active [])⟩) := by
  simp only [step] at h
  split_ifs at h with hp
  refine ⟨hp, ?_⟩
  split at h
  · cases h; exact .inl rfl
  · rename_i l hl
    cases h
    exact .inr ⟨l, hl, rfl⟩

theorem step_logWrite_ok {b : ℕ} (h : s.step (.logWrite p b) = some (.ok s')) :
    ∃ ws, s.phase p = .active ws ∧ MayWrite ws b ∧ ∃ l, s.log.logWrite b = .ok l ∧
      s' = ⟨l, Function.update s.phase p (.active (if b ∈ ws then ws else ws ++ [b]))⟩ := by
  simp only [step] at h
  split at h
  · rename_i ws hws
    by_cases hmay : MayWrite ws b
    swap
    · simp [hmay] at h
    rw [if_pos hmay] at h
    cases hl : s.log.logWrite b with
    | error e => simp [hl, Except.map] at h
    | ok l =>
      simp only [hl, Except.map, Option.some.injEq, Except.ok.injEq] at h
      exact ⟨ws, hws, hmay, l, rfl, h.symm⟩
  · cases h

theorem step_endOp_ok (h : s.step (.endOp p) = some (.ok s')) :
    ∃ ws, s.phase p = .active ws ∧ ∃ r, s.log.endOp = .ok r ∧
      s' = ⟨r.1, Function.update s.phase p (if r.2 then .committing else .idle)⟩ := by
  simp only [step] at h
  split at h
  · rename_i ws hws
    cases hr : s.log.endOp with
    | error e => simp [hr, Except.map] at h
    | ok r =>
      simp only [hr, Except.map, Option.some.injEq, Except.ok.injEq] at h
      exact ⟨ws, hws, r, rfl, h.symm⟩
  · cases h

theorem step_commit_ok (h : s.step (.commit p) = some (.ok s')) :
    s.phase p = .committing ∧ s' = ⟨s.log.endCommit, Function.update s.phase p .idle⟩ := by
  simp only [step] at h
  split_ifs at h with hp
  cases h
  exact ⟨hp, rfl⟩

/-! ### The invariant -/

/-- The open operations of a phase table. -/
def openOps (φ : Fin np → OpPhase) : ℕ := ∑ p, (φ p).opens

/-- The blocks the open operations of a phase table may still add. -/
def reserved (φ : Fin np → OpPhase) : ℕ := ∑ p, (φ p).left

/-- What every reachable state satisfies. -/
structure Inv (s : LogSys np) : Prop where
  /-- `outstanding` counts the open operations. -/
  outstanding_eq : s.log.outstanding = openOps s.phase
  /-- `committing` is set exactly while some process runs `commit`, and that process is alone. -/
  committing_iff : s.log.committing = true ↔ ∃ p, s.phase p = .committing
  committing_unique : ∀ p q, s.phase p = .committing → s.phase q = .committing → p = q
  /-- No operation is open during a commit. -/
  quiet : s.log.committing = true → openOps s.phase = 0
  /-- The blocks an open operation has written are in the header. -/
  written_sub : ∀ p ws, s.phase p = .active ws → ∀ b ∈ ws, b ∈ s.log.block
  /-- The header and what the open operations may still add fit in `LOGSIZE`. -/
  budget : s.log.n + reserved s.phase ≤ LOGSIZE

theorem reserved_le (φ : Fin np → OpPhase) : reserved φ ≤ MAXOPBLOCKS * openOps φ := by
  unfold reserved openOps
  rw [Finset.mul_sum]
  exact Finset.sum_le_sum fun p _ => (φ p).left_le

theorem openOps_update (φ : Fin np → OpPhase) (x : OpPhase) :
    openOps (Function.update φ p x) + (φ p).opens = openOps φ + x.opens :=
  TableTotal.sum_update_add OpPhase.opens φ p x

theorem reserved_update (φ : Fin np → OpPhase) (x : OpPhase) :
    reserved (Function.update φ p x) + (φ p).left = reserved φ + x.left :=
  TableTotal.sum_update_add OpPhase.left φ p x

/-- An open operation is counted. -/
theorem one_le_openOps {φ : Fin np → OpPhase} {ws : List ℕ} (h : φ p = .active ws) :
    1 ≤ openOps φ := by
  have : (φ p).opens ≤ openOps φ :=
    Finset.single_le_sum (f := fun q => (φ q).opens) (fun _ _ => Nat.zero_le _) (mem_univ p)
  rw [h] at this
  exact this

theorem Inv.not_committing (hs : s.Inv) (hc : s.log.committing = false) :
    s.phase p ≠ .committing := fun hp => by
  have := hs.committing_iff.2 ⟨p, hp⟩
  rw [hc] at this
  exact Bool.false_ne_true this

theorem inv_init : (init np).Inv where
  outstanding_eq := by simp [init, openOps, OpPhase.opens]
  committing_iff := by simp [init]
  committing_unique := by simp [init]
  quiet := by simp [init]
  written_sub := by simp [init]
  budget := by simp [init, reserved, OpPhase.left, Log.n, LOGSIZE, MAXOPBLOCKS]

/-! ### Each call keeps the invariant -/

/-- Changing a process that is not committing to a phase that is not committing keeps the
set of committing processes. -/
theorem update_committing_iff {φ : Fin np → OpPhase} {x : OpPhase} (hp : φ p ≠ .committing)
    (hx : x ≠ .committing) (q : Fin np) :
    Function.update φ p x q = .committing ↔ φ q = .committing := by
  by_cases hqp : q = p
  · subst hqp
    simp [hp, hx]
  · rw [Function.update_of_ne hqp]

theorem Inv.beginOp (hs : s.Inv) (h : s.step (.beginOp p) = some (.ok s')) : s'.Inv := by
  obtain ⟨hp, rfl | ⟨l, hl, rfl⟩⟩ := step_beginOp_ok h
  · exact hs
  obtain ⟨hc, hroom, rfl⟩ := Log.beginOp_eq_some hl
  have ho := openOps_update (p := p) s.phase (.active [])
  have hr := reserved_update (p := p) s.phase (.active [])
  rw [hp] at ho hr
  simp only [OpPhase.opens, OpPhase.left, List.length_nil, Nat.sub_zero] at ho hr
  have hupd := update_committing_iff (φ := s.phase) (p := p) (x := .active [])
    (by rw [hp]; exact OpPhase.noConfusion) OpPhase.noConfusion
  have hle := reserved_le s.phase
  have hout := hs.outstanding_eq
  have hbud := hs.budget
  constructor
  · dsimp only
    omega
  · simpa [hc, hupd] using fun q => hs.not_committing hc (p := q)
  · intro q q' hq hq'
    rw [hupd] at hq hq'
    exact hs.committing_unique q q' hq hq'
  · simp [hc]
  · intro q ws hq b hb
    dsimp only at hq
    by_cases hqp : q = p
    · subst hqp
      rw [Function.update_self, OpPhase.active.injEq] at hq
      subst hq
      exact absurd hb List.not_mem_nil
    · rw [Function.update_of_ne hqp] at hq
      exact hs.written_sub q ws hq b hb
  · simp only [Log.n] at hroom hbud ⊢
    simp only [MAXOPBLOCKS, LOGSIZE] at hroom hbud hle hr ⊢
    push_cast at hroom
    omega

theorem Inv.logWrite (hs : s.Inv) {b : ℕ} (h : s.step (.logWrite p b) = some (.ok s')) :
    s'.Inv := by
  obtain ⟨ws, hp, hmay, l, hl, rfl⟩ := step_logWrite_ok h
  obtain ⟨-, -, -, rfl⟩ := Log.logWrite_eq_ok hl
  set ws' := if b ∈ ws then ws else ws ++ [b] with hws'
  set l' := if b ∈ s.log.block then s.log else { s.log with block := s.log.block ++ [b] } with hl'
  have ho := openOps_update (p := p) s.phase (.active ws')
  have hr := reserved_update (p := p) s.phase (.active ws')
  rw [hp] at ho hr
  simp only [OpPhase.opens, OpPhase.left] at ho hr
  -- the counters and the flag are untouched; the header only grows, by `b` at most
  have hl'o : l'.outstanding = s.log.outstanding := by rw [hl']; split_ifs <;> rfl
  have hl'c : l'.committing = s.log.committing := by rw [hl']; split_ifs <;> rfl
  have hsub : ∀ c ∈ s.log.block, c ∈ l'.block := by
    intro c hc; rw [hl']; split_ifs <;> simp [hc]
  have hbin : b ∈ l'.block := by rw [hl']; split_ifs with hb <;> simp [hb]
  have hupd := update_committing_iff (φ := s.phase) (p := p) (x := .active ws')
    (by rw [hp]; exact OpPhase.noConfusion) OpPhase.noConfusion
  constructor
  · dsimp only
    rw [hl'o, hs.outstanding_eq]
    omega
  · dsimp only
    rw [hl'c, hs.committing_iff]
    simp only [hupd]
  · intro q r hq hr'
    rw [hupd] at hq hr'
    exact hs.committing_unique q r hq hr'
  · intro hc
    have := hs.quiet (hl'c ▸ hc)
    dsimp only
    omega
  · intro q vs hq c hc
    dsimp only at hq ⊢
    by_cases hqp : q = p
    · subst hqp
      rw [Function.update_self, OpPhase.active.injEq] at hq
      subst hq
      rw [hws'] at hc
      split_ifs at hc with hb
      · exact hsub c (hs.written_sub q ws hp c hc)
      · rcases List.mem_append.1 hc with hc | hc
        · exact hsub c (hs.written_sub q ws hp c hc)
        · rw [List.mem_singleton.1 hc]; exact hbin
    · rw [Function.update_of_ne hqp] at hq
      exact hsub c (hs.written_sub q vs hq c hc)
  · have hbud := hs.budget
    dsimp only
    by_cases hb : b ∈ s.log.block
    · -- absorbed: the header is unchanged and the operation's room only shrinks
      have hn : l'.n = s.log.n := by rw [hl', if_pos hb]
      have hlen : ws.length ≤ ws'.length := by rw [hws']; split_ifs <;> simp
      omega
    · -- a new block: it is new to the operation too, which had room for it
      have hbws : b ∉ ws := fun h => hb (hs.written_sub p ws hp b h)
      have hroom : ws.length < MAXOPBLOCKS := hmay.resolve_left hbws
      have hn : l'.n = s.log.n + 1 := by
        rw [hl', if_neg hb]; simp [Log.n]
      have hlen : ws'.length = ws.length + 1 := by
        rw [hws', if_neg hbws, List.length_append, List.length_singleton]
      omega

theorem Inv.endOp (hs : s.Inv) (h : s.step (.endOp p) = some (.ok s')) : s'.Inv := by
  obtain ⟨ws, hp, r, hr, rfl⟩ := step_endOp_ok h
  have hout := hs.outstanding_eq
  have hbud := hs.budget
  obtain ⟨hc, ⟨hz, rfl⟩ | ⟨hnz, rfl⟩⟩ := Log.endOp_eq_ok hr
  · -- the last open operation ends: its process commits, alone
    show Inv ⟨{ s.log with outstanding := 0, committing := true },
      Function.update s.phase p .committing⟩
    have ho := openOps_update (p := p) s.phase .committing
    have hr' := reserved_update (p := p) s.phase .committing
    rw [hp] at ho hr'
    simp only [OpPhase.opens, OpPhase.left] at ho hr'
    have ho' : openOps (Function.update s.phase p .committing) = 0 := by omega
    constructor
    · simp [ho']
    · simpa using ⟨p, Function.update_self ..⟩
    · intro q q' hq hq'
      have key : ∀ q, Function.update s.phase p .committing q = .committing → q = p := by
        intro q hq
        by_contra hqp
        rw [Function.update_of_ne hqp] at hq
        exact hs.not_committing hc hq
      rw [key q hq, key q' hq']
    · exact fun _ => ho'
    · intro q vs hq
      dsimp only at hq
      have := one_le_openOps hq
      omega
    · dsimp only [Log.n] at hbud ⊢
      omega
  · -- other operations remain open
    show Inv ⟨{ s.log with outstanding := s.log.outstanding - 1 },
      Function.update s.phase p .idle⟩
    have hupd := update_committing_iff (φ := s.phase) (p := p) (x := .idle)
      (by rw [hp]; exact OpPhase.noConfusion) OpPhase.noConfusion
    have ho := openOps_update (p := p) s.phase .idle
    have hr' := reserved_update (p := p) s.phase .idle
    rw [hp] at ho hr'
    simp only [OpPhase.opens, OpPhase.left] at ho hr'
    constructor
    · dsimp only
      omega
    · simpa [hc, hupd] using fun q => hs.not_committing hc (p := q)
    · intro q q' hq hq'
      rw [hupd] at hq hq'
      exact hs.committing_unique q q' hq hq'
    · simp [hc]
    · intro q vs hq
      dsimp only at hq
      by_cases hqp : q = p
      · subst hqp; simp at hq
      · rw [Function.update_of_ne hqp] at hq
        exact hs.written_sub q vs hq
    · dsimp only [Log.n] at hbud ⊢
      omega

theorem Inv.commit (hs : s.Inv) (h : s.step (.commit p) = some (.ok s')) : s'.Inv := by
  obtain ⟨hp, rfl⟩ := step_commit_ok h
  have hc : s.log.committing = true := hs.committing_iff.2 ⟨p, hp⟩
  have hq := hs.quiet hc
  have ho := openOps_update (p := p) s.phase .idle
  rw [hp] at ho
  simp only [OpPhase.opens] at ho
  -- after the commit no process is committing
  have hnone : ∀ q, Function.update s.phase p .idle q ≠ .committing := by
    intro q hq'
    by_cases hqp : q = p
    · subst hqp; simp at hq'
    · rw [Function.update_of_ne hqp] at hq'
      exact hqp (hs.committing_unique q p hq' hp)
  have hle := reserved_le (Function.update s.phase p .idle)
  constructor
  · dsimp only
    rw [show s.log.endCommit.outstanding = s.log.outstanding from rfl, hs.outstanding_eq]
    omega
  · simpa [Log.endCommit] using hnone
  · exact fun q _ hq' => absurd hq' (hnone q)
  · simp [Log.endCommit]
  · intro q vs hq'
    dsimp only at hq'
    have := one_le_openOps hq'
    omega
  · simp only [Log.n_endCommit, zero_add]
    simp only [MAXOPBLOCKS, LOGSIZE] at hle ⊢
    omega

/-- Every call keeps the invariant. -/
theorem Inv.step (hs : s.Inv) {c : LogCall np} (h : s.step c = some (.ok s')) : s'.Inv := by
  cases c with
  | beginOp p => exact hs.beginOp h
  | logWrite p b => exact hs.logWrite h
  | endOp p => exact hs.endOp h
  | commit p => exact hs.commit h

theorem Reachable.inv (h : s.Reachable) : s.Inv := by
  induction h with
  | init => exact inv_init
  | step _ hstep ih => exact ih.step hstep

/-! ### Consequences -/

/-- A commit runs with no outstanding and no open operation. -/
theorem Inv.commit_alone (hs : s.Inv) (hp : s.phase p = .committing) :
    s.log.outstanding = 0 ∧ ∀ q ws, s.phase q ≠ .active ws := by
  have hz := hs.quiet (hs.committing_iff.2 ⟨p, hp⟩)
  refine ⟨by rw [hs.outstanding_eq, hz]; rfl, fun q ws hq => ?_⟩
  have := one_le_openOps hq
  omega

/-- The one process of the log ends its operation and commits. -/
theorem commit_alone_one :
    (⟨⟨LOGSIZE, 0, true, []⟩, Function.update (Function.update (fun _ => .idle) 0 (.active []))
        0 .committing⟩ : LogSys 1).log.outstanding = 0 ∧
      ∀ q ws, (⟨⟨LOGSIZE, 0, true, []⟩, Function.update (Function.update (fun _ => .idle) 0
        (.active [])) 0 .committing⟩ : LogSys 1).phase q ≠ .active ws :=
  @Inv.commit_alone 1 _ 0
    (Reachable.step (c := .endOp 0) (Reachable.step (c := .beginOp 0) Reachable.init rfl) rfl).inv
    rfl

/-- `end_op` never reaches its `log.committing` panic: for an open operation it returns. -/
theorem Inv.endOp_ok (hs : s.Inv) {ws : List ℕ} (hp : s.phase p = .active ws) :
    ∃ s', s.step (.endOp p) = some (.ok s') := by
  have hc : s.log.committing = false := by
    cases hcv : s.log.committing
    · rfl
    · have := hs.quiet hcv
      have := one_le_openOps hp
      omega
  simp only [LogSys.step, hp, Log.endOp, hc, Bool.false_eq_true, if_false]
  split_ifs <;> exact ⟨_, rfl⟩

/-- The one process of the log, just after its `begin_op`, ends its operation. -/
theorem endOp_ok_one :
    ∃ s', (⟨⟨LOGSIZE, 1, false, []⟩, Function.update (fun _ => .idle) 0 (.active [])⟩ :
      LogSys 1).step (.endOp 0) = some (.ok s') :=
  @Inv.endOp_ok 1 _ 0 (Reachable.step (c := .beginOp 0) Reachable.init rfl).inv [] rfl

/-- A block new to the log is added while `lh.n < LOGSIZE`: the reservation leaves room in
`LOGSIZE` for it (though not in the `log.size - 1` slots, see `run_logWrite_panic`). -/
theorem Inv.n_lt_LOGSIZE (hs : s.Inv) {ws : List ℕ} {b : ℕ} (hp : s.phase p = .active ws)
    (hmay : MayWrite ws b) (hb : b ∉ s.log.block) : s.log.n < LOGSIZE := by
  have hbws : b ∉ ws := fun h => hb (hs.written_sub p ws hp b h)
  have hroom : ws.length < MAXOPBLOCKS := hmay.resolve_left hbws
  have hleft : (s.phase p).left ≤ reserved s.phase :=
    Finset.single_le_sum (f := fun q => (s.phase q).left) (fun _ _ => Nat.zero_le _) (mem_univ p)
  rw [hp, OpPhase.left] at hleft
  have := hs.budget
  omega

/-- The one process of the log, just after its `begin_op`, names block 5. -/
theorem n_lt_LOGSIZE_one :
    (⟨⟨LOGSIZE, 1, false, []⟩, Function.update (fun _ => .idle) 0 (.active [])⟩ :
      LogSys 1).log.n < LOGSIZE :=
  @Inv.n_lt_LOGSIZE 1 _ 0 (Reachable.step (c := .beginOp 0) Reachable.init rfl).inv [] 5 rfl (by decide)
    List.not_mem_nil

/-- Three operations, each passing ten distinct blocks to `log_write`. -/
def threeFullOps : List (LogCall 3) :=
  [.beginOp 0, .beginOp 1, .beginOp 2] ++
    (List.range 10).map (fun i => .logWrite 0 (100 + i)) ++
    (List.range 10).map (fun i => .logWrite 1 (110 + i)) ++
    (List.range 10).map (fun i => .logWrite 2 (120 + i))

/-- `begin_op` admits three operations of `MAXOPBLOCKS` blocks together (`0 + 3 * 10 ≤
LOGSIZE`), but the log has `log.size - 1 = LOGSIZE - 1` slots: the thirtieth distinct block
reaches the "too big a transaction" panic. -/
theorem run_logWrite_panic : (init 3).run threeFullOps = some (.error "too big a transaction") := by
  rfl

end LogSys

end Xv6
