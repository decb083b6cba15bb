import Mathlib
import Xv6.Lib.Ring
import Xv6.Lib.Run

/-!
# Pipes (`kernel/pipe.c`)

A pipe is a ring of `PIPESIZE` bytes with two free-running `uint` counters, `nread` and
`nwrite`, and a flag for each end. `pipewrite` and `piperead` hold the pipe's spin lock except
while they sleep, so each call is a sequence of critical sections: `pipewrite` sleeps when the
buffer is full and resumes with the count `i` of bytes it has written, `piperead` sleeps while
the buffer is empty and the write end open. Each section is one function here.

* `Pipe`, `Pipe.count` (the wrapped difference `nwrite - nread`), `Pipe.contents` (the bytes in
  the buffer, oldest first, through `Ring.contents`);
* `writeLoop`/`pipewrite` and `readLoop`/`piperead`, one critical section each, with the
  copies to and from user memory given as functions that say where `copyin` and `copyout`
  fault;
* `writeLoop_spec`, `readLoop_spec`: a section appends what it copied in, and takes out the
  oldest bytes, of which it copied out all or all but the last;
* `Sys`, `Sys.step`, `Sys.run`: any number of processes whose sections interleave, with the
  bytes each section put in and what each `piperead` returned recorded alongside;
* `Sys.Inv`, `run_inv`: over every run the counters stay at most `PIPESIZE` apart, through the
  wrap of `nread` and `nwrite`, and readers get a sublist of the bytes written; `run_lossless`:
  when no `copyout` faults they get a prefix;
* `Sys.Framed`, `run_framed`: when every call moves `κ` bytes with `κ ∣ PIPESIZE`, writers
  never sleep in the middle of a record and every read gets one whole record.
-/

namespace Xv6

/-- Size of a pipe's buffer (`PIPESIZE`). -/
def PIPESIZE : ℕ := 512

instance : NeZero PIPESIZE := ⟨by decide⟩

/-- The buffer's size divides the range of the `uint` counters. -/
theorem PIPESIZE_dvd : PIPESIZE ∣ 2 ^ 32 := ⟨2 ^ 23, by decide⟩

/-- A pipe (`struct pipe`). Its lock is the atomicity of each critical section below. -/
structure Pipe where
  data : Fin PIPESIZE → UInt8
  nread : UInt32
  nwrite : UInt32
  readopen : Bool
  writeopen : Bool

namespace Pipe

/-- The pipe `pipealloc` sets up: both ends open, both counters zero. The buffer is the page
`kalloc` returned, filled with junk. -/
def alloc : Pipe := ⟨fun _ => 5, 0, 0, true, true⟩

/-- The number of bytes in the buffer, `nwrite - nread` as a `uint`. -/
def count (p : Pipe) : ℕ := (p.nwrite - p.nread).toNat

/-- The bytes in the buffer, oldest first. -/
def contents (p : Pipe) : List UInt8 := Ring.contents PIPESIZE p.data p.nread.toNat p.count

/-- `pi->nwrite == pi->nread + PIPESIZE` (pipewrite-full). -/
def full (p : Pipe) : Bool := p.nwrite == p.nread + 512

/-- `pi->nread == pi->nwrite` (pipe-empty). -/
def empty (p : Pipe) : Bool := p.nread == p.nwrite

/-- `pi->data[pi->nwrite++ % PIPESIZE] = ch`. -/
def put (p : Pipe) (ch : UInt8) : Pipe :=
  { p with data := Function.update p.data (Ring.cell PIPESIZE p.nwrite.toNat) ch,
           nwrite := p.nwrite + 1 }

/-- The byte of `ch = pi->data[pi->nread++ % PIPESIZE]`. -/
def front (p : Pipe) : UInt8 := p.data (Ring.cell PIPESIZE p.nread.toNat)

/-- The pipe after `pi->nread++`. -/
def take (p : Pipe) : Pipe := { p with nread := p.nread + 1 }

/-- `pipeclose` of one end, leaving aside the `kfree` once both ends are closed. -/
def close (p : Pipe) (writable : Bool) : Pipe :=
  if writable then { p with writeopen := false } else { p with readopen := false }

@[simp] theorem put_data (p : Pipe) (ch : UInt8) :
    (p.put ch).data = Function.update p.data (Ring.cell PIPESIZE p.nwrite.toNat) ch := rfl
@[simp] theorem put_nread (p : Pipe) (ch : UInt8) : (p.put ch).nread = p.nread := rfl
@[simp] theorem put_nwrite (p : Pipe) (ch : UInt8) : (p.put ch).nwrite = p.nwrite + 1 := rfl
@[simp] theorem put_readopen (p : Pipe) (ch : UInt8) : (p.put ch).readopen = p.readopen := rfl
@[simp] theorem put_writeopen (p : Pipe) (ch : UInt8) : (p.put ch).writeopen = p.writeopen := rfl
@[simp] theorem take_data (p : Pipe) : p.take.data = p.data := rfl
@[simp] theorem take_nread (p : Pipe) : p.take.nread = p.nread + 1 := rfl
@[simp] theorem take_nwrite (p : Pipe) : p.take.nwrite = p.nwrite := rfl
@[simp] theorem take_readopen (p : Pipe) : p.take.readopen = p.readopen := rfl
@[simp] theorem take_writeopen (p : Pipe) : p.take.writeopen = p.writeopen := rfl

/-! ### The counters

Every fact about `nread` and `nwrite` comes from one relation: `nwrite` is `nread` advanced by
the count, modulo `2 ^ 32`. -/

theorem count_lt (p : Pipe) : p.count < 2 ^ 32 := UInt32.toNat_lt _

theorem count_eq (p : Pipe) : p.count = (2 ^ 32 - p.nread.toNat + p.nwrite.toNat) % 2 ^ 32 :=
  UInt32.toNat_sub ..

theorem nwrite_toNat (p : Pipe) : p.nwrite.toNat = (p.nread.toNat + p.count) % 2 ^ 32 := by
  have := p.nwrite.toNat_lt
  have := p.nread.toNat_lt
  rw [count_eq]
  omega

theorem full_iff (p : Pipe) : p.full = true ↔ p.count = PIPESIZE := by
  have := p.nread.toNat_lt
  have := p.count_lt
  rw [full, beq_iff_eq, UInt32.ext_iff, UInt32.toNat_add, nwrite_toNat]
  simp only [UInt32.reduceToNat, PIPESIZE]
  omega

theorem empty_iff (p : Pipe) : p.empty = true ↔ p.count = 0 := by
  have := p.nread.toNat_lt
  have := p.count_lt
  rw [empty, beq_iff_eq, UInt32.ext_iff, nwrite_toNat]
  omega

theorem count_put (p : Pipe) (ch : UInt8) (h : p.count < PIPESIZE) :
    (p.put ch).count = p.count + 1 := by
  have := p.nwrite.toNat_lt
  have := p.nread.toNat_lt
  rw [count_eq, count_eq, put_nread, put_nwrite, UInt32.toNat_add, UInt32.toNat_one]
  rw [count_eq] at h
  unfold PIPESIZE at h
  omega

theorem count_take (p : Pipe) (h : 0 < p.count) : p.take.count = p.count - 1 := by
  have := p.nwrite.toNat_lt
  have := p.nread.toNat_lt
  rw [count_eq, count_eq, take_nread, take_nwrite, UInt32.toNat_add, UInt32.toNat_one]
  rw [count_eq] at h
  omega

theorem count_alloc : alloc.count = 0 := by decide

@[simp] theorem count_close (p : Pipe) (writable : Bool) : (p.close writable).count = p.count := by
  cases writable <;> rfl

@[simp] theorem length_contents (p : Pipe) : p.contents.length = p.count :=
  Ring.length_contents ..

@[simp] theorem contents_close (p : Pipe) (writable : Bool) :
    (p.close writable).contents = p.contents := by
  cases writable <;> rfl

theorem contents_eq_nil_iff (p : Pipe) : p.contents = [] ↔ p.count = 0 := by
  rw [← List.length_eq_zero_iff, length_contents]

theorem contents_alloc : alloc.contents = [] := (contents_eq_nil_iff _).mpr count_alloc

/-- Writing below a full buffer appends: the cell of `nwrite` is the one past the newest byte,
also after either counter has wrapped. -/
theorem contents_put (p : Pipe) (ch : UInt8) (h : p.count < PIPESIZE) :
    (p.put ch).contents = p.contents ++ [ch] := by
  have hcell : Ring.cell PIPESIZE p.nwrite.toNat = Ring.cell PIPESIZE (p.nread.toNat + p.count) := by
    rw [nwrite_toNat, Ring.cell_mod PIPESIZE_dvd]
  unfold contents
  rw [count_put p ch h, put_data, put_nread, hcell]
  exact Ring.contents_push p.data _ _ ch h

/-- Reading a nonempty buffer takes its oldest byte. -/
theorem contents_take (p : Pipe) (h : 0 < p.count) : p.contents = p.front :: p.take.contents := by
  obtain ⟨c, hc⟩ : ∃ c, p.count = c + 1 := ⟨p.count - 1, by omega⟩
  have hread : p.take.nread.toNat = (p.nread.toNat + 1) % 2 ^ 32 := by
    rw [take_nread, UInt32.toNat_add, UInt32.toNat_one]
  unfold contents front
  rw [count_take p h, hc, hread, take_data, Ring.contents_mod PIPESIZE_dvd, Ring.contents_pop]
  rfl

end Pipe

/-! ### One critical section of each call -/

/-- How a section of `pipewrite` ends: returning -1 because the read end is closed or the
process killed, sleeping on a full buffer, or returning the count of bytes written. -/
inductive WriteExit
  | closed
  | full
  | done
  deriving DecidableEq, Repr

/-- The rest of `pipewrite`'s loop `while(i < n)`, for the `k = n - i` iterations left. `src j`
is the byte `copyin` reads at `addr + j`, `none` where it faults. -/
def writeLoop (src : ℕ → Option UInt8) (killed : Bool) : ℕ → ℕ → Pipe → Pipe × ℕ × WriteExit
  | 0, i, p => (p, i, .done)
  | k + 1, i, p =>
    if !p.readopen || killed then (p, i, .closed)
    else if p.full then (p, i, .full)
    else
      match src i with
      | none => (p, i, .done)
      | some ch => writeLoop src killed k (i + 1) (p.put ch)

/-- A critical section of `pipewrite(pi, addr, n)`, entered with `i` bytes already written: at
the call (`i = 0`) or on waking from the sleep on a full buffer. -/
def pipewrite (src : ℕ → Option UInt8) (n : ℤ) (killed : Bool) (i : ℕ) (p : Pipe) :
    Pipe × ℕ × WriteExit :=
  writeLoop src killed (n - i).toNat i p

/-- What `pipewrite` returns when a section ends it. -/
def WriteExit.ret (i : ℕ) : WriteExit → ℤ
  | .closed => -1
  | _ => i

/-- `piperead`'s copy loop `for(i = 0; i < n; i++)`, from byte `i` for the iterations left. It
stops on an empty buffer, and after a `copyout` fault, which `dst j = false` marks for
`addr + j`; `nread` has already moved past the byte that did not reach the user. The list is
the bytes copied out. -/
def readLoop (dst : ℕ → Bool) : ℕ → ℕ → Pipe → Pipe × ℕ × List UInt8
  | 0, i, p => (p, i, [])
  | k + 1, i, p =>
    if p.empty then (p, i, [])
    else if dst i then
      let r := readLoop dst k (i + 1) p.take
      (r.1, r.2.1, p.front :: r.2.2)
    else (p.take, i, [])

/-- How a section of `piperead` ends: asleep on an empty pipe, or returning a value and the
bytes copied out. -/
inductive ReadExit
  | sleep
  | ret (r : ℤ) (bytes : List UInt8)

/-- A critical section of `piperead(pi, addr, n)`: the test of its `while` loop, and the copy
once the loop is left. -/
def piperead (dst : ℕ → Bool) (n : ℤ) (killed : Bool) (p : Pipe) : Pipe × ReadExit :=
  if p.empty && p.writeopen then
    if killed then (p, .ret (-1) []) else (p, .sleep)
  else
    let r := readLoop dst n.toNat 0 p
    (r.1, .ret r.2.1 r.2.2)

/-- The bytes of `addr + i, …, addr + j - 1` that a section of `pipewrite` copied in. -/
def written (src : ℕ → Option UInt8) (i j : ℕ) : List UInt8 :=
  (List.range' i (j - i)).map fun t => (src t).getD 0

@[simp] theorem written_self (src : ℕ → Option UInt8) (i : ℕ) : written src i i = [] := by
  simp [written]

@[simp] theorem length_written (src : ℕ → Option UInt8) (i j : ℕ) :
    (written src i j).length = j - i := by
  simp [written]

theorem written_cons {src : ℕ → Option UInt8} {i j : ℕ} {ch : UInt8} (h : src i = some ch)
    (hij : i < j) : written src i j = ch :: written src (i + 1) j := by
  rw [written, show j - i = (j - (i + 1)) + 1 by omega, List.range'_succ, List.map_cons, h]
  rfl

/-! ### What a section does to the buffer -/

theorem writeLoop_spec (src : ℕ → Option UInt8) (killed : Bool) :
    ∀ k i (p : Pipe), p.count ≤ PIPESIZE → ∀ q j ex, writeLoop src killed k i p = (q, j, ex) →
      i ≤ j ∧ q.count ≤ PIPESIZE ∧ q.contents = p.contents ++ written src i j ∧
        q.readopen = p.readopen ∧ q.writeopen = p.writeopen := by
  intro k
  induction k with
  | zero =>
    intro i p hp q j ex h
    simp only [writeLoop, Prod.mk.injEq] at h
    obtain ⟨rfl, rfl, rfl⟩ := h
    simp [hp]
  | succ k ih =>
    intro i p hp q j ex h
    unfold writeLoop at h
    split_ifs at h with hc hf
    -- the three exits leave the pipe as it was
    · cases h; simp [hp]
    · cases h; simp [hp]
    cases hs : src i with
    | none => rw [hs] at h; cases h; simp [hp]
    | some ch =>
      rw [hs] at h
      have hlt : p.count < PIPESIZE := by
        rw [Bool.not_eq_true, ← Bool.not_eq_true, Pipe.full_iff] at hf
        omega
      obtain ⟨hij, hq, hcont, hr, hw⟩ :=
        ih (i + 1) (p.put ch) (by rw [Pipe.count_put p ch hlt]; omega) q j ex h
      refine ⟨by omega, hq, ?_, by simp [hr], by simp [hw]⟩
      rw [hcont, Pipe.contents_put p ch hlt, written_cons hs (by omega), List.append_assoc]
      rfl

/-- A section's copy loop takes out the oldest bytes of the buffer and copies out all of them,
or all but the last when a `copyout` faults. -/
theorem readLoop_spec (dst : ℕ → Bool) :
    ∀ k i (p : Pipe) q j bytes, readLoop dst k i p = (q, j, bytes) →
      ∃ removed, p.contents = removed ++ q.contents ∧ bytes <+: removed ∧ j = i + bytes.length ∧
        q.readopen = p.readopen ∧ q.writeopen = p.writeopen := by
  intro k
  induction k with
  | zero =>
    intro i p q j bytes h
    simp only [readLoop, Prod.mk.injEq] at h
    obtain ⟨rfl, rfl, rfl⟩ := h
    exact ⟨[], by simp⟩
  | succ k ih =>
    intro i p q j bytes h
    unfold readLoop at h
    split_ifs at h with he hd
    · cases h
      exact ⟨[], by simp⟩
    · -- the byte reached the user: the rest of the loop runs on the buffer without it
      have hpos : 0 < p.count := by
        rw [Bool.not_eq_true, ← Bool.not_eq_true, Pipe.empty_iff] at he
        omega
      rcases hr : readLoop dst k (i + 1) p.take with ⟨q', j', bytes'⟩
      rw [hr] at h
      simp only [Prod.mk.injEq] at h
      obtain ⟨rfl, rfl, rfl⟩ := h
      obtain ⟨removed, hsplit, hpre, hj, hro, hwo⟩ := ih (i + 1) p.take q' j' bytes' hr
      refine ⟨p.front :: removed, ?_, List.cons_prefix_cons.mpr ⟨rfl, hpre⟩, ?_, hro, hwo⟩
      · rw [p.contents_take hpos, hsplit, List.cons_append]
      · rw [hj, List.length_cons]
        omega
    · -- copyout faulted after nread moved past the byte
      have hpos : 0 < p.count := by
        rw [Bool.not_eq_true, ← Bool.not_eq_true, Pipe.empty_iff] at he
        omega
      cases h
      refine ⟨[p.front], ?_, List.nil_prefix, by simp, rfl, rfl⟩
      rw [p.contents_take hpos, List.singleton_append]

/-- When no `copyout` faults, the copy loop copies out the oldest `k` bytes, or all there are. -/
theorem readLoop_copied (dst : ℕ → Bool) :
    ∀ k i (p : Pipe), (∀ t, i ≤ t → t < i + k → dst t = true) →
      ∀ q j bytes, readLoop dst k i p = (q, j, bytes) →
        bytes = p.contents.take k ∧ p.contents = bytes ++ q.contents := by
  intro k
  induction k with
  | zero =>
    intro i p _ q j bytes h
    simp only [readLoop, Prod.mk.injEq] at h
    obtain ⟨rfl, rfl, rfl⟩ := h
    simp
  | succ k ih =>
    intro i p hdst q j bytes h
    unfold readLoop at h
    have hdi : dst i = true := hdst i le_rfl (by omega)
    split_ifs at h with he
    · cases h
      have hnil : p.contents = [] := (Pipe.contents_eq_nil_iff p).mpr ((Pipe.empty_iff p).mp he)
      simp [hnil]
    · have hpos : 0 < p.count := by
        rw [Bool.not_eq_true, ← Bool.not_eq_true, Pipe.empty_iff] at he
        omega
      rcases hr : readLoop dst k (i + 1) p.take with ⟨q', j', bytes'⟩
      rw [hr] at h
      simp only [Prod.mk.injEq] at h
      obtain ⟨rfl, rfl, rfl⟩ := h
      obtain ⟨htake, hsplit⟩ :=
        ih (i + 1) p.take (fun t h₁ h₂ => hdst t (by omega) (by omega)) q' j' bytes' hr
      rw [p.contents_take hpos, List.take_succ_cons, ← htake, hsplit]
      exact ⟨rfl, rfl⟩

theorem piperead_sleep {dst : ℕ → Bool} {n : ℤ} {killed : Bool} {p q : Pipe}
    (h : piperead dst n killed p = (q, .sleep)) : q = p ∧ p.empty = true ∧ p.writeopen = true := by
  unfold piperead at h
  split_ifs at h with hw hk
  · cases h
  · cases h
    simpa using hw
  · simp at h

/-- A section that ends the call has taken out the oldest bytes and copied out a prefix of them. -/
theorem piperead_ret {dst : ℕ → Bool} {n : ℤ} {killed : Bool} {p q : Pipe} {r : ℤ}
    {bytes : List UInt8} (h : piperead dst n killed p = (q, .ret r bytes)) :
    ∃ removed, p.contents = removed ++ q.contents ∧ bytes <+: removed ∧
      q.readopen = p.readopen ∧ q.writeopen = p.writeopen := by
  unfold piperead at h
  split_ifs at h with hw hk
  · cases h
    exact ⟨[], by simp⟩
  · cases h
  · rcases hr : readLoop dst n.toNat 0 p with ⟨q', j, bytes'⟩
    obtain ⟨removed, hsplit, hpre, -, hro, hwo⟩ := readLoop_spec dst _ 0 p _ _ _ hr
    simp only [hr, Prod.mk.injEq, ReadExit.ret.injEq] at h
    obtain ⟨rfl, -, rfl⟩ := h
    exact ⟨removed, hsplit, hpre, hro, hwo⟩

/-- A section of a process not killed ends the call only once it has left the `while` loop, and
then returns what the copy loop counted. -/
theorem piperead_live {dst : ℕ → Bool} {n : ℤ} {p q : Pipe} {r : ℤ} {bytes : List UInt8}
    (h : piperead dst n false p = (q, .ret r bytes)) :
    (p.empty && p.writeopen) = false ∧ readLoop dst n.toNat 0 p = (q, bytes.length, bytes) ∧
      r = bytes.length := by
  simp only [piperead, Bool.false_eq_true, ↓reduceIte] at h
  split_ifs at h with hw
  · cases h
  · rcases hr : readLoop dst n.toNat 0 p with ⟨q', j, bytes'⟩
    obtain ⟨_, -, -, hj, -, -⟩ := readLoop_spec dst _ 0 p _ _ _ hr
    rw [Nat.zero_add] at hj
    subst hj
    simp only [hr, Prod.mk.injEq, ReadExit.ret.injEq] at h
    obtain ⟨rfl, rfl, rfl⟩ := h
    exact ⟨by simpa using hw, rfl, rfl⟩

/-! ### Processes sharing a pipe

Any number of processes, of a type `ι`, call `pipewrite` and `piperead` on one pipe. The
scheduler picks which runs next: a process entering a call, a process asleep in a call
resuming (the loops test their conditions again, so a wakeup that finds nothing changed is
harmless), or an end being closed. What each process's `killed` flag reads in a section is
part of the event. -/

/-- A call a process is asleep in: `pipewrite` with `i` bytes written, or `piperead` on an empty
pipe. -/
inductive Call
  | write (src : ℕ → Option UInt8) (n : ℤ) (i : ℕ)
  | read (dst : ℕ → Bool) (n : ℤ)

/-- What runs next on the pipe. -/
inductive Event (ι : Type)
  | write (p : ι) (src : ℕ → Option UInt8) (n : ℤ) (killed : Bool)
  | read (p : ι) (dst : ℕ → Bool) (n : ℤ) (killed : Bool)
  | wake (p : ι) (killed : Bool)
  | close (writable : Bool)

/-- The pipe, the call each process is asleep in, the chunk of bytes each section of
`pipewrite` put in the buffer, and what each `piperead` returned with the bytes it copied out. -/
structure Sys (ι : Type) where
  pipe : Pipe
  call : ι → Option Call
  sent : List (List UInt8)
  got : List (ℤ × List UInt8)

namespace Sys

variable {ι : Type} [DecidableEq ι]

/-- A freshly allocated pipe. -/
def init : Sys ι := ⟨Pipe.alloc, fun _ => none, [], []⟩

/-- A section of `pipewrite` by process `p`, from byte `i` on. -/
def writeSection (s : Sys ι) (p : ι) (src : ℕ → Option UInt8) (n : ℤ) (i : ℕ) (killed : Bool) :
    Sys ι :=
  let r := pipewrite src n killed i s.pipe
  { pipe := r.1
    call := Function.update s.call p (if r.2.2 = .full then some (.write src n r.2.1) else none)
    sent := s.sent ++ [written src i r.2.1]
    got := s.got }

/-- A section of `piperead` by process `p`. -/
def readSection (s : Sys ι) (p : ι) (dst : ℕ → Bool) (n : ℤ) (killed : Bool) : Sys ι :=
  match piperead dst n killed s.pipe with
  | (q, .sleep) => { s with pipe := q, call := Function.update s.call p (some (.read dst n)) }
  | (q, .ret r bytes) =>
    { s with pipe := q, call := Function.update s.call p none, got := s.got ++ [(r, bytes)] }

/-- One scheduling step. A process already in a call cannot enter another. -/
def step : Event ι → Sys ι → Sys ι
  | .write p src n killed, s =>
    match s.call p with
    | none => s.writeSection p src n 0 killed
    | some _ => s
  | .read p dst n killed, s =>
    match s.call p with
    | none => s.readSection p dst n killed
    | some _ => s
  | .wake p killed, s =>
    match s.call p with
    | some (.write src n i) => s.writeSection p src n i killed
    | some (.read dst n) => s.readSection p dst n killed
    | none => s
  | .close writable, s => { s with pipe := s.pipe.close writable }

/-- A run of the scheduler. -/
def run (s : Sys ι) (es : List (Event ι)) : Sys ι := AtomicRun.run step s es

/-! ### The pipe is a FIFO channel -/

/-- The invariant of every run: the counters are at most `PIPESIZE` apart, the bytes written are
the bytes taken out of the buffer followed by its contents, and readers got a sublist of the
bytes taken out. -/
structure Inv (s : Sys ι) (taken : List UInt8) : Prop where
  bound : s.pipe.count ≤ PIPESIZE
  fifo : s.sent.flatten = taken ++ s.pipe.contents
  got : List.Sublist (s.got.map Prod.snd).flatten taken

omit [DecidableEq ι] in
theorem Inv.init : (init : Sys ι).Inv [] where
  bound := by simp [Sys.init, Pipe.count_alloc]
  fifo := by simp [Sys.init, Pipe.contents_alloc]
  got := List.Sublist.slnil

theorem Inv.writeSection {s : Sys ι} {t : List UInt8} (hs : s.Inv t) (p : ι)
    (src : ℕ → Option UInt8) (n : ℤ) (i : ℕ) (killed : Bool) :
    (s.writeSection p src n i killed).Inv t := by
  rcases hr : pipewrite src n killed i s.pipe with ⟨q, j, ex⟩
  obtain ⟨-, hq, hcont, -, -⟩ := writeLoop_spec src killed _ i s.pipe hs.bound q j ex hr
  constructor
  · simp only [Sys.writeSection, hr]
    exact hq
  · simp only [Sys.writeSection, hr]
    rw [List.flatten_append, List.flatten_singleton, hs.fifo, hcont, List.append_assoc]
  · simp only [Sys.writeSection, hr]
    exact hs.got

omit [DecidableEq ι] in
/-- A read section that takes `removed` out of the buffer and hands out a prefix of it keeps the
invariant, with `removed` now taken. -/
theorem Inv.take {s s' : Sys ι} {t removed bytes : List UInt8} (hs : s.Inv t)
    (hsent : s'.sent = s.sent) (hsplit : s.pipe.contents = removed ++ s'.pipe.contents)
    (hgot : (s'.got.map Prod.snd).flatten = (s.got.map Prod.snd).flatten ++ bytes)
    (hpre : bytes <+: removed) : s'.Inv (t ++ removed) where
  bound := by
    have hlen := congrArg List.length hsplit
    rw [List.length_append, Pipe.length_contents, Pipe.length_contents] at hlen
    exact le_trans (by omega) hs.bound
  fifo := by rw [hsent, hs.fifo, hsplit, List.append_assoc]
  got := by
    rw [hgot]
    exact hs.got.append hpre.sublist

theorem Inv.readSection {s : Sys ι} {t : List UInt8} (hs : s.Inv t) (p : ι) (dst : ℕ → Bool)
    (n : ℤ) (killed : Bool) : ∃ t', (s.readSection p dst n killed).Inv t' := by
  rcases hr : piperead dst n killed s.pipe with ⟨q, _ | ⟨r, bytes⟩⟩
  · obtain ⟨rfl, -, -⟩ := piperead_sleep hr
    refine ⟨t, ?_⟩
    simp only [Sys.readSection, hr]
    exact ⟨hs.bound, hs.fifo, hs.got⟩
  · obtain ⟨removed, hsplit, hpre, -, -⟩ := piperead_ret hr
    refine ⟨t ++ removed, hs.take ?_ ?_ ?_ hpre⟩ <;> simp only [Sys.readSection, hr]
    · exact hsplit
    · rw [List.map_append, List.flatten_append, List.map_singleton, List.flatten_singleton]

omit [DecidableEq ι] in
theorem Inv.close {s : Sys ι} {t : List UInt8} (hs : s.Inv t) (writable : Bool) :
    Inv { s with pipe := s.pipe.close writable } t where
  bound := by simpa using hs.bound
  fifo := by simpa using hs.fifo
  got := hs.got

theorem Inv.step {s : Sys ι} {t : List UInt8} (hs : s.Inv t) :
    ∀ e : Event ι, ∃ t', (step e s).Inv t'
  | .write p src n killed => by
    simp only [Sys.step]
    split
    · exact ⟨t, hs.writeSection p src n 0 killed⟩
    · exact ⟨t, hs⟩
  | .read p dst n killed => by
    simp only [Sys.step]
    split
    · exact hs.readSection p dst n killed
    · exact ⟨t, hs⟩
  | .wake p killed => by
    simp only [Sys.step]
    split
    · exact ⟨t, hs.writeSection p _ _ _ killed⟩
    · exact hs.readSection p _ _ killed
    · exact ⟨t, hs⟩
  | .close writable => ⟨t, hs.close writable⟩

theorem run_inv (es : List (Event ι)) : ∃ t, (run init es).Inv t :=
  AtomicRun.run_of_forall_mem (fun s => ∃ t, Sys.Inv s t) ⟨[], Inv.init⟩
    (fun _ _ _ ⟨_, hs⟩ => hs.step _)

/-- Over every run, through any wrap of the counters, the buffer holds at most `PIPESIZE`
bytes, and the bytes readers got are a sublist of the bytes written, in order. -/
theorem run_fifo (es : List (Event ι)) :
    (run init es).pipe.count ≤ PIPESIZE ∧
      List.Sublist ((run init es).got.map Prod.snd).flatten (run init es).sent.flatten := by
  obtain ⟨t, ht⟩ := run_inv es
  refine ⟨ht.bound, ?_⟩
  rw [ht.fifo]
  exact ht.got.trans (List.sublist_append_left _ _)

end Sys

/-! ### Readers that never fault get a prefix -/

/-- An event whose `copyout`s never fault. -/
def Event.Faultless {ι : Type} : Event ι → Prop
  | .read _ dst _ _ => ∀ t, dst t = true
  | _ => True

namespace Sys

variable {ι : Type} [DecidableEq ι]

/-- When no `copyout` faults, a section that ends a `piperead` copies out all it takes. -/
theorem piperead_exact {dst : ℕ → Bool} {n : ℤ} {killed : Bool} {p q : Pipe} {r : ℤ}
    {bytes : List UInt8} (hdst : ∀ t, dst t = true) (h : piperead dst n killed p = (q, .ret r bytes)) :
    p.contents = bytes ++ q.contents := by
  unfold piperead at h
  split_ifs at h with hw hk
  · cases h
    rfl
  · cases h
  · rcases hr : readLoop dst n.toNat 0 p with ⟨q', j, bytes'⟩
    have hcopy := (readLoop_copied dst _ 0 p (fun t _ _ => hdst t) _ _ _ hr).2
    simp only [hr, Prod.mk.injEq, ReadExit.ret.injEq] at h
    obtain ⟨rfl, -, rfl⟩ := h
    exact hcopy

/-- The invariant of runs without `copyout` faults: readers got exactly the bytes taken out of
the buffer, and a reader asleep will not fault either. -/
structure Lossless (s : Sys ι) (taken : List UInt8) : Prop extends s.Inv taken where
  exact : (s.got.map Prod.snd).flatten = taken
  asleep : ∀ p dst n, s.call p = some (.read dst n) → ∀ t, dst t = true

theorem Lossless.writeSection {s : Sys ι} {t : List UInt8} (hs : s.Lossless t) (p : ι)
    (src : ℕ → Option UInt8) (n : ℤ) (i : ℕ) (killed : Bool) :
    (s.writeSection p src n i killed).Lossless t := by
  refine ⟨hs.toInv.writeSection p src n i killed, hs.exact, ?_⟩
  intro p' dst n' hc
  simp only [Sys.writeSection] at hc
  by_cases hp : p' = p
  · subst hp
    rw [Function.update_self] at hc
    split_ifs at hc
    cases hc
  · rw [Function.update_of_ne hp] at hc
    exact hs.asleep p' dst n' hc

theorem Lossless.readSection {s : Sys ι} {t : List UInt8} (hs : s.Lossless t) (p : ι)
    {dst : ℕ → Bool} (hdst : ∀ t, dst t = true) (n : ℤ) (killed : Bool) :
    ∃ t', (s.readSection p dst n killed).Lossless t' := by
  have hcall : ∀ o : Option Call, (∀ dst' n', o = some (.read dst' n') → ∀ t, dst' t = true) →
      ∀ p' dst' n', Function.update s.call p o p' = some (.read dst' n') → ∀ t, dst' t = true := by
    intro o ho p' dst' n' hc
    by_cases hp : p' = p
    · subst hp
      rw [Function.update_self] at hc
      exact ho dst' n' hc
    · rw [Function.update_of_ne hp] at hc
      exact hs.asleep p' dst' n' hc
  rcases hr : piperead dst n killed s.pipe with ⟨q, _ | ⟨r, bytes⟩⟩
  · obtain ⟨rfl, -, -⟩ := piperead_sleep hr
    simp only [Sys.readSection, hr]
    exact ⟨t, ⟨hs.bound, hs.fifo, hs.got⟩, hs.exact,
      hcall _ (fun dst' n' h => by cases h; exact hdst)⟩
  · have hsplit := piperead_exact hdst hr
    have hgot : ((s.readSection p dst n killed).got.map Prod.snd).flatten =
        (s.got.map Prod.snd).flatten ++ bytes := by
      simp only [Sys.readSection, hr]
      rw [List.map_append, List.flatten_append, List.map_singleton, List.flatten_singleton]
    refine ⟨t ++ bytes, hs.take ?_ ?_ hgot (List.prefix_refl _), ?_, ?_⟩
    · simp only [Sys.readSection, hr]
    · simp only [Sys.readSection, hr]
      exact hsplit
    · rw [hgot, hs.exact]
    · simp only [Sys.readSection, hr]
      exact hcall _ (fun _ _ h => by cases h)

theorem Lossless.step {s : Sys ι} {t : List UInt8} (hs : s.Lossless t) :
    ∀ e : Event ι, e.Faultless → ∃ t', (step e s).Lossless t'
  | .write p src n killed, _ => by
    simp only [Sys.step]
    split
    · exact ⟨t, hs.writeSection p src n 0 killed⟩
    · exact ⟨t, hs⟩
  | .read p dst n killed, he => by
    simp only [Sys.step]
    split
    · exact hs.readSection p he n killed
    · exact ⟨t, hs⟩
  | .wake p killed, _ => by
    simp only [Sys.step]
    split
    · exact ⟨t, hs.writeSection p _ _ _ killed⟩
    · rename_i dst n hc
      exact hs.readSection p (hs.asleep p dst n hc) n killed
    · exact ⟨t, hs⟩
  | .close writable, _ => ⟨t, hs.toInv.close writable, hs.exact, hs.asleep⟩

/-- When no `copyout` faults, the bytes readers got, in the order `piperead` returned them, are a
prefix of the bytes written, in the order they went into the buffer. -/
theorem run_lossless {es : List (Event ι)} (hes : ∀ e ∈ es, e.Faultless) :
    ((run init es).got.map Prod.snd).flatten <+: (run init es).sent.flatten := by
  obtain ⟨t, ht⟩ : ∃ t, (run init es).Lossless t :=
    AtomicRun.run_of_forall_mem (fun s => ∃ t, Sys.Lossless s t)
      ⟨[], Inv.init, rfl, fun _ _ _ h => by cases h⟩
      (fun e he s ⟨_, hs⟩ => hs.step e (hes e he))
  rw [ht.fifo, ht.exact]
  exact List.prefix_append _ _

/-- A write of the two bytes `a b`, then a `piperead` of two bytes whose `copyout`s succeed. -/
theorem run_lossless_write_read :
    ((Sys.run (Sys.init : Sys (Fin 2)) [.write 0 (fun j => [97, 98][j]?) 2 false,
        .read 1 (fun _ => true) 2 false]).got.map Prod.snd).flatten <+:
      (Sys.run (Sys.init : Sys (Fin 2)) [.write 0 (fun j => [97, 98][j]?) 2 false,
        .read 1 (fun _ => true) 2 false]).sent.flatten :=
  run_lossless (by simp [Event.Faultless])

/-- A write of the two bytes `a b`, then a `piperead` of two bytes whose first `copyout`
faults, then one that copies. The first read returns 0, but `nread` has already moved past `a`:
the readers get `b` alone, which is not a prefix of what was written. -/
theorem piperead_fault_loses_byte :
    (Sys.run (Sys.init : Sys (Fin 2)) [.write 0 (fun j => [97, 98][j]?) 2 false,
        .read 1 (fun _ => false) 2 false, .read 1 (fun _ => true) 2 false]).sent = [[97, 98]] ∧
      (Sys.run (Sys.init : Sys (Fin 2)) [.write 0 (fun j => [97, 98][j]?) 2 false,
        .read 1 (fun _ => false) 2 false, .read 1 (fun _ => true) 2 false]).got =
        [(0, []), (1, [98])] := by
  decide

end Sys

/-! ### Records of a fixed size

`primes.c` reads and writes `int`s through pipes and takes a read of 0 bytes for the end of
the stream. That is sound because `PIPESIZE` is a multiple of the record size `κ`: while the
buffer holds whole records its free space is a multiple of `κ` too, so a writer either has room
for all of its record or sleeps before its first byte, and a reader finds a whole record or
none. -/

/-- The nonempty chunks of a list of chunks. -/
def records (l : List (List UInt8)) : List (List UInt8) := l.filter fun c => !c.isEmpty

theorem records_append_nil (l : List (List UInt8)) : records (l ++ [[]]) = records l := by
  simp [records]

theorem records_append_of_ne (l : List (List UInt8)) {c : List UInt8} (hc : c ≠ []) :
    records (l ++ [c]) = records l ++ [c] := by
  simp [records, hc]

theorem length_flatten_of_forall {κ : ℕ} {q : List (List UInt8)} (h : ∀ c ∈ q, c.length = κ) :
    q.flatten.length = q.length * κ := by
  induction q with
  | nil => simp
  | cons c q ih =>
    rw [List.flatten_cons, List.length_append, h c List.mem_cons_self,
      ih (fun c hc => h c (List.mem_cons_of_mem _ hc)), List.length_cons, Nat.succ_mul,
      Nat.add_comm]

theorem mem_of_mem_records {l : List (List UInt8)} {c : List UInt8} (h : c ∈ records l) :
    c ∈ l ∧ c ≠ [] := by
  simpa [records] using h

/-- A call that moves one record of `κ` bytes without faults: a `pipewrite` that has not written
any of it yet, or a `piperead`. -/
def Call.Uniform (κ : ℕ) : Call → Prop
  | .write src n i => n = κ ∧ i = 0 ∧ ∀ j < κ, (src j).isSome = true
  | .read dst n => n = κ ∧ ∀ j < κ, dst j = true

/-- An event of a run in which every call moves `κ` bytes, no copy faults and no process is
killed. -/
def Event.Uniform {ι : Type} (κ : ℕ) : Event ι → Prop
  | .write _ src n killed => n = κ ∧ killed = false ∧ ∀ j < κ, (src j).isSome = true
  | .read _ dst n killed => n = κ ∧ killed = false ∧ ∀ j < κ, dst j = true
  | .wake _ killed => killed = false
  | .close _ => True

instance {ι : Type} (κ : ℕ) : DecidablePred (Event.Uniform (ι := ι) κ) := fun e => by
  cases e <;> unfold Event.Uniform <;> infer_instance

/-- In a buffer of whole records there is room for one more or none. -/
theorem room_of_dvd {κ c : ℕ} (hκ : κ ∣ PIPESIZE) (hκ0 : 0 < κ) (hc : κ ∣ c)
    (hle : c ≤ PIPESIZE) : c = PIPESIZE ∨ c + κ ≤ PIPESIZE := by
  obtain ⟨a, rfl⟩ := hc
  obtain ⟨b, hb⟩ := hκ
  rw [hb] at hle ⊢
  have hab : a ≤ b := Nat.le_of_mul_le_mul_left hle hκ0
  rcases Nat.eq_or_lt_of_le hab with rfl | hlt
  · exact Or.inl rfl
  · right
    calc κ * a + κ = κ * (a + 1) := (Nat.mul_succ κ a).symm
      _ ≤ κ * b := Nat.mul_le_mul_left κ hlt

/-- With room for all `k` bytes, the read end open, no kill and no `copyin` fault, a section
writes them all and returns. -/
theorem writeLoop_fits {src : ℕ → Option UInt8} :
    ∀ {k i : ℕ} {p : Pipe}, p.readopen = true → (∀ t, i ≤ t → t < i + k → (src t).isSome = true) →
      p.count + k ≤ PIPESIZE → ∃ q, writeLoop src false k i p = (q, i + k, .done)
  | 0, i, p, _, _, _ => ⟨p, rfl⟩
  | k + 1, i, p, hr, hsrc, hroom => by
    have hf : p.full = false := by
      rw [← Bool.not_eq_true, Pipe.full_iff]
      omega
    obtain ⟨ch, hch⟩ := Option.isSome_iff_exists.mp (hsrc i le_rfl (by omega))
    obtain ⟨q, hq⟩ : ∃ q, writeLoop src false k (i + 1) (p.put ch) = (q, i + 1 + k, .done) :=
      writeLoop_fits (by simpa using hr) (fun t h₁ h₂ => hsrc t (by omega) (by omega))
      (by rw [Pipe.count_put p ch (by omega)]; omega)
    refine ⟨q, ?_⟩
    rw [writeLoop, hr, hf, hch]
    simp only [Bool.not_true, Bool.or_false, Bool.false_eq_true, ↓reduceIte]
    rw [hq, Nat.add_right_comm, Nat.add_assoc]

theorem writeLoop_closed {src : ℕ → Option UInt8} {killed : Bool} {k i : ℕ} {p : Pipe}
    (hr : p.readopen = false) : writeLoop src killed (k + 1) i p = (p, i, .closed) := by
  simp [writeLoop, hr]

theorem writeLoop_full {src : ℕ → Option UInt8} {k i : ℕ} {p : Pipe} (hr : p.readopen = true)
    (hf : p.full = true) : writeLoop src false (k + 1) i p = (p, i, .full) := by
  simp [writeLoop, hr, hf]

namespace Sys

variable {ι : Type} [DecidableEq ι]

/-- The invariant of runs in which every call moves `κ` bytes: every chunk a section of
`pipewrite` put in is empty or a whole record; the records written are those readers got
followed by the queue `q`, whose bytes are the buffer's; and a process asleep is in a call of
the same kind. -/
structure Framed (κ : ℕ) (s : Sys ι) (q : List (List UInt8)) : Prop where
  bound : s.pipe.count ≤ PIPESIZE
  sent : ∀ c ∈ s.sent, c = [] ∨ c.length = κ
  fifo : records s.sent = records (s.got.map Prod.snd) ++ q
  queue : s.pipe.contents = q.flatten
  asleep : ∀ p c, s.call p = some c → c.Uniform κ

/-- What one step can add to what readers got when every call moves a record of `κ` bytes:
nothing; `κ` bytes that are the next record written, whole; or `0`, from an empty pipe whose
write end is closed. -/
def Delivers (κ : ℕ) (s s' : Sys ι) : Prop :=
  s'.got = s.got ∨
    (∃ r, s'.got = s.got ++ [((κ : ℤ), r)] ∧
      records (s.got.map Prod.snd) ++ [r] <+: records s.sent) ∨
    (s'.got = s.got ++ [(0, [])] ∧ s.pipe.empty = true ∧ s.pipe.writeopen = false)

section Framed

variable {κ : ℕ} {s : Sys ι} {q : List (List UInt8)}

omit [DecidableEq ι] in
theorem Framed.init (κ : ℕ) : Framed κ (init : Sys ι) [] where
  bound := by simp [Sys.init, Pipe.count_alloc]
  sent := by simp [Sys.init]
  fifo := rfl
  queue := Pipe.contents_alloc
  asleep := fun _ _ h => by cases h

omit [DecidableEq ι] in
theorem Framed.length_of_mem (hs : Framed κ s q) {c : List UInt8} (hc : c ∈ q) :
    c.length = κ := by
  have hmem : c ∈ records s.sent := by
    rw [hs.fifo]
    exact List.mem_append_right _ hc
  obtain ⟨hc', hne⟩ := mem_of_mem_records hmem
  exact (hs.sent c hc').resolve_left hne

omit [DecidableEq ι] in
/-- The buffer holds whole records. -/
theorem Framed.dvd_count (hs : Framed κ s q) : κ ∣ s.pipe.count := by
  rw [← Pipe.length_contents, hs.queue, length_flatten_of_forall (fun c hc => hs.length_of_mem hc)]
  exact Nat.dvd_mul_left κ q.length

theorem sent_append {sent : List (List UInt8)} (h : ∀ c ∈ sent, c = [] ∨ c.length = κ)
    {c' : List UInt8} (hc' : c' = [] ∨ c'.length = κ) :
    ∀ c ∈ sent ++ [c'], c = [] ∨ c.length = κ := by
  intro c hc
  rcases List.mem_append.mp hc with hc | hc
  · exact h c hc
  · rw [List.mem_singleton.mp hc]
    exact hc'

theorem asleep_update {call : ι → Option Call} (h : ∀ p c, call p = some c → c.Uniform κ)
    (p : ι) {o : Option Call} (ho : ∀ c, o = some c → c.Uniform κ) :
    ∀ p' c, Function.update call p o p' = some c → c.Uniform κ := by
  intro p' c hc
  by_cases hp : p' = p
  · subst hp
    rw [Function.update_self] at hc
    exact ho c hc
  · rw [Function.update_of_ne hp] at hc
    exact h p' c hc

/-- A section of a `pipewrite` of one record, before its first byte, writes all of it or
nothing. -/
theorem Framed.writeSection (hs : Framed κ s q) (hκ : κ ∣ PIPESIZE) (hκ0 : 0 < κ) (p : ι)
    {src : ℕ → Option UInt8} (hsrc : ∀ j < κ, (src j).isSome = true) :
    ∃ q', Framed κ (s.writeSection p src κ 0 false) q' := by
  have hk : ((κ : ℤ) - ((0 : ℕ) : ℤ)).toNat = κ := by simp
  obtain ⟨k, rfl⟩ : ∃ k, κ = k + 1 := ⟨κ - 1, by omega⟩
  cases hro : s.pipe.readopen
  · -- the read end is closed: return -1
    have hr : pipewrite src (k + 1 : ℕ) false 0 s.pipe = (s.pipe, 0, .closed) := by
      rw [pipewrite, hk, writeLoop_closed hro]
    simp only [Sys.writeSection, hr, written_self]
    refine ⟨q, hs.bound, sent_append hs.sent (Or.inl rfl), ?_, hs.queue, ?_⟩
    · rw [records_append_nil, hs.fifo]
    · exact asleep_update hs.asleep p (by simp)
  rcases room_of_dvd hκ hκ0 hs.dvd_count hs.bound with hfull | hroom
  · -- the buffer is full: sleep before the first byte
    have hf : s.pipe.full = true := (Pipe.full_iff _).mpr hfull
    have hr : pipewrite src (k + 1 : ℕ) false 0 s.pipe = (s.pipe, 0, .full) := by
      rw [pipewrite, hk, writeLoop_full hro hf]
    simp only [Sys.writeSection, hr, written_self]
    refine ⟨q, hs.bound, sent_append hs.sent (Or.inl rfl), ?_, hs.queue, ?_⟩
    · rw [records_append_nil, hs.fifo]
    · exact asleep_update hs.asleep p (fun c hc => by cases hc; exact ⟨rfl, rfl, hsrc⟩)
  · -- room for the whole record
    obtain ⟨q', hq'⟩ : ∃ q', writeLoop src false (k + 1) 0 s.pipe = (q', 0 + (k + 1), .done) :=
      writeLoop_fits hro (fun t _ ht => hsrc t (by omega)) hroom
    rw [Nat.zero_add] at hq'
    have hr : pipewrite src (k + 1 : ℕ) false 0 s.pipe = (q', k + 1, .done) := by
      rw [pipewrite, hk, hq']
    obtain ⟨-, hbound, hcont, -, -⟩ := writeLoop_spec src false _ 0 s.pipe hs.bound _ _ _ hq'
    have hne : written src 0 (k + 1) ≠ [] := by
      rw [← List.length_pos_iff, length_written]
      omega
    simp only [Sys.writeSection, hr]
    refine ⟨q ++ [written src 0 (k + 1)], hbound, sent_append hs.sent (Or.inr (by simp)), ?_, ?_, ?_⟩
    · rw [records_append_of_ne _ hne, hs.fifo, List.append_assoc]
    · rw [hcont, hs.queue, List.flatten_append, List.flatten_singleton]
    · exact asleep_update hs.asleep p (by simp)

/-- A section of a `piperead` of one record sleeps, copies out the next record whole, or
returns 0 from an empty pipe whose write end is closed. -/
theorem Framed.readSection (hs : Framed κ s q) (hκ0 : 0 < κ) (p : ι) {dst : ℕ → Bool}
    (hdst : ∀ j < κ, dst j = true) :
    (∃ q', Framed κ (s.readSection p dst κ false) q') ∧
      Delivers κ s (s.readSection p dst κ false) := by
  rcases hr : piperead dst κ false s.pipe with ⟨p', _ | ⟨r, bytes⟩⟩
  · -- asleep on an empty pipe
    obtain ⟨rfl, -, -⟩ := piperead_sleep hr
    simp only [Sys.readSection, hr]
    exact ⟨⟨q, hs.bound, hs.sent, hs.fifo, hs.queue,
      asleep_update hs.asleep p (fun c hc => by cases hc; exact ⟨rfl, hdst⟩)⟩, Or.inl rfl⟩
  obtain ⟨hw, hloop, rfl⟩ := piperead_live hr
  rw [Int.toNat_natCast] at hloop
  obtain ⟨htake, hsplit⟩ :=
    readLoop_copied dst κ 0 s.pipe (fun t _ ht => hdst t (by omega)) _ _ _ hloop
  have hasleep := asleep_update hs.asleep p (fun c (hc : none = some c) => by cases hc)
  simp only [Sys.readSection, hr]
  rcases q with _ | ⟨c, q'⟩
  · -- nothing buffered: the write end is closed, and the read returns 0
    have hnil : s.pipe.contents = [] := hs.queue
    rw [hnil, List.take_nil] at htake
    subst htake
    rw [hnil, List.nil_append] at hsplit
    have hempty : s.pipe.empty = true := (Pipe.empty_iff _).mpr ((Pipe.contents_eq_nil_iff _).mp hnil)
    refine ⟨⟨[], ?_, hs.sent, ?_, hsplit.symm, hasleep⟩, Or.inr (Or.inr ⟨rfl, hempty, ?_⟩)⟩
    · rw [(Pipe.contents_eq_nil_iff _).mp hsplit.symm]
      exact Nat.zero_le _
    · rw [List.map_append, List.map_singleton, records_append_nil, hs.fifo]
    · simpa [hempty] using hw
  · -- the oldest record goes out whole
    have hc : c.length = κ := hs.length_of_mem (List.mem_cons_self ..)
    have hq : s.pipe.contents = c ++ q'.flatten := by rw [hs.queue, List.flatten_cons]
    rw [hq, List.take_left' hc] at htake
    subst htake
    rw [hq] at hsplit
    have hrest : p'.contents = q'.flatten := (List.append_cancel_left hsplit).symm
    have hne : bytes ≠ [] := by
      rw [← List.length_pos_iff, hc]
      exact hκ0
    have hfifo : records s.sent = (records (s.got.map Prod.snd) ++ [bytes]) ++ q' := by
      rw [hs.fifo, List.append_assoc, List.singleton_append]
    refine ⟨⟨q', ?_, hs.sent, ?_, hrest, hasleep⟩, Or.inr (Or.inl ⟨bytes, ?_, ?_⟩)⟩
    · rw [← Pipe.length_contents, hrest]
      have := hs.bound
      rw [← Pipe.length_contents, hq, List.length_append] at this
      omega
    · rw [List.map_append, List.map_singleton, records_append_of_ne _ hne, hfifo]
    · rw [hc]
    · rw [hfifo]
      exact List.prefix_append _ _

/-- A section of a `piperead` of one record on a pipe holding at least one record copies out
the next record written. -/
theorem Framed.readSection_record (hs : Framed κ s q) (hκ0 : 0 < κ) (p : ι) {dst : ℕ → Bool}
    (hdst : ∀ j < κ, dst j = true) (hc : κ ≤ s.pipe.count) :
    ∃ r, (s.readSection p dst κ false).got = s.got ++ [((κ : ℤ), r)] ∧
      records (s.got.map Prod.snd) ++ [r] <+: records s.sent := by
  have hne : s.pipe.empty = false := by
    rw [Bool.eq_false_iff, ne_eq, Pipe.empty_iff]
    omega
  rcases (hs.readSection hκ0 p hdst).2 with hsame | hrec | ⟨-, hempty, -⟩
  · -- what readers got is unchanged only by a section that sleeps, on an empty pipe
    rcases hr : piperead dst κ false s.pipe with ⟨p', _ | ⟨r, bytes⟩⟩
    · rw [(piperead_sleep hr).2.1] at hne
      cases hne
    · simp [Sys.readSection, hr] at hsame
  · exact hrec
  · rw [hempty] at hne
    cases hne

omit [DecidableEq ι] in
theorem Framed.close (hs : Framed κ s q) (writable : Bool) :
    Framed κ { s with pipe := s.pipe.close writable } q where
  bound := by simpa using hs.bound
  sent := hs.sent
  fifo := hs.fifo
  queue := by simpa using hs.queue
  asleep := hs.asleep

/-- Every step of a run of `κ`-byte calls keeps the invariant and delivers whole records. -/
theorem Framed.step (hs : Framed κ s q) (hκ : κ ∣ PIPESIZE) (hκ0 : 0 < κ) :
    ∀ e : Event ι, e.Uniform κ → (∃ q', Framed κ (step e s) q') ∧ Delivers κ s (step e s)
  | .write p src n killed, ⟨hn, hk, hsrc⟩ => by
    subst hn hk
    simp only [Sys.step]
    split
    · exact ⟨hs.writeSection hκ hκ0 p hsrc, Or.inl rfl⟩
    · exact ⟨⟨q, hs⟩, Or.inl rfl⟩
  | .read p dst n killed, ⟨hn, hk, hdst⟩ => by
    subst hn hk
    simp only [Sys.step]
    split
    · exact hs.readSection hκ0 p hdst
    · exact ⟨⟨q, hs⟩, Or.inl rfl⟩
  | .wake p killed, hk => by
    subst hk
    simp only [Sys.step]
    split
    · rename_i src n i hc
      obtain ⟨rfl, rfl, hsrc⟩ := hs.asleep p _ hc
      exact ⟨hs.writeSection hκ hκ0 p hsrc, Or.inl rfl⟩
    · rename_i dst n hc
      obtain ⟨rfl, hdst⟩ := hs.asleep p _ hc
      exact hs.readSection hκ0 p hdst
    · exact ⟨⟨q, hs⟩, Or.inl rfl⟩
  | .close writable, _ => ⟨⟨q, hs.close writable⟩, Or.inl rfl⟩

theorem run_framed (hκ : κ ∣ PIPESIZE) (hκ0 : 0 < κ) {es : List (Event ι)}
    (hes : ∀ e ∈ es, e.Uniform κ) : ∃ q, Framed κ (run init es) q :=
  AtomicRun.run_of_forall_mem (fun s => ∃ q, Framed κ s q) ⟨[], Framed.init κ⟩
    (fun e he _ ⟨_, hs⟩ => (hs.step hκ hκ0 e (hes e he)).1)

end Framed

/-- A section of `piperead` on an empty pipe whose write end is closed returns 0 at once. -/
theorem readSection_closed (s : Sys ι) (p : ι) (dst : ℕ → Bool) (n : ℕ)
    (he : s.pipe.empty = true) (hw : s.pipe.writeopen = false) :
    (s.readSection p dst n false).got = s.got ++ [(0, [])] := by
  have hloop : readLoop dst n 0 s.pipe = (s.pipe, 0, []) := by
    cases n <;> simp [readLoop, he]
  have hr : piperead dst n false s.pipe = (s.pipe, .ret 0 []) := by
    simp [piperead, he, hw, hloop]
  simp [Sys.readSection, hr]

/-- A step runs a section of `piperead` when it starts the call in an idle process or wakes a
process asleep in it. -/
theorem step_read {s : Sys ι} {e : Event ι} {p : ι} {dst : ℕ → Bool} {n : ℤ} {killed : Bool}
    (h : s.call p = none ∧ e = .read p dst n killed ∨
      s.call p = some (.read dst n) ∧ e = .wake p killed) :
    step e s = s.readSection p dst n killed := by
  rcases h with ⟨hc, rfl⟩ | ⟨hc, rfl⟩ <;> simp [Sys.step, hc]

/-- Records are never split: when every `pipewrite` and `piperead` moves `κ` bytes, `κ` divides
`PIPESIZE`, and no copy faults and no process is killed, then from every state of every run,
each `piperead` that returns returns `κ` bytes that are the next record written, whole, or
returns 0 from an empty pipe whose write end is closed. A section of `piperead` on a pipe
holding a record returns it, and one on an empty pipe whose write end is closed returns 0. -/
theorem pipe_records_whole {κ : ℕ} (hκ : κ ∣ PIPESIZE) (hκ0 : 0 < κ) {es : List (Event ι)}
    (hes : ∀ e ∈ es, e.Uniform κ) {e : Event ι} (he : e.Uniform κ) :
    Delivers κ (run init es) (step e (run init es)) ∧
      ∀ (p : ι) (dst : ℕ → Bool), (∀ j < κ, dst j = true) →
        ((run init es).call p = none ∧ e = .read p dst κ false ∨
          (run init es).call p = some (.read dst κ) ∧ e = .wake p false) →
        (κ ≤ (run init es).pipe.count →
          ∃ r, (step e (run init es)).got = (run init es).got ++ [((κ : ℤ), r)] ∧
            records ((run init es).got.map Prod.snd) ++ [r] <+: records (run init es).sent) ∧
        ((run init es).pipe.empty = true → (run init es).pipe.writeopen = false →
          (step e (run init es)).got = (run init es).got ++ [(0, [])]) := by
  obtain ⟨q, hq⟩ := run_framed hκ hκ0 hes
  refine ⟨(hq.step hκ hκ0 e he).2, fun p dst hdst hread => ?_⟩
  rw [step_read hread]
  exact ⟨hq.readSection_record hκ0 p hdst, readSection_closed _ p dst κ⟩

theorem pipe_records_whole_four :
    ∃ r, (step (.read 1 (fun _ => true) 4 false)
        (run (init : Sys (Fin 2)) [.write 0 (fun _ => some 7) 4 false])).got =
        (run (init : Sys (Fin 2)) [.write 0 (fun _ => some 7) 4 false]).got ++ [((4 : ℤ), r)] ∧
      records ((run (init : Sys (Fin 2)) [.write 0 (fun _ => some 7) 4 false]).got.map Prod.snd) ++
        [r] <+: records (run (init : Sys (Fin 2)) [.write 0 (fun _ => some 7) 4 false]).sent :=
  (((@pipe_records_whole (Fin 2) _ 4 (by decide) (by decide) [.write 0 (fun _ => some 7) 4 false]
    (by decide) (.read 1 (fun _ => true) 4 false) (by decide)).2 1 (fun _ => true)
    (fun _ _ => rfl) (Or.inl ⟨rfl, rfl⟩)).1 (by decide))

end Sys

end Xv6
