import Mathlib

/-!
# System-call tracing (`kernel/syscall.c`, `kernel/sysproc.c`)

`trace(mask)` stores its `int` argument in `p->mask`, and `fork` copies the parent's mask to the
child, as its last statement, after the child was made `RUNNABLE`. After each system call with a handler, `syscall()` prints
`<pid>: syscall <name> -> <value>` when `p->mask > 0` and either `p->mask == 2147483647` or
`1 << num == p->mask`. The name comes from `syscall_names[]`, which stops at `SYS_trace`, one
entry short of `syscalls[]`.

* `syscall_of_handler`: what `syscall()` prints after a handler, as the test it makes (`traced`);
* `traced_all`, `traced_bit`: the test is the bit test for the mask of every call and for the
  masks of one bit below the sign;
* `trace_mask_counterexample`: a mask of two bits, or with the sign bit, prints nothing for a
  call whose bit it has; `sysinfo` is traced with a name read past `syscall_names[]`; and a child
  that runs before `fork` copies the mask is traced by the mask its slot's last owner left.
-/

namespace Xv6.Syscall

/-- `NELEM(syscalls)`: `syscalls[]` is indexed up to `SYS_sysinfo = 23`, each entry from
`SYS_fork = 1` on set. -/
def NELEM_syscalls : ℕ := 24

/-- `syscall_names[]`: entry `0` is null, and the entries stop at `SYS_trace = 22`. -/
def syscall_names : List (Option String) :=
  [none, some "fork", some "exit", some "wait", some "pipe", some "read", some "kill", some "exec",
    some "fstat", some "chdir", some "dup", some "getpid", some "sbrk", some "sleep",
    some "uptime", some "open", some "write", some "mknod", some "unlink", some "link",
    some "mkdir", some "close", some "trace"]

/-- What `%s` receives for `syscall_names[num]`: a name, a null entry, or a read past the
array. -/
inductive Name
  | str (s : String)
  | null
  | outside
  deriving DecidableEq

/-- `syscall_names[num]`. -/
def name (num : ℕ) : Name :=
  match syscall_names[num]? with
  | some (some s) => .str s
  | some none => .null
  | none => .outside

/-- A line `syscall()` prints. -/
inductive Output
  /-- `"%d: syscall %s -> %d\n"`, with `p->trapframe->a0` printed as an `int`. -/
  | trace (pid : ℤ) (name : Name) (ret : ℤ)
  /-- `"%d %s: unknown sys call %d\n"`. -/
  | unknown (pid : ℤ) (num : ℤ)
  deriving DecidableEq

/-- The fields of `struct proc` tracing reads: `pid` and the `int` `mask`. -/
structure Proc where
  pid : ℤ
  mask : BitVec 32

/-- `sys_trace()`: `argint(0, &n)` always succeeds, and `n` becomes the caller's mask. -/
def sys_trace (p : Proc) (n : BitVec 32) : Proc × ℤ := ({ p with mask := n }, 0)

/-- `fork()` up to `np->state = RUNNABLE`: `allocproc` gave the slot a pid, and the slot keeps
the mask of its last owner, which `freeproc` does not clear. From here the child may run on
another CPU. -/
def forkRunnable (slot : Proc) (pid : ℤ) : Proc := { slot with pid := pid }

/-- The last statement of `fork()`: `np->mask = p->mask`. -/
def forkMask (p np : Proc) : Proc := { np with mask := p.mask }

/-- The test `syscall()` makes on the mask for call number `num`. -/
def traced (mask : BitVec 32) (num : ℕ) : Bool :=
  decide (0 < mask.toInt) && (mask == 2147483647#32 || 1#32 <<< num == mask)

/-- `syscall()` for `p` with `a7 = num`, the handler (if any) having returned `ret` in `a0`. -/
def syscall (p : Proc) (num : ℤ) (ret : BitVec 64) : List Output :=
  if 0 < num ∧ num < NELEM_syscalls then
    if 0 < p.mask.toInt then
      if p.mask = 2147483647#32 then [.trace p.pid (name num.toNat) (ret.setWidth 32).toInt]
      else if 1#32 <<< num.toNat = p.mask then
        [.trace p.pid (name num.toNat) (ret.setWidth 32).toInt]
      else []
    else []
  else [.unknown p.pid num]

@[simp] theorem forkMask_mask (p np : Proc) : (forkMask p np).mask = p.mask := rfl

@[simp] theorem forkMask_pid (p np : Proc) : (forkMask p np).pid = np.pid := rfl

@[simp] theorem sys_trace_mask (p : Proc) (n : BitVec 32) : (sys_trace p n).1.mask = n := rfl

/-- After a handler, `syscall()` prints one trace line or none, as `traced` says. -/
theorem syscall_of_handler (p : Proc) {num : ℤ} (h₁ : 0 < num) (h₂ : num < NELEM_syscalls)
    (ret : BitVec 64) :
    syscall p num ret = if traced p.mask num.toNat
      then [.trace p.pid (name num.toNat) (ret.setWidth 32).toInt] else [] := by
  unfold syscall traced
  rw [if_pos ⟨h₁, h₂⟩]
  by_cases hpos : 0 < p.mask.toInt
  · by_cases hall : p.mask = 2147483647#32
    · simp [hall]
    · by_cases hbit : 1#32 <<< num.toNat = p.mask <;> simp [hpos, hall, hbit]
  · simp [hpos]

/-- Without a handler, `syscall()` prints only that the call is unknown. -/
theorem syscall_of_unknown (p : Proc) {num : ℤ} (h : ¬ (0 < num ∧ num < NELEM_syscalls))
    (ret : BitVec 64) : syscall p num ret = [.unknown p.pid num] := by
  rw [syscall, if_neg h]

/-! ### Where the test is the bit test -/

theorem toNat_one_shiftLeft {n : ℕ} (hn : n < 32) : (1#32 <<< n).toNat = 2 ^ n := by
  simp only [BitVec.toNat_shiftLeft, BitVec.toNat_ofNat, Nat.shiftLeft_eq, Nat.one_mod, one_mul]
  exact Nat.mod_eq_of_lt (Nat.pow_lt_pow_right (by decide) hn)

/-- The one-bit masks are distinct for the 32 bit positions. -/
theorem one_shiftLeft_inj {k n : ℕ} (hk : k < 32) (hn : n < 32) :
    1#32 <<< k = 1#32 <<< n ↔ k = n := by
  constructor
  · intro h
    have hv := congrArg BitVec.toNat h
    rw [toNat_one_shiftLeft hk, toNat_one_shiftLeft hn] at hv
    exact Nat.pow_right_injective (le_refl 2) hv
  · rintro rfl
    rfl

theorem getLsbD_one_shiftLeft {k n : ℕ} (hk : k < 32) :
    (1#32 <<< n).getLsbD k = decide (k = n) := by
  rw [BitVec.getLsbD_shiftLeft]
  by_cases hkn : k < n
  · simp [hkn, show k ≠ n by omega]
  · have : k - n = 0 ↔ k = n := by omega
    simp [hk, hkn, BitVec.getLsbD_one, this]

/-- The mask `2147483647` traces every call, and has every bit below the sign. -/
theorem traced_all {num : ℕ} (h : num < 31) :
    traced 2147483647#32 num = true ∧ (2147483647#32).getLsbD num = true := by
  refine ⟨by simp [traced], ?_⟩
  rw [BitVec.getLsbD_ofNat, show (2147483647 : ℕ) = 2 ^ 31 - 1 from rfl,
    Nat.testBit_two_pow_sub_one]
  simp only [Bool.and_eq_true, decide_eq_true_eq]
  omega

/-- For a mask of one bit below the sign, the test is the bit test. -/
theorem traced_bit {n k : ℕ} (hn : n < 31) (hk : k < 32) :
    traced (1#32 <<< n) k = (1#32 <<< n).getLsbD k := by
  have hv := toNat_one_shiftLeft (show n < 32 by omega)
  have hpow : 2 ^ n < 2 ^ 31 := Nat.pow_lt_pow_right (by decide) hn
  have hpos : 0 < (1#32 <<< n).toInt := by
    rw [BitVec.toInt_eq_toNat_cond, hv, if_pos (by omega)]
    exact_mod_cast Nat.two_pow_pos n
  -- `2147483647` is odd, and has more than one bit
  have hne : 1#32 <<< n ≠ 2147483647#32 := by
    intro h
    have := congrArg BitVec.toNat h
    rw [hv] at this
    cases n with
    | zero => simp at this
    | succ m =>
      rw [pow_succ] at this
      simp at this
      omega
  have hall : (1#32 <<< n == 2147483647#32) = false := by simpa using hne
  have hbit : (1#32 <<< k == 1#32 <<< n) = decide (k = n) := by
    rw [Bool.eq_iff_iff, beq_iff_eq, decide_eq_true_iff, one_shiftLeft_inj hk (by omega)]
  rw [traced, decide_eq_true hpos, hall, hbit, getLsbD_one_shiftLeft hk, Bool.true_and,
    Bool.false_or]

/-! ### Where it is not -/

/-- Where `syscall()` misses the bit test. A mask with the bits of `read` (5) and `write` (16),
and the mask `-1`, which has every bit, print nothing after a `read`; the mask `2147483647`
traces `sysinfo` (23), whose name lies past the end of `syscall_names[]`. And a process of mask
`0` that forks into a slot last used by a process of mask `2147483647`: the child, run on another
CPU before `fork` copies the mask, has its `getpid` (11) traced, which it is not once the copy
is done. -/
theorem trace_mask_counterexample :
    (0x10020#32).getLsbD 5 = true ∧ syscall ⟨3, 0x10020#32⟩ 5 0 = [] ∧
    (-1 : BitVec 32).getLsbD 5 = true ∧ syscall ⟨3, -1⟩ 5 0 = [] ∧
    syscall ⟨3, 2147483647#32⟩ 23 0 = [.trace 3 .outside 0] ∧
    syscall (forkRunnable ⟨2, 2147483647#32⟩ 4) 11 4 = [.trace 4 (.str "getpid") 4] ∧
    syscall (forkMask ⟨3, 0⟩ (forkRunnable ⟨2, 2147483647#32⟩ 4)) 11 4 = [] := by
  decide

end Xv6.Syscall
