import Xv6.Lib.Run
import Xv6.Param

/-!
# The on-disk log: commit, recovery and crash atomicity (`kernel/log.c`)

The log occupies blocks `[log.start, log.start + log.size)`: the header block `log.start`
and the slots `log.start + tail + 1`. `commit` issues single-block writes in a fixed order:

* `write_log`: slot `tail` gets the cached contents of block `lh.block[tail]`;
* `write_head`: the header gets `lh` (the commit point);
* `install_trans`: each home block gets the contents of its slot;
* `write_head` with `n = 0`: the log is erased.

`recover_from_log` reads the header, installs what it names and erases it. A crash may cut
either of them after any number of writes; the disk is what the writes issued so far made it.

The disk is `Disk α`: the header block, decoded (`struct logheader`), and the contents of
every other block, of an arbitrary type `α`. Reads of a slot read the disk: the log only
ever `bwrite`s the buffers it fills, so the cache and the disk agree on the slots.

* `recover_commit_crash`: for every transaction whose blocks lie outside the log region
  and every crash point of `commit`, followed by any number of recoveries each cut after any
  number of writes and one recovery that completes, the disk agrees outside the log region
  with the disk before the transaction or with the disk after it, and its header says the
  log is empty.

The proof follows the disk through three kinds of state (`Uncommitted`, `Committed`,
`Installed`), each closed under crashed recoveries.
-/

namespace Xv6

open AtomicRun

/-- The log header (`struct logheader`): the number of logged blocks and their home
block numbers. -/
structure LogHeader where
  n : ℕ
  block : ℕ → ℕ

/-- The disk as the log code sees it: the header block `log.start`, decoded, and the
contents of every other block. -/
structure Disk (α : Type*) where
  head : LogHeader
  blk : ℕ → α

/-- A single-block disk write (`bwrite`), the unit a crash cannot split. -/
inductive DiskWrite (α : Type*) where
  /-- Write `v` to block `b`. -/
  | put (b : ℕ) (v : α)
  /-- Write to block `dst` what block `src` holds (`memmove` from a buffer read from disk). -/
  | copy (src dst : ℕ)
  /-- `write_head` of the in-memory header `lh`. -/
  | head (lh : LogHeader)

variable {α : Type*}

/-- The header block after `write_head` of `lh` over `hb`: `hb->n = log.lh.n` and the
entries below it are copied; the other entries keep what the block held. -/
def headOf (lh hb : LogHeader) : LogHeader :=
  { n := lh.n, block := fun i => if i < lh.n then lh.block i else hb.block i }

namespace DiskWrite

/-- The effect of one write on the disk. -/
def exec : DiskWrite α → Disk α → Disk α
  | put b v, d => { d with blk := Function.update d.blk b v }
  | copy src dst, d => { d with blk := Function.update d.blk dst (d.blk src) }
  | head lh, d => { d with head := headOf lh d.head }

@[simp] theorem exec_put_head (b : ℕ) (v : α) (d : Disk α) : (exec (put b v) d).head = d.head :=
  rfl

@[simp] theorem exec_put_blk (b : ℕ) (v : α) (d : Disk α) :
    (exec (put b v) d).blk = Function.update d.blk b v := rfl

@[simp] theorem exec_copy_head (src dst : ℕ) (d : Disk α) :
    (exec (copy src dst) d).head = d.head := rfl

@[simp] theorem exec_copy_blk (src dst : ℕ) (d : Disk α) :
    (exec (copy src dst) d).blk = Function.update d.blk dst (d.blk src) := rfl

@[simp] theorem exec_head_head (lh : LogHeader) (d : Disk α) :
    (exec (head lh) d).head = headOf lh d.head := rfl

@[simp] theorem exec_head_blk (lh : LogHeader) (d : Disk α) : (exec (head lh) d).blk = d.blk :=
  rfl

end DiskWrite

/-- The disk after the writes `ws`. -/
abbrev Disk.run (d : Disk α) (ws : List (DiskWrite α)) : Disk α := AtomicRun.run DiskWrite.exec d ws

/-! ### The code -/

/-- `write_log`: slot `tail` gets the cached contents of the block it logs. -/
def writeLog (start : ℕ) (lh : LogHeader) (cache : ℕ → α) : List (DiskWrite α) :=
  (List.range lh.n).map fun tail => .put (start + tail + 1) (cache (lh.block tail))

/-- `install_trans`: each home block gets the contents of its slot. (Its `recovering`
argument only decides whether the buffer is unpinned, which the disk does not see.) -/
def installTrans (start : ℕ) (lh : LogHeader) : List (DiskWrite α) :=
  (List.range lh.n).map fun tail => .copy (start + tail + 1) (lh.block tail)

/-- `commit`: the disk writes it issues, in order. -/
def commit (start : ℕ) (lh : LogHeader) (cache : ℕ → α) : List (DiskWrite α) :=
  if 0 < lh.n then
    writeLog start lh cache ++ [.head lh] ++ installTrans start lh ++ [.head { lh with n := 0 }]
  else []

/-- `read_head` at boot: the in-memory header (zero at boot) gets the on-disk count and the
entries below it. -/
def readHead (d : Disk α) : LogHeader :=
  { n := d.head.n, block := fun i => if i < d.head.n then d.head.block i else 0 }

/-- `recover_from_log`: the disk writes it issues on the disk it finds. -/
def recoverFromLog (start : ℕ) (d : Disk α) : List (DiskWrite α) :=
  installTrans start (readHead d) ++ [.head { readHead d with n := 0 }]

/-- A recovery that runs to its end. -/
def recover (start : ℕ) (d : Disk α) : Disk α := d.run (recoverFromLog start d)

/-- Recoveries cut off after `k₁`, `k₂`, … of their writes, one after the other. -/
def crashedRecoveries (start : ℕ) (d : Disk α) : List ℕ → Disk α
  | [] => d
  | k :: ks => crashedRecoveries start (d.run ((recoverFromLog start d).take k)) ks

/-! ### What the log is for -/

/-- Block `b` lies outside the log region `[start, start + size)`. -/
def OutsideLog (start size b : ℕ) : Prop := b < start ∨ start + size ≤ b

instance (start size b : ℕ) : Decidable (OutsideLog start size b) :=
  inferInstanceAs (Decidable (_ ∨ _))

/-- `b` is one of the blocks the header `lh` logs. -/
def InTxn (lh : LogHeader) (b : ℕ) : Prop := ∃ i < lh.n, lh.block i = b

instance (lh : LogHeader) : DecidablePred (InTxn lh) :=
  fun b => inferInstanceAs (Decidable (∃ i < lh.n, lh.block i = b))

/-- The home contents `f` with the transaction's blocks replaced by their logged contents. -/
def installed (lh : LogHeader) (cache : ℕ → α) (f : ℕ → α) : ℕ → α :=
  fun b => if InTxn lh b then cache b else f b

/-- `d` agrees with `f` outside the log region. -/
def AgreeOutside (start size : ℕ) (d : Disk α) (f : ℕ → α) : Prop :=
  ∀ b, OutsideLog start size b → d.blk b = f b

/-! ### Lemmas about the write lists -/

theorem mem_writeLog {start : ℕ} {lh : LogHeader} {cache : ℕ → α} {w : DiskWrite α}
    (hw : w ∈ writeLog start lh cache) :
    ∃ i < lh.n, w = .put (start + i + 1) (cache (lh.block i)) := by
  obtain ⟨i, hi, rfl⟩ := List.mem_map.1 hw
  exact ⟨i, List.mem_range.1 hi, rfl⟩

theorem mem_installTrans {start : ℕ} {lh : LogHeader} {w : DiskWrite α}
    (hw : w ∈ installTrans start lh) : ∃ i < lh.n, w = .copy (start + i + 1) (lh.block i) := by
  obtain ⟨i, hi, rfl⟩ := List.mem_map.1 hw
  exact ⟨i, List.mem_range.1 hi, rfl⟩

/-- `install_trans` reads only the entries below `n`. -/
theorem installTrans_congr (start : ℕ) {h₁ h₂ : LogHeader} (hn : h₁.n = h₂.n)
    (hb : ∀ i < h₁.n, h₁.block i = h₂.block i) :
    installTrans (α := α) start h₁ = installTrans start h₂ := by
  unfold installTrans
  rw [← hn]
  exact List.map_congr_left fun i hi => by rw [hb i (List.mem_range.1 hi)]

theorem installTrans_of_n_eq_zero (start : ℕ) {lh : LogHeader} (h : lh.n = 0) :
    installTrans (α := α) start lh = [] := by
  simp [installTrans, h]

@[simp] theorem readHead_n (d : Disk α) : (readHead d).n = d.head.n := rfl

theorem readHead_block {d : Disk α} {i : ℕ} (hi : i < d.head.n) :
    (readHead d).block i = d.head.block i := if_pos hi

/-- A recovery on a disk whose header says the log is empty only erases the header. -/
theorem recoverFromLog_of_empty (start : ℕ) {d : Disk α} (h : d.head.n = 0) :
    recoverFromLog start d = [.head { readHead d with n := 0 }] := by
  rw [recoverFromLog, installTrans_of_n_eq_zero start (by simpa using h), List.nil_append]

/-! ### The three kinds of disk -/

section Crash

variable (start size : ℕ) (lh : LogHeader) (cache : ℕ → α) (d₀ : Disk α)

/-- Before the commit point: the header says the log is empty and the home blocks are the
old ones (the slots may hold anything). -/
def Uncommitted (d : Disk α) : Prop := d.head.n = 0 ∧ AgreeOutside start size d d₀.blk

/-- Between the commit point and the end of installation: the header names the
transaction, the slots hold its contents, and every other home block is the old one. -/
structure Committed (d : Disk α) : Prop where
  n_eq : d.head.n = lh.n
  block_eq : ∀ i < lh.n, d.head.block i = lh.block i
  slot_eq : ∀ i < lh.n, d.blk (start + i + 1) = cache (lh.block i)
  home_eq : ∀ b, OutsideLog start size b → ¬ InTxn lh b → d.blk b = d₀.blk b

/-- After installation: the header says the log is empty and the home blocks are the new
ones. -/
def Installed (d : Disk α) : Prop :=
  d.head.n = 0 ∧ AgreeOutside start size d (installed lh cache d₀.blk)

/-- The disks a crash may leave. -/
def Recoverable (d : Disk α) : Prop :=
  Uncommitted start size d₀ d ∨ Committed start size lh cache d₀ d ∨
    Installed start size lh cache d₀ d

variable {start size lh cache d₀}

/-- A slot of the transaction lies inside the log region. -/
theorem slot_not_outside (hroom : lh.n < size) {i : ℕ} (hi : i < lh.n) :
    ¬ OutsideLog start size (start + i + 1) := by
  unfold OutsideLog; omega

/-- Writing a slot changes nothing outside the log region. -/
theorem agreeOutside_put_slot {f : ℕ → α} {d : Disk α} {s : ℕ} (hs : ¬ OutsideLog start size s)
    (v : α) (h : AgreeOutside start size d f) :
    AgreeOutside start size (DiskWrite.exec (.put s v) d) f := by
  intro b hb
  have hbs : b ≠ s := by rintro rfl; exact hs hb
  simp [Function.update_of_ne hbs, h b hb]

/-- Erasing the header keeps the disk's blocks; on a disk whose header is already empty it
changes nothing the invariants see. -/
theorem uncommitted_erase {d : Disk α} (h : Uncommitted start size d₀ d) {h' : LogHeader}
    (h'n : h'.n = 0) : Uncommitted start size d₀ (DiskWrite.exec (.head h') d) :=
  ⟨h'n, h.2⟩

theorem installed_erase_of_installed {d : Disk α} (h : Installed start size lh cache d₀ d)
    {h' : LogHeader} (h'n : h'.n = 0) :
    Installed start size lh cache d₀ (DiskWrite.exec (.head h') d) :=
  ⟨h'n, h.2⟩

/-! ### `commit`, phase by phase -/

/-- After the first `m` writes of `write_log`, the first `m` slots hold the cached contents. -/
theorem writeLog_slot (d : Disk α) {m : ℕ} {i : ℕ} (hi : i < m) :
    (d.run ((List.range m).map fun tail => .put (start + tail + 1) (cache (lh.block tail)))).blk
      (start + i + 1) = cache (lh.block i) := by
  induction m with
  | zero => omega
  | succ m ih =>
    rw [Disk.run, run_range_succ, DiskWrite.exec_put_blk]
    rcases Nat.lt_succ_iff_lt_or_eq.1 hi with hi | rfl
    · rw [Function.update_of_ne (by omega)]
      exact ih hi
    · exact Function.update_self ..

/-- The commit point: the header written over a completed `write_log`. -/
theorem committed_head {d : Disk α} (h : Uncommitted start size d₀ d)
    (hslot : ∀ i < lh.n, d.blk (start + i + 1) = cache (lh.block i)) :
    Committed start size lh cache d₀ (DiskWrite.exec (.head lh) d) where
  n_eq := rfl
  block_eq _ hi := if_pos hi
  slot_eq := hslot
  home_eq b hb _ := h.2 b hb

/-- Erasing the header after a complete installation. -/
theorem installed_erase {d : Disk α} (h : Committed start size lh cache d₀ d)
    (hinst : ∀ i < lh.n, d.blk (lh.block i) = cache (lh.block i)) {h' : LogHeader}
    (h'n : h'.n = 0) : Installed start size lh cache d₀ (DiskWrite.exec (.head h') d) := by
  refine ⟨h'n, fun b hb => ?_⟩
  simp only [DiskWrite.exec_head_blk, installed]
  split_ifs with hT
  · obtain ⟨i, hi, rfl⟩ := hT
    exact hinst i hi
  · exact h.home_eq b hb hT

/-- Recovery on a committed disk installs exactly the transaction. -/
theorem recoverFromLog_committed {d : Disk α} (h : Committed start size lh cache d₀ d) :
    recoverFromLog start d = installTrans start lh ++ [.head { readHead d with n := 0 }] := by
  have hn : (readHead d).n = lh.n := by simpa using h.n_eq
  rw [recoverFromLog, installTrans_congr start hn fun i hi => ?_]
  have hi' : i < d.head.n := by simpa using hi
  rw [readHead_block hi']
  exact h.block_eq i (h.n_eq ▸ hi')

variable (hroom : lh.n < size) (hout : ∀ i < lh.n, OutsideLog start size (lh.block i))
include hroom

/-- `write_log` keeps the header empty and the home blocks old. -/
theorem uncommitted_writeLog {d : Disk α} (h : Uncommitted start size d₀ d) :
    ∀ w ∈ writeLog start lh cache, Uncommitted start size d₀ (DiskWrite.exec w d) := by
  intro w hw
  obtain ⟨i, hi, rfl⟩ := mem_writeLog hw
  exact ⟨h.1, agreeOutside_put_slot (slot_not_outside hroom hi) _ h.2⟩

include hout

/-- One write of `install_trans` keeps the disk committed. -/
theorem committed_copy {d : Disk α} (h : Committed start size lh cache d₀ d) {i : ℕ}
    (hi : i < lh.n) :
    Committed start size lh cache d₀ (DiskWrite.exec (.copy (start + i + 1) (lh.block i)) d) where
  n_eq := h.n_eq
  block_eq := h.block_eq
  slot_eq j hj := by
    -- a slot is inside the log region, a home block outside it
    have hne : start + j + 1 ≠ lh.block i := by
      intro he
      exact slot_not_outside hroom hj (he ▸ hout i hi)
    rw [DiskWrite.exec_copy_blk, Function.update_of_ne hne]
    exact h.slot_eq j hj
  home_eq b hb hnot := by
    have hne : b ≠ lh.block i := by
      rintro rfl
      exact hnot ⟨i, hi, rfl⟩
    rw [DiskWrite.exec_copy_blk, Function.update_of_ne hne]
    exact h.home_eq b hb hnot

/-- After the first `m` writes of `install_trans` the disk is still committed, and the first
`m` home blocks hold the logged contents. This is also why a recovery may be cut and run
again: re-installing a block writes the same contents. -/
theorem installTrans_prefix {d : Disk α} (h : Committed start size lh cache d₀ d) {m : ℕ}
    (hm : m ≤ lh.n) :
    Committed start size lh cache d₀
        (d.run ((List.range m).map fun tail => .copy (start + tail + 1) (lh.block tail))) ∧
      ∀ i < m, (d.run ((List.range m).map fun tail => .copy (start + tail + 1) (lh.block tail))).blk
        (lh.block i) = cache (lh.block i) := by
  induction m with
  | zero => exact ⟨h, fun i hi => absurd hi (Nat.not_lt_zero i)⟩
  | succ m ih =>
    obtain ⟨hc, hinst⟩ := ih (by omega)
    rw [Disk.run, run_range_succ]
    refine ⟨committed_copy hroom hout hc (by omega), fun i hi => ?_⟩
    rw [DiskWrite.exec_copy_blk]
    by_cases heq : lh.block i = lh.block m
    · rw [heq, Function.update_self]
      exact hc.slot_eq m (by omega)
    · have him : i ≠ m := by rintro rfl; exact heq rfl
      rw [Function.update_of_ne heq]
      exact hinst i (by omega)

/-- A whole `install_trans` over a committed disk installs every block of the transaction. -/
theorem installTrans_all {d : Disk α} (h : Committed start size lh cache d₀ d) :
    Committed start size lh cache d₀ (d.run (installTrans start lh)) ∧
      ∀ i < lh.n, (d.run (installTrans start lh)).blk (lh.block i) = cache (lh.block i) :=
  installTrans_prefix hroom hout h le_rfl

/-! ### Recovery -/

/-- A recovery cut after any number of its writes leaves a recoverable disk. -/
theorem recoverable_recover_take {d : Disk α} (h : Recoverable start size lh cache d₀ d) (k : ℕ) :
    Recoverable start size lh cache d₀ (d.run ((recoverFromLog start d).take k)) := by
  rcases h with hu | hc | hi
  · -- the header is empty: recovery only erases it again
    rw [recoverFromLog_of_empty start hu.1]
    exact forall_run_take_singleton (Recoverable start size lh cache d₀) (.inl hu)
      (.inl (uncommitted_erase hu rfl)) k
  · obtain ⟨hc', hinst⟩ := installTrans_all hroom hout hc
    have hins : ∀ k, Recoverable start size lh cache d₀ (d.run ((installTrans start lh).take k)) :=
      fun k => .inr (.inl (run_take_of_forall_mem _ hc (fun w hw t ht => by
        obtain ⟨i, hi, rfl⟩ := mem_installTrans hw
        exact committed_copy hroom hout ht hi) k))
    have hend : ∀ k, Recoverable start size lh cache d₀
        ((d.run (installTrans start lh)).run ([.head { readHead d with n := 0 }].take k)) :=
      forall_run_take_singleton (Recoverable start size lh cache d₀) (.inr (.inl hc'))
        (.inr (.inr (installed_erase hc' hinst rfl)))
    rw [recoverFromLog_committed hc]
    exact forall_run_take_append _ hins hend k
  · rw [recoverFromLog_of_empty start hi.1]
    exact forall_run_take_singleton (Recoverable start size lh cache d₀) (.inr (.inr hi))
      (.inr (.inr (installed_erase_of_installed hi rfl))) k

/-- A recovery that completes leaves the header empty and the home blocks old or new. -/
theorem recover_of_recoverable {d : Disk α} (h : Recoverable start size lh cache d₀ d) :
    Uncommitted start size d₀ (recover start d) ∨ Installed start size lh cache d₀ (recover start d) := by
  rcases h with hu | hc | hi
  · left
    rw [recover, recoverFromLog_of_empty start hu.1]
    exact uncommitted_erase hu rfl
  · right
    obtain ⟨hc', hinst⟩ := installTrans_all hroom hout hc
    rw [recover, recoverFromLog_committed hc]
    simp only [Disk.run, run_append, run_singleton]
    exact installed_erase hc' hinst rfl
  · right
    rw [recover, recoverFromLog_of_empty start hi.1]
    exact installed_erase_of_installed hi rfl

/-- Any number of crashed recoveries leave a recoverable disk. -/
theorem recoverable_crashedRecoveries {d : Disk α} (h : Recoverable start size lh cache d₀ d)
    (ks : List ℕ) : Recoverable start size lh cache d₀ (crashedRecoveries start d ks) := by
  induction ks generalizing d with
  | nil => exact h
  | cons k ks ih => exact ih (recoverable_recover_take hroom hout h k)

/-- Every crash point of `commit`, on a disk whose log is empty, leaves a recoverable disk. -/
theorem recoverable_commit_take (hclean : d₀.head.n = 0) (k : ℕ) :
    Recoverable start size lh cache d₀ (d₀.run ((commit start lh cache).take k)) := by
  have h₀ : Uncommitted start size d₀ d₀ := ⟨hclean, fun _ _ => rfl⟩
  unfold commit
  split_ifs with hn
  swap
  · exact .inl (by simpa [Disk.run] using h₀)
  -- the disk after each phase
  have hu₁ : Uncommitted start size d₀ (d₀.run (writeLog start lh cache)) :=
    run_of_forall_mem _ h₀ fun w hw t ht => uncommitted_writeLog hroom ht w hw
  have hc₂ : Committed start size lh cache d₀
      (DiskWrite.exec (.head lh) (d₀.run (writeLog start lh cache))) :=
    committed_head hu₁ fun i hi => writeLog_slot d₀ hi
  obtain ⟨hc₃, hinst⟩ := installTrans_all hroom hout hc₂
  -- the crash prefixes, phase by phase
  have hwl : ∀ k, Recoverable start size lh cache d₀
      (d₀.run ((writeLog start lh cache).take k)) := fun k =>
    .inl (run_take_of_forall_mem _ h₀ (fun w hw t ht => uncommitted_writeLog hroom ht w hw) k)
  have hhd : ∀ k, Recoverable start size lh cache d₀
      ((d₀.run (writeLog start lh cache)).run ([.head lh].take k)) :=
    forall_run_take_singleton (Recoverable start size lh cache d₀) (.inl hu₁) (.inr (.inl hc₂))
  have hins : ∀ k, Recoverable start size lh cache d₀
      ((d₀.run (writeLog start lh cache ++ [.head lh])).run ((installTrans start lh).take k)) := by
    intro k
    simp only [Disk.run, run_append, run_singleton]
    refine .inr (.inl (run_take_of_forall_mem _ hc₂ (fun w hw t ht => ?_) k))
    obtain ⟨i, hi, rfl⟩ := mem_installTrans hw
    exact committed_copy hroom hout ht hi
  have hend : ∀ k, Recoverable start size lh cache d₀
      ((d₀.run (writeLog start lh cache ++ [.head lh] ++ installTrans start lh)).run
        ([.head { lh with n := 0 }].take k)) := by
    simp only [Disk.run, run_append, run_singleton]
    exact forall_run_take_singleton (Recoverable start size lh cache d₀) (.inr (.inl hc₃))
      (.inr (.inr (installed_erase hc₃ hinst rfl)))
  exact forall_run_take_append _ (forall_run_take_append _ (forall_run_take_append _ hwl hhd) hins)
    hend k

end Crash

/-- **Crash atomicity of the log.** Take a transaction whose blocks lie outside the log
region and fit in its slots, on a disk whose log is empty. Cut `commit` after any number
`k` of its writes, then run recoveries cut after `k₁`, `k₂`, … writes, and one recovery to
its end: the header says the log is empty, and outside the log region the disk is the
disk before the transaction or the disk with every block of the transaction replaced by its
logged contents. -/
theorem recover_commit_crash (start size : ℕ) (lh : LogHeader) (cache : ℕ → α) (d₀ : Disk α)
    (hclean : d₀.head.n = 0) (hroom : lh.n < size)
    (hout : ∀ i < lh.n, OutsideLog start size (lh.block i)) (k : ℕ) (ks : List ℕ) :
    let d := recover start (crashedRecoveries start (d₀.run ((commit start lh cache).take k)) ks)
    d.head.n = 0 ∧
      (AgreeOutside start size d d₀.blk ∨ AgreeOutside start size d (installed lh cache d₀.blk)) := by
  intro d
  have h : Recoverable start size lh cache d₀
      (crashedRecoveries start (d₀.run ((commit start lh cache).take k)) ks) :=
    recoverable_crashedRecoveries hroom hout (recoverable_commit_take hroom hout hclean k) ks
  rcases recover_of_recoverable hroom hout h with h | h
  · exact ⟨h.1, .inl h.2⟩
  · exact ⟨h.1, .inr h.2⟩

/-- One block, home block 40, logged with the log at blocks 2 to 31, committed over a zero
disk, cut after three writes, then a recovery cut after one write and one that completes. -/
theorem recover_commit_crash_one_block :
    (⟨⟨0, fun _ => 0⟩, fun _ => 0⟩ : Disk ℕ).head.n = 0 ∧ (⟨1, fun _ => 40⟩ : LogHeader).n < 30 ∧
      (∀ i < (⟨1, fun _ => 40⟩ : LogHeader).n,
        OutsideLog 2 30 ((⟨1, fun _ => 40⟩ : LogHeader).block i)) ∧
      let d := recover 2 (crashedRecoveries 2 ((⟨⟨0, fun _ => 0⟩, fun _ => 0⟩ : Disk ℕ).run
        ((commit 2 ⟨1, fun _ => 40⟩ (fun b => b + 7)).take 3)) [1])
      d.head.n = 0 ∧ (AgreeOutside 2 30 d (fun _ => 0) ∨
        AgreeOutside 2 30 d (installed ⟨1, fun _ => 40⟩ (fun b => b + 7) (fun _ => 0))) :=
  ⟨rfl, by decide, by decide, recover_commit_crash 2 30 _ _ _ rfl (by decide) (by decide) 3 [1]⟩

end Xv6
