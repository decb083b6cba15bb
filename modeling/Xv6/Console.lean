import Mathlib
import Xv6.Lib.Ring
import Xv6.Lib.Run

/-!
# The console's line discipline (`kernel/console.c`)

Input characters arrive one at a time in `consoleintr`, which edits the current line and commits
it to the readers. The buffer is a ring of `INPUT_BUF` bytes with three free-running `uint`
indices: bytes from `r` to `w` are committed and not yet read, bytes from `w` to `e` are the line
being edited. `consoleread` holds the console's lock except while it sleeps on an empty buffer,
so each call is a sequence of critical sections, as for pipes.

* `Cons`, `consoleintr`, `readLoop`/`consoleread`: the code;
* `Input`, `Input.intr`, `Input.read`: the line discipline on lists, the committed input not yet
  read and the line being edited;
* `Cons.Inv`, `Inv.intr`: through any wrap of the indices, `w - r ≤ e - r ≤ INPUT_BUF`;
  `Inv.consoleintr_view`: each input character does to the two windows of the ring what
  `Input.intr` does to the lists; `readLoop_view`: so does each section of `consoleread` with
  `Input.read`;
* `Input.read_line`, `Input.read_eof`, `Input.read_exact`: a read copies no `^D` and at most one
  line, `^D` ends a read, and with no fault it copies all it takes;
* `Sys`, `Sys.step`, `Sys.run`: input interleaved with the sections of any number of readers,
  with what each call returned and the input committed recorded alongside; `Sys.run_inv`,
  `Sys.run_exact`: the invariants over every run, and over the runs of one reader without faults;
* `console_line_discipline`, and `console_reads_counterexample`: a faulting `copyout` loses a
  byte, and two readers can return lines out of order.
-/

namespace Xv6.Console

/-- Size of the input buffer (`INPUT_BUF`). -/
def INPUT_BUF : ℕ := 128

instance : NeZero INPUT_BUF := ⟨by decide⟩

theorem INPUT_BUF_dvd : INPUT_BUF ∣ 2 ^ 32 := ⟨2 ^ 25, by decide⟩

theorem INPUT_BUF_lt : INPUT_BUF < 2 ^ 32 := by decide

/-- `C(x)`: control-`x`. -/
def C (x : Char) : UInt8 := x.toUInt8 - '@'.toUInt8

/-- The console's input state (`cons`); its lock is the atomicity of each function below. -/
structure Cons where
  buf : Fin INPUT_BUF → UInt8
  r : UInt32
  w : UInt32
  e : UInt32

/-- The console as `main` leaves it: indices zero, the buffer zeroed as all of `bss`. -/
def Cons.init : Cons := ⟨fun _ => 0, 0, 0, 0⟩

/-! ## `consoleintr` -/

/-- `cons.buf[cons.e++ % INPUT_BUF] = c`. -/
def Cons.put (s : Cons) (c : UInt8) : Cons :=
  { s with buf := Function.update s.buf (Ring.cell INPUT_BUF s.e.toNat) c, e := s.e + 1 }

/-- `cons.e--`. -/
def Cons.erase (s : Cons) : Cons := { s with e := s.e - 1 }

/-- The kill-line loop `while(cons.e != cons.w && cons.buf[(cons.e-1) % INPUT_BUF] != '\n')`,
for at most `k` more passes; each pass takes `e` one closer to `w`, so `consoleintr` gives it
`e - w` of them. -/
def killLine (s : Cons) : ℕ → Cons
  | 0 => s
  | k + 1 =>
    if s.e ≠ s.w ∧ s.buf (Ring.cell INPUT_BUF (s.e - 1).toNat) ≠ '\n'.toUInt8 then
      killLine s.erase k
    else s

/-- `consoleintr(c)`, leaving aside the echo to the uart and `procdump`. -/
def consoleintr (c : UInt8) (s : Cons) : Cons :=
  if c = C 'P' then s
  else if c = C 'U' then killLine s (s.e - s.w).toNat
  else if c = C 'H' ∨ c = '\x7f'.toUInt8 then
    if s.e ≠ s.w then s.erase else s
  else if c ≠ 0 ∧ (s.e - s.r).toNat < INPUT_BUF then
    let c := if c = '\r'.toUInt8 then '\n'.toUInt8 else c
    let s := s.put c
    if c = '\n'.toUInt8 ∨ c = C 'D' ∨ s.e = s.r + UInt32.ofNat INPUT_BUF then { s with w := s.e }
    else s
  else s

/-! ## `consoleread` -/

/-- `cons.r++`. -/
def Cons.take (s : Cons) : Cons := { s with r := s.r + 1 }

/-- How a section of `consoleread` ends: asleep on an empty buffer with `i` bytes copied, or
returning `v`. -/
inductive Exit
  | sleep (i : ℕ)
  | ret (v : ℤ)
  deriving DecidableEq

/-- `consoleread`'s loop `while(n > 0)` from its `i`th byte, for the `k` bytes left to read,
until it returns or sleeps. `dst j` says whether `either_copyout` to `dst + j` succeeds; the
list is the bytes copied out. -/
def readLoop (dst : ℕ → Bool) (killed : Bool) : ℕ → ℕ → Cons → Cons × List UInt8 × Exit
  | 0, i, s => (s, [], .ret i)
  | k + 1, i, s =>
    if s.r = s.w then (s, [], if killed then .ret (-1) else .sleep i)
    else
      let c := s.buf (Ring.cell INPUT_BUF s.r.toNat)
      if c = C 'D' then
        -- `cons.r--` keeps the `^D` for the next call when this one has data
        (if 0 < i then { s.take with r := s.take.r - 1 } else s.take, [], .ret i)
      else if dst i then
        if c = '\n'.toUInt8 then (s.take, [c], .ret (i + 1))
        else
          let res := readLoop dst killed k (i + 1) s.take
          (res.1, c :: res.2.1, res.2.2)
      else (s.take, [], .ret i)

/-- A critical section of `consoleread(user_dst, dst, n)`, entered with `i` bytes copied: at
the call (`i = 0`), or on waking from the sleep. It returns `target - n`, the bytes copied. -/
def consoleread (dst : ℕ → Bool) (killed : Bool) (n : ℤ) (i : ℕ) (s : Cons) :
    Cons × List UInt8 × Exit :=
  readLoop dst killed (n.toNat - i) i s

/-! ## The line discipline on lists -/

/-- The input as the line discipline keeps it: committed bytes not yet read, and the line being
edited. -/
structure Input where
  unread : List UInt8
  line : List UInt8

/-- What an input character does: `^U` kills the line and backspace erases its last character,
never touching committed input; any other character but NUL joins the line while the buffer has
room, `'\r'` as `'\n'`; a newline, `^D` or a full buffer commits the line. -/
def Input.intr (c : UInt8) (q : Input) : Input :=
  if c = C 'P' then q
  else if c = C 'U' then { q with line := [] }
  else if c = C 'H' ∨ c = '\x7f'.toUInt8 then { q with line := q.line.dropLast }
  else if c ≠ 0 ∧ q.unread.length + q.line.length < INPUT_BUF then
    let c := if c = '\r'.toUInt8 then '\n'.toUInt8 else c
    if c = '\n'.toUInt8 ∨ c = C 'D' ∨ q.unread.length + q.line.length + 1 = INPUT_BUF then
      ⟨q.unread ++ q.line ++ [c], []⟩
    else { q with line := q.line ++ [c] }
  else q

/-- What `c` commits: the line and the character, when `c` ends the line. -/
def Input.committed (c : UInt8) (q : Input) : List UInt8 :=
  if c ≠ C 'P' ∧ c ≠ C 'U' ∧ ¬(c = C 'H' ∨ c = '\x7f'.toUInt8) ∧ c ≠ 0 ∧
      q.unread.length + q.line.length < INPUT_BUF then
    let c := if c = '\r'.toUInt8 then '\n'.toUInt8 else c
    if c = '\n'.toUInt8 ∨ c = C 'D' ∨ q.unread.length + q.line.length + 1 = INPUT_BUF then
      q.line ++ [c]
    else []
  else []

/-- A section of `consoleread` on the committed input as a list: the input left, the bytes
copied and how the section ends. Bytes go out up to a newline, at most `k` of them; a `^D` ends
the read, and is taken only by a read that has copied nothing. -/
def Input.read (dst : ℕ → Bool) (killed : Bool) :
    ℕ → ℕ → List UInt8 → List UInt8 × List UInt8 × Exit
  | 0, i, q => (q, [], .ret i)
  | _ + 1, i, [] => ([], [], if killed then .ret (-1) else .sleep i)
  | k + 1, i, c :: q =>
    if c = C 'D' then (if 0 < i then c :: q else q, [], .ret i)
    else if dst i then
      if c = '\n'.toUInt8 then (q, [c], .ret (i + 1))
      else
        let res := Input.read dst killed k (i + 1) q
        (res.1, c :: res.2.1, res.2.2)
    else (q, [], .ret i)

namespace Input

/-- The committed input grows by what a character commits. -/
theorem intr_unread (c : UInt8) (q : Input) : (q.intr c).unread = q.unread ++ q.committed c := by
  unfold intr committed
  by_cases hP : c = C 'P'
  · rw [if_pos hP, if_neg (fun h => h.1 hP), List.append_nil]
  by_cases hU : c = C 'U'
  · rw [if_neg hP, if_pos hU, if_neg (fun h => h.2.1 hU), List.append_nil]
  by_cases hH : c = C 'H' ∨ c = '\x7f'.toUInt8
  · rw [if_neg hP, if_neg hU, if_pos hH, if_neg (fun h => h.2.2.1 hH), List.append_nil]
  rw [if_neg hP, if_neg hU, if_neg hH]
  by_cases hroom : c ≠ 0 ∧ q.unread.length + q.line.length < INPUT_BUF
  · have hc : c ≠ C 'P' ∧ c ≠ C 'U' ∧ ¬(c = C 'H' ∨ c = '\x7f'.toUInt8) ∧ c ≠ 0 ∧
        q.unread.length + q.line.length < INPUT_BUF := ⟨hP, hU, hH, hroom⟩
    rw [if_pos hroom, if_pos hc]
    generalize (if c = '\r'.toUInt8 then '\n'.toUInt8 else c) = c'
    dsimp only
    split_ifs
    · rw [List.append_assoc]
    · rw [List.append_nil]
  · have hc : ¬(c ≠ C 'P' ∧ c ≠ C 'U' ∧ ¬(c = C 'H' ∨ c = '\x7f'.toUInt8) ∧ c ≠ 0 ∧
        q.unread.length + q.line.length < INPUT_BUF) := fun h => hroom h.2.2.2
    rw [if_neg hroom, if_neg hc, List.append_nil]

/-- Backspace and kill-line leave the committed input and shorten the line. -/
theorem intr_erase {c : UInt8} (hc : c = C 'U' ∨ c = C 'H' ∨ c = '\x7f'.toUInt8) (q : Input) :
    (q.intr c).unread = q.unread ∧ (q.intr c).line <+: q.line := by
  unfold intr
  have hP : c ≠ C 'P' := by rcases hc with rfl | rfl | rfl <;> decide
  rw [if_neg hP]
  rcases hc with rfl | hH
  · exact ⟨rfl, List.nil_prefix⟩
  · rw [if_neg (by rcases hH with rfl | rfl <;> decide), if_pos hH]
    exact ⟨rfl, List.dropLast_prefix _⟩

variable {dst : ℕ → Bool} {killed : Bool}

/-- A section takes a prefix of the committed input, and copies out a prefix of what it
takes. -/
theorem read_prefix (k : ℕ) : ∀ (i : ℕ) (q : List UInt8),
    ∃ t, q = t ++ (read dst killed k i q).1 ∧ (read dst killed k i q).2.1 <+: t := by
  induction k with
  | zero => exact fun i q => ⟨[], rfl, List.nil_prefix⟩
  | succ k ih =>
    intro i q
    cases q with
    | nil => exact ⟨[], rfl, List.nil_prefix⟩
    | cons c q =>
      by_cases hD : c = C 'D'
      · rw [read, if_pos hD]
        split_ifs
        · exact ⟨[], rfl, List.nil_prefix⟩
        · exact ⟨[c], rfl, List.nil_prefix⟩
      rw [read, if_neg hD]
      cases dst i
      · exact ⟨[c], rfl, List.nil_prefix⟩
      by_cases hnl : c = '\n'.toUInt8
      · rw [if_pos rfl, if_pos hnl]
        exact ⟨[c], rfl, List.prefix_refl _⟩
      rw [if_pos rfl, if_neg hnl]
      obtain ⟨t, ht, hp⟩ := ih (i + 1) q
      exact ⟨c :: t, by rw [List.cons_append, ← ht], List.cons_prefix_cons.mpr ⟨rfl, hp⟩⟩

theorem not_mem_dropLast_cons {a c : UInt8} {l : List UInt8} (hc : c ≠ a)
    (hl : a ∉ l.dropLast) : a ∉ (c :: l).dropLast := by
  cases l with
  | nil => exact List.not_mem_nil
  | cons b l =>
    rw [List.dropLast_cons_cons]
    exact List.not_mem_cons_of_ne_of_not_mem (Ne.symm hc) hl

/-- A section copies no `^D`, and a newline only as its last byte; one that goes to sleep
copies no newline at all. -/
theorem read_line (k : ℕ) : ∀ (i : ℕ) (q : List UInt8),
    C 'D' ∉ (read dst killed k i q).2.1 ∧ '\n'.toUInt8 ∉ (read dst killed k i q).2.1.dropLast ∧
      ∀ j, (read dst killed k i q).2.2 = .sleep j → '\n'.toUInt8 ∉ (read dst killed k i q).2.1 := by
  induction k with
  | zero => intro i q; simp [read]
  | succ k ih =>
    intro i q
    cases q with
    | nil => simp [read]
    | cons c q =>
      by_cases hD : c = C 'D'
      · rw [read, if_pos hD]
        simp
      rw [read, if_neg hD]
      cases dst i
      · simp
      by_cases hnl : c = '\n'.toUInt8
      · rw [if_pos rfl, if_pos hnl, hnl]
        simp [show C 'D' ≠ '\n'.toUInt8 by decide]
      rw [if_pos rfl, if_neg hnl]
      obtain ⟨h₁, h₂, h₃⟩ := ih (i + 1) q
      exact ⟨List.not_mem_cons_of_ne_of_not_mem (Ne.symm hD) h₁, not_mem_dropLast_cons hnl h₂,
        fun j hj => List.not_mem_cons_of_ne_of_not_mem (Ne.symm hnl) (h₃ j hj)⟩

/-- When every `copyout` succeeds and the reader is not killed, a section copies out every byte
it takes but `^D`s, and returns or sleeps with the count of bytes copied. -/
theorem read_exact (hdst : ∀ j, dst j = true) (k : ℕ) : ∀ (i : ℕ) (q : List UInt8),
    (read dst false k i q).2.1 ++ (read dst false k i q).1.filter (· ≠ C 'D') =
        q.filter (· ≠ C 'D') ∧
      ((∃ j, (read dst false k i q).2.2 = .sleep j ∧ (read dst false k i q).1 = [] ∧
          j = i + (read dst false k i q).2.1.length) ∨
        (read dst false k i q).2.2 = .ret (i + (read dst false k i q).2.1.length)) := by
  induction k with
  | zero => intro i q; simp [read]
  | succ k ih =>
    intro i q
    cases q with
    | nil => simp [read]
    | cons c q =>
      by_cases hD : c = C 'D'
      · rw [read, if_pos hD]
        split_ifs <;> simp [hD]
      rw [read, if_neg hD, hdst, if_pos rfl]
      by_cases hnl : c = '\n'.toUInt8
      · rw [if_pos hnl]
        simp [hD]
      rw [if_neg hnl]
      obtain ⟨h₁, h₂⟩ := ih (i + 1) q
      refine ⟨?_, ?_⟩
      · rw [List.filter_cons_of_pos (by simpa using hD), List.cons_append, h₁]
      · rcases h₂ with ⟨j, hj, hr, rfl⟩ | h₂
        · exact Or.inl ⟨_, hj, hr, by simp; omega⟩
        · exact Or.inr (by rw [h₂]; simp; omega)

/-- `^D` ends a read: a section that reaches it with data returns the data and leaves the
`^D`, so that the next read returns 0; a section that starts on it returns 0 and takes it. -/
theorem read_eof (hdst : ∀ j, dst j = true) {pre rest : List UInt8} (hD : C 'D' ∉ pre)
    (hnl : '\n'.toUInt8 ∉ pre) (k : ℕ) (hk : pre.length < k) (i : ℕ) :
    read dst killed k i (pre ++ C 'D' :: rest) =
      (if 0 < i + pre.length then C 'D' :: rest else rest, pre, .ret (i + pre.length)) := by
  induction pre generalizing k i with
  | nil =>
    obtain ⟨k, rfl⟩ : ∃ k', k = k' + 1 := ⟨k - 1, by rw [List.length_nil] at hk; omega⟩
    simp [read]
  | cons c pre ih =>
    rw [List.length_cons] at hk
    obtain ⟨k, rfl⟩ : ∃ k', k = k' + 1 := ⟨k - 1, by omega⟩
    have hc : c ≠ C 'D' := fun h => hD (h ▸ List.mem_cons_self)
    have hc' : c ≠ '\n'.toUInt8 := fun h => hnl (h ▸ List.mem_cons_self)
    rw [List.cons_append, read, if_neg hc, hdst, if_pos rfl, if_neg hc',
      ih (fun h => hD (List.mem_cons_of_mem _ h)) (fun h => hnl (List.mem_cons_of_mem _ h)) k
        (by omega) (i + 1)]
    rw [List.length_cons, show i + 1 + pre.length = i + (pre.length + 1) by omega]
    dsimp only
    congr 3
    push_cast
    omega

end Input

/-! ## The ring's windows -/

namespace Cons

/-- The bytes from index `lo` up to index `hi`. -/
def window (s : Cons) (lo hi : UInt32) : List UInt8 :=
  Ring.window INPUT_BUF (2 ^ 32) s.buf lo.toNat hi.toNat

/-- The committed input not yet read. -/
def unread (s : Cons) : List UInt8 := s.window s.r s.w

/-- The line being edited. -/
def line (s : Cons) : List UInt8 := s.window s.w s.e

/-- The lists the ring holds. -/
def view (s : Cons) : Input := ⟨s.unread, s.line⟩

theorem dist_toNat (a b : UInt32) : Ring.dist (2 ^ 32) b.toNat a.toNat = (a - b).toNat :=
  (UInt32.toNat_sub a b).symm

@[simp] theorem length_window (s : Cons) (lo hi : UInt32) :
    (s.window lo hi).length = (hi - lo).toNat := by
  rw [window, Ring.length_window, dist_toNat]

theorem window_self (s : Cons) (x : UInt32) : s.window x x = [] :=
  Ring.window_self _ x.toNat_lt

/-- The indices split what is buffered into the committed input and the line. -/
theorem window_split (s : Cons) (h : (s.w - s.r).toNat ≤ (s.e - s.r).toNat) :
    s.window s.r s.e = s.unread ++ s.line := by
  rw [← dist_toNat, ← dist_toNat] at h
  exact Ring.window_append INPUT_BUF_dvd _ s.r.toNat_lt s.w.toNat_lt s.e.toNat_lt h

theorem toNat_add_one (x : UInt32) : (x + 1).toNat = (x.toNat + 1) % 2 ^ 32 := by
  rw [UInt32.toNat_add, UInt32.toNat_one]

theorem toNat_sub_one (x : UInt32) : (x - 1).toNat = (2 ^ 32 - 1 + x.toNat) % 2 ^ 32 := by
  rw [UInt32.toNat_sub, UInt32.toNat_one]

/-- Storing at `e`, below a full buffer, appends to what is buffered. -/
theorem window_put (s : Cons) (c : UInt8) (h : (s.e - s.r).toNat < INPUT_BUF) :
    (s.put c).window s.r (s.e + 1) = s.window s.r s.e ++ [c] := by
  rw [← dist_toNat] at h
  unfold window put
  rw [toNat_add_one]
  exact Ring.window_push INPUT_BUF_dvd INPUT_BUF_lt _ s.r.toNat_lt s.e.toNat_lt c h

/-- Taking the byte at `r`, when `w` is elsewhere. -/
theorem window_take (s : Cons) (lo hi : UInt32) (hne : lo ≠ hi) :
    s.window lo hi = s.buf (Ring.cell INPUT_BUF lo.toNat) :: s.window (lo + 1) hi := by
  unfold window
  rw [toNat_add_one]
  exact Ring.window_pop INPUT_BUF_dvd _ lo.toNat_lt hi.toNat_lt
    (fun h => hne (UInt32.toNat_inj.mp h))

/-- Moving `e` back, when `w` is elsewhere, drops the last byte of the line. -/
theorem window_erase (s : Cons) (lo hi : UInt32) (hne : lo ≠ hi) :
    s.window lo (hi - 1) = (s.window lo hi).dropLast := by
  unfold window
  rw [toNat_sub_one]
  exact Ring.window_dropLast _ lo.toNat_lt hi.toNat_lt (fun h => hne (UInt32.toNat_inj.mp h))

theorem window_last (s : Cons) (lo hi : UInt32) (hne : lo ≠ hi) :
    s.window lo hi = s.window lo (hi - 1) ++ [s.buf (Ring.cell INPUT_BUF (hi - 1).toNat)] := by
  unfold window
  rw [toNat_sub_one]
  exact Ring.window_last INPUT_BUF_dvd _ lo.toNat_lt hi.toNat_lt
    (fun h => hne (UInt32.toNat_inj.mp h))

/-! ### `uint` differences -/

theorem toNat_sub_ne_zero {a b : UInt32} (h : a ≠ b) : (a - b).toNat ≠ 0 := by
  have := a.toNat_lt
  have := b.toNat_lt
  have hne : a.toNat ≠ b.toNat := fun e => h (UInt32.toNat_inj.mp e)
  rw [UInt32.toNat_sub]
  omega

theorem toNat_add_one_sub {a b : UInt32} (h : (a - b).toNat + 1 < 2 ^ 32) :
    (a + 1 - b).toNat = (a - b).toNat + 1 := by
  have := a.toNat_lt
  have := b.toNat_lt
  simp only [UInt32.toNat_sub, UInt32.toNat_add, UInt32.toNat_one] at *
  omega

theorem toNat_sub_one_sub {a b : UInt32} (h : a ≠ b) : (a - 1 - b).toNat = (a - b).toNat - 1 := by
  have := toNat_sub_ne_zero h
  have := a.toNat_lt
  have := b.toNat_lt
  simp only [UInt32.toNat_sub, UInt32.toNat_one] at *
  omega

theorem toNat_sub_add_one {a b : UInt32} (h : b ≠ a) : (a - (b + 1)).toNat = (a - b).toNat - 1 := by
  have := toNat_sub_ne_zero (Ne.symm h)
  have := a.toNat_lt
  have := b.toNat_lt
  simp only [UInt32.toNat_sub, UInt32.toNat_add, UInt32.toNat_one] at *
  omega

/-! ### The invariant -/

/-- The invariant of the console: through any wrap of the indices `r ≤ w ≤ e ≤ r + INPUT_BUF`
as `uint` differences, and the line holds no newline, which would have committed it. -/
structure Inv (s : Cons) : Prop where
  w_le : (s.w - s.r).toNat ≤ (s.e - s.r).toNat
  e_le : (s.e - s.r).toNat ≤ INPUT_BUF
  no_newline : '\n'.toUInt8 ∉ s.line

theorem Inv.init : init.Inv := by
  refine ⟨le_rfl, by decide, ?_⟩
  show '\n'.toUInt8 ∉ Cons.init.window 0 0
  rw [window_self]
  exact List.not_mem_nil

/-- What is buffered is the committed input, then the line. -/
theorem Inv.length {s : Cons} (h : s.Inv) : s.unread.length + s.line.length = (s.e - s.r).toNat := by
  rw [← List.length_append, ← window_split s h.w_le, length_window]

@[simp] theorem put_r (s : Cons) (c : UInt8) : (s.put c).r = s.r := rfl
@[simp] theorem put_w (s : Cons) (c : UInt8) : (s.put c).w = s.w := rfl
@[simp] theorem put_e (s : Cons) (c : UInt8) : (s.put c).e = s.e + 1 := rfl
@[simp] theorem erase_r (s : Cons) : s.erase.r = s.r := rfl
@[simp] theorem erase_w (s : Cons) : s.erase.w = s.w := rfl
@[simp] theorem erase_e (s : Cons) : s.erase.e = s.e - 1 := rfl
@[simp] theorem erase_buf (s : Cons) : s.erase.buf = s.buf := rfl

/-- Storing below a full buffer extends the line. -/
theorem Inv.put {s : Cons} (h : s.Inv) (c : UInt8) (hroom : (s.e - s.r).toNat < INPUT_BUF) :
    (s.put c).unread = s.unread ∧ (s.put c).line = s.line ++ [c] := by
  have he : (s.e + 1 - s.r).toNat = (s.e - s.r).toNat + 1 :=
    toNat_add_one_sub (by have := INPUT_BUF_lt; omega)
  have hsplit := window_split (s.put c) (by rw [put_r, put_w, put_e, he]; have := h.w_le; omega)
  rw [put_r, put_e, window_put s c hroom, window_split s h.w_le, List.append_assoc] at hsplit
  have hlen : (s.put c).unread.length = s.unread.length := by simp [unread]
  exact List.append_inj hsplit.symm hlen

/-- Committing the line after storing `c` moves it and `c` to the committed input. -/
theorem Inv.commit {s : Cons} (h : s.Inv) (c : UInt8) (hroom : (s.e - s.r).toNat < INPUT_BUF) :
    ({ s.put c with w := (s.put c).e } : Cons).unread = s.unread ++ s.line ++ [c] ∧
      ({ s.put c with w := (s.put c).e } : Cons).line = [] := by
  refine ⟨?_, window_self _ _⟩
  rw [← window_split s h.w_le, ← window_put s c hroom]
  rfl

/-- Erasing drops the last character of the line, and leaves the committed input. -/
theorem erase_line {s : Cons} (hne : s.e ≠ s.w) : s.erase.line = s.line.dropLast :=
  window_erase s s.w s.e (Ne.symm hne)

@[simp] theorem erase_unread (s : Cons) : s.erase.unread = s.unread := rfl

/-- The kill-line loop erases the whole line: the line has no newline to stop it. -/
theorem killLine_line (k : ℕ) :
    ∀ s : Cons, (s.e - s.w).toNat = k → '\n'.toUInt8 ∉ s.line →
      (killLine s k).unread = s.unread ∧ (killLine s k).line = [] := by
  induction k with
  | zero =>
    intro s hk _
    refine ⟨rfl, ?_⟩
    rw [← List.length_eq_zero_iff, killLine, line, length_window, hk]
  | succ k ih =>
    intro s hk hnl
    have hne : s.e ≠ s.w := by
      rintro he
      rw [he, UInt32.sub_self] at hk
      cases hk
    -- the character before `e` is the last of the line, so not a newline
    have hlast : s.buf (Ring.cell INPUT_BUF (s.e - 1).toNat) ≠ '\n'.toUInt8 := by
      intro hc
      apply hnl
      rw [line, window_last s s.w s.e (Ne.symm hne), hc]
      exact List.mem_append_right _ (List.mem_singleton_self _)
    rw [killLine, if_pos ⟨hne, hlast⟩]
    have := ih s.erase (by rw [erase_e, erase_w, toNat_sub_one_sub hne, hk]; rfl)
      (by rw [erase_line hne]; exact fun h => hnl (List.dropLast_subset _ h))
    rwa [erase_unread] at this

theorem killLine_r (k : ℕ) : ∀ s : Cons, (killLine s k).r = s.r := by
  induction k with
  | zero => intro s; rfl
  | succ k ih =>
    intro s
    rw [killLine]
    split_ifs
    · exact ih s.erase
    · rfl

theorem killLine_w (k : ℕ) : ∀ s : Cons, (killLine s k).w = s.w := by
  induction k with
  | zero => intro s; rfl
  | succ k ih =>
    intro s
    rw [killLine]
    split_ifs
    · exact ih s.erase
    · rfl

/-- `w` lies between `r` and `e`. -/
theorem toNat_sub_add_sub {r w e : UInt32} (h : (w - r).toNat ≤ (e - r).toNat) :
    (e - r).toNat = (w - r).toNat + (e - w).toNat := by
  have := r.toNat_lt
  have := w.toNat_lt
  have := e.toNat_lt
  simp only [UInt32.toNat_sub] at *
  omega

/-- `e + 1 == r + INPUT_BUF` below a full buffer: the character just stored fills it. -/
theorem full_iff {s : Cons} (hroom : (s.e - s.r).toNat < INPUT_BUF) :
    s.e + 1 = s.r + UInt32.ofNat INPUT_BUF ↔ (s.e - s.r).toNat + 1 = INPUT_BUF := by
  have := s.e.toNat_lt
  have := s.r.toNat_lt
  rw [← UInt32.toNat_inj]
  simp only [UInt32.toNat_sub, UInt32.toNat_add, UInt32.toNat_one, UInt32.toNat_ofNat',
    INPUT_BUF] at *
  omega

/-- Each input character does to the ring's windows what the line discipline does to the
lists. -/
theorem Inv.consoleintr_view {s : Cons} (h : s.Inv) (c : UInt8) :
    (consoleintr c s).view = s.view.intr c := by
  have hlen := h.length
  unfold consoleintr Input.intr
  by_cases hP : c = C 'P'
  · rw [if_pos hP, if_pos hP]
  rw [if_neg hP, if_neg hP]
  by_cases hU : c = C 'U'
  · rw [if_pos hU, if_pos hU]
    obtain ⟨h₁, h₂⟩ := killLine_line _ s rfl h.no_newline
    rw [view, h₁, h₂]
    rfl
  rw [if_neg hU, if_neg hU]
  by_cases hH : c = C 'H' ∨ c = '\x7f'.toUInt8
  · rw [if_pos hH, if_pos hH]
    by_cases he : s.e ≠ s.w
    · rw [if_pos he, view, erase_unread, erase_line he]
      rfl
    · -- nothing to erase: the line is empty
      rw [if_neg he]
      have hl : s.line = [] := by rw [not_not] at he; rw [line, he, window_self]
      rw [view, hl]
      rfl
  rw [if_neg hH, if_neg hH]
  simp only [view, hlen]
  by_cases hroom : c ≠ 0 ∧ (s.e - s.r).toNat < INPUT_BUF
  · rw [if_pos hroom, if_pos hroom]
    generalize (if c = '\r'.toUInt8 then '\n'.toUInt8 else c) = c'
    simp only [put_e, put_r, full_iff hroom.2]
    split_ifs
    · obtain ⟨h₁, h₂⟩ := h.commit c' hroom.2
      exact congrArg₂ Input.mk h₁ h₂
    · obtain ⟨h₁, h₂⟩ := h.put c' hroom.2
      exact congrArg₂ Input.mk h₁ h₂
  · rw [if_neg hroom, if_neg hroom]

theorem Inv.erase {s : Cons} (h : s.Inv) (he : s.e ≠ s.w) : s.erase.Inv := by
  have hsplit := toNat_sub_add_sub h.w_le
  have hew := toNat_sub_ne_zero he
  have her : s.e ≠ s.r := by
    intro e
    rw [e, UInt32.sub_self, UInt32.toNat_zero] at hsplit
    rw [e] at hew
    omega
  refine ⟨?_, ?_, ?_⟩
  · rw [erase_w, erase_r, erase_e, toNat_sub_one_sub her]
    omega
  · rw [erase_r, erase_e, toNat_sub_one_sub her]
    have := h.e_le
    omega
  · rw [erase_line he]
    exact fun hn => h.no_newline (List.dropLast_subset _ hn)

theorem Inv.kill {s : Cons} (h : s.Inv) : (killLine s (s.e - s.w).toNat).Inv := by
  obtain ⟨-, hl⟩ := killLine_line _ s rfl h.no_newline
  -- the loop ends with `e` back at `w`
  have he : (killLine s (s.e - s.w).toNat).e = s.w := by
    by_contra hne
    have h0 := congrArg List.length hl
    rw [line, length_window, killLine_w] at h0
    exact toNat_sub_ne_zero hne h0
  refine ⟨?_, ?_, ?_⟩
  · rw [killLine_r, killLine_w, he]
  · rw [killLine_r, he]
    exact h.w_le.trans h.e_le
  · rw [hl]
    exact List.not_mem_nil

theorem Inv.putLine {s : Cons} (h : s.Inv) {c : UInt8} (hroom : (s.e - s.r).toNat < INPUT_BUF)
    (hc : c ≠ '\n'.toUInt8) : (s.put c).Inv := by
  have he : (s.e + 1 - s.r).toNat = (s.e - s.r).toNat + 1 :=
    toNat_add_one_sub (by have := INPUT_BUF_lt; omega)
  refine ⟨?_, ?_, ?_⟩
  · rw [put_w, put_r, put_e, he]
    have := h.w_le
    omega
  · rw [put_r, put_e, he]
    omega
  · rw [(h.put c hroom).2]
    intro hn
    rcases List.mem_append.mp hn with hn | hn
    · exact h.no_newline hn
    · exact hc (List.mem_singleton.mp hn).symm

theorem Inv.commitLine {s : Cons} (h : s.Inv) (c : UInt8) (hroom : (s.e - s.r).toNat < INPUT_BUF) :
    ({ s.put c with w := (s.put c).e } : Cons).Inv := by
  have he : (s.e + 1 - s.r).toNat = (s.e - s.r).toNat + 1 :=
    toNat_add_one_sub (by have := INPUT_BUF_lt; omega)
  refine ⟨le_rfl, ?_, ?_⟩
  · show (s.e + 1 - s.r).toNat ≤ INPUT_BUF
    omega
  · rw [(h.commit c hroom).2]
    exact List.not_mem_nil

/-- `consoleintr` keeps the invariant. -/
theorem Inv.intr {s : Cons} (h : s.Inv) (c : UInt8) : (consoleintr c s).Inv := by
  unfold consoleintr
  by_cases hP : c = C 'P'
  · rw [if_pos hP]
    exact h
  rw [if_neg hP]
  by_cases hU : c = C 'U'
  · rw [if_pos hU]
    exact h.kill
  rw [if_neg hU]
  by_cases hH : c = C 'H' ∨ c = '\x7f'.toUInt8
  · rw [if_pos hH]
    split_ifs with he
    · exact h.erase he
    · exact h
  rw [if_neg hH]
  by_cases hroom : c ≠ 0 ∧ (s.e - s.r).toNat < INPUT_BUF
  · rw [if_pos hroom]
    generalize (if c = '\r'.toUInt8 then '\n'.toUInt8 else c) = c'
    dsimp only
    split_ifs with hcommit
    · exact h.commitLine c' hroom.2
    · exact h.putLine hroom.2 (fun hn => hcommit (Or.inl hn))
  · rw [if_neg hroom]
    exact h

/-! ### Reading -/

@[simp] theorem take_r (s : Cons) : s.take.r = s.r + 1 := rfl
@[simp] theorem take_w (s : Cons) : s.take.w = s.w := rfl
@[simp] theorem take_e (s : Cons) : s.take.e = s.e := rfl

theorem take_line (s : Cons) : s.take.line = s.line := rfl

/-- `cons.r--` after `cons.r++` puts the byte back. -/
theorem untake (s : Cons) : ({ s.take with r := s.take.r - 1 } : Cons) = s := by
  cases s
  simp [take]

theorem take_unread {s : Cons} (hne : s.r ≠ s.w) :
    s.unread = s.buf (Ring.cell INPUT_BUF s.r.toNat) :: s.take.unread :=
  window_take s s.r s.w hne

theorem Inv.take {s : Cons} (h : s.Inv) (hne : s.r ≠ s.w) : s.take.Inv := by
  have hsplit := toNat_sub_add_sub h.w_le
  have hwr := toNat_sub_ne_zero (Ne.symm hne)
  have her : s.r ≠ s.e := by
    intro e
    rw [← e, UInt32.sub_self, UInt32.toNat_zero] at hsplit
    omega
  refine ⟨?_, ?_, h.no_newline⟩
  · rw [take_w, take_r, take_e, toNat_sub_add_one hne, toNat_sub_add_one her]
    have := h.w_le
    omega
  · rw [take_r, take_e, toNat_sub_add_one her]
    have := h.e_le
    omega

/-- A section of `consoleread` does to the committed input what `Input.read` does to the list,
leaves the line, and keeps the invariant. -/
theorem readLoop_view (dst : ℕ → Bool) (killed : Bool) (k : ℕ) :
    ∀ (i : ℕ) (s : Cons), s.Inv →
      (readLoop dst killed k i s).1.Inv ∧ (readLoop dst killed k i s).1.line = s.line ∧
        ((readLoop dst killed k i s).1.unread, (readLoop dst killed k i s).2) =
          Input.read dst killed k i s.unread := by
  induction k with
  | zero => exact fun i s h => ⟨h, rfl, rfl⟩
  | succ k ih =>
    intro i s h
    by_cases hrw : s.r = s.w
    · have hq : s.unread = [] := by rw [unread, hrw, window_self]
      simp only [readLoop, if_pos hrw, hq]
      exact ⟨h, trivial, rfl⟩
    · -- the byte at `r` is the head of the committed input
      have ht := h.take hrw
      simp only [readLoop, if_neg hrw, take_unread hrw, Input.read]
      split_ifs with hD hi hdst hnl
      · rw [untake]
        exact ⟨h, rfl, by rw [← take_unread hrw]⟩
      · exact ⟨ht, take_line s, rfl⟩
      · exact ⟨ht, take_line s, rfl⟩
      · obtain ⟨h₁, h₂, h₃⟩ := ih (i + 1) s.take ht
        refine ⟨h₁, h₂.trans (take_line s), ?_⟩
        rw [← h₃]
      · exact ⟨ht, take_line s, rfl⟩

/-- What a section of `consoleread` does, from any state with the invariant: it keeps the
invariant and takes from the front of the committed input; it copies no `^D`, a newline only as
its last byte, and none at all when it goes to sleep. -/
theorem Inv.consoleread {s q : Cons} (h : s.Inv) {dst : ℕ → Bool} {killed : Bool} {n : ℤ} {i : ℕ}
    {bytes : List UInt8} {ex : Exit} (hr : consoleread dst killed n i s = (q, bytes, ex)) :
    q.Inv ∧ q.unread <:+ s.unread ∧ C 'D' ∉ bytes ∧ '\n'.toUInt8 ∉ bytes.dropLast ∧
      ∀ j, ex = .sleep j → '\n'.toUInt8 ∉ bytes := by
  obtain ⟨h₁, -, h₃⟩ := readLoop_view dst killed (n.toNat - i) i s h
  obtain ⟨t, ht, -⟩ := @Input.read_prefix dst killed (n.toNat - i) i s.unread
  obtain ⟨hD, hnl, hsleep⟩ := @Input.read_line dst killed (n.toNat - i) i
    s.unread
  unfold Xv6.Console.consoleread at hr
  rw [← h₃, hr] at ht hD hnl hsleep
  rw [hr] at h₁
  exact ⟨h₁, ⟨t, ht.symm⟩, hD, hnl, hsleep⟩

/-- Backspace and kill-line move only `e`. -/
theorem consoleintr_erase_rw {c : UInt8} (hc : c = C 'U' ∨ c = C 'H' ∨ c = '\x7f'.toUInt8)
    (s : Cons) : (consoleintr c s).r = s.r ∧ (consoleintr c s).w = s.w := by
  have hP : c ≠ C 'P' := by rcases hc with rfl | rfl | rfl <;> decide
  unfold consoleintr
  rw [if_neg hP]
  rcases hc with rfl | hH
  · rw [if_pos rfl]
    exact ⟨killLine_r _ s, killLine_w _ s⟩
  · rw [if_neg (by rcases hH with rfl | rfl <;> decide), if_pos hH]
    split_ifs
    · exact ⟨rfl, rfl⟩
    · exact ⟨rfl, rfl⟩

end Cons

/-! ## The console and its readers -/

/-- A call of `consoleread` asleep in its section: its `n`, where its `copyout`s fault, and the
bytes it has copied so far, `target - n` of them. -/
structure Call where
  n : ℤ
  dst : ℕ → Bool
  copied : List UInt8

/-- The console with the calls of `consoleread` asleep in it, and, recorded alongside, what each
call returned with the bytes it copied, and the input committed so far. -/
structure Sys (ι : Type) where
  cons : Cons
  call : ι → Option Call
  got : List (ι × ℤ × List UInt8)
  log : List UInt8

/-- What happens next: a character arrives, process `p` calls `consoleread(dst, n)`, or `p`
wakes in its call; `killed` is `p->killed` as the section finds it. -/
inductive Event (ι : Type)
  | intr (c : UInt8)
  | read (p : ι) (n : ℤ) (dst : ℕ → Bool) (killed : Bool)
  | wake (p : ι) (killed : Bool)

/-- An event whose `copyout`s never fault, and whose reader is not killed. -/
def Event.Faultless {ι : Type} : Event ι → Prop
  | .intr _ => True
  | .read _ _ dst killed => (∀ j, dst j = true) ∧ killed = false
  | .wake _ killed => killed = false

namespace Sys

variable {ι : Type} [DecidableEq ι]

/-- The console after boot, with no reader. -/
def init : Sys ι := ⟨Cons.init, fun _ => none, [], []⟩

/-- A section of `consoleread` by process `p` in its call `c`. -/
def readSection (s : Sys ι) (p : ι) (c : Call) (killed : Bool) : Sys ι :=
  match consoleread c.dst killed c.n c.copied.length s.cons with
  | (q, bytes, .sleep _) =>
    { s with cons := q, call := Function.update s.call p (some { c with copied := c.copied ++ bytes }) }
  | (q, bytes, .ret v) =>
    { s with cons := q, call := Function.update s.call p none,
             got := s.got ++ [(p, v, c.copied ++ bytes)] }

/-- One step. A process in a call cannot enter another. -/
def step : Event ι → Sys ι → Sys ι
  | .intr c, s => { s with cons := consoleintr c s.cons, log := s.log ++ s.cons.view.committed c }
  | .read p n dst killed, s =>
    match s.call p with
    | none => s.readSection p ⟨n, dst, []⟩ killed
    | some _ => s
  | .wake p killed, s =>
    match s.call p with
    | some c => s.readSection p c killed
    | none => s

/-- A run. -/
def run (s : Sys ι) (es : List (Event ι)) : Sys ι := AtomicRun.run step s es

/-- The invariant of every run: the console's, the unread input is what remains of the input
committed, and no call has copied a `^D`, nor a newline but as its last byte. -/
structure Inv (s : Sys ι) : Prop where
  cons : s.cons.Inv
  suffix : s.cons.unread <:+ s.log
  got : ∀ x ∈ s.got, C 'D' ∉ x.2.2 ∧ '\n'.toUInt8 ∉ x.2.2.dropLast
  call : ∀ p c, s.call p = some c → C 'D' ∉ c.copied ∧ '\n'.toUInt8 ∉ c.copied

omit [DecidableEq ι] in
theorem Inv.init : (init : Sys ι).Inv := by
  refine ⟨Cons.Inv.init, ?_, fun x hx => (List.not_mem_nil hx).elim, fun p c hc => ?_⟩
  swap
  · cases hc
  show Cons.init.window 0 0 <:+ []
  rw [Cons.window_self]

theorem Inv.intr {s : Sys ι} (h : s.Inv) (c : UInt8) : (step (.intr c) s).Inv := by
  refine ⟨h.cons.intr c, ?_, h.got, h.call⟩
  have hu : (consoleintr c s.cons).unread = s.cons.view.unread ++ s.cons.view.committed c := by
    rw [← Input.intr_unread]
    exact congrArg Input.unread (h.cons.consoleintr_view c)
  show (consoleintr c s.cons).unread <:+ s.log ++ s.cons.view.committed c
  rw [hu]
  exact List.suffix_append_self_iff.mpr h.suffix

theorem not_mem_dropLast_append {a : UInt8} {l m : List UInt8} (hl : a ∉ l)
    (hm : a ∉ m.dropLast) : a ∉ (l ++ m).dropLast := by
  rcases List.eq_nil_or_concat' m with rfl | ⟨m, b, rfl⟩
  · rw [List.append_nil]
    exact fun h => hl (List.dropLast_subset _ h)
  · rw [← List.append_assoc, List.dropLast_concat]
    rw [List.dropLast_concat] at hm
    exact fun h => (List.mem_append.mp h).elim hl hm

theorem Inv.readSection {s : Sys ι} (h : s.Inv) (p : ι) {c : Call} (killed : Bool)
    (hc : C 'D' ∉ c.copied ∧ '\n'.toUInt8 ∉ c.copied) : (s.readSection p c killed).Inv := by
  unfold Sys.readSection
  rcases hr : consoleread c.dst killed c.n c.copied.length s.cons with ⟨q, bytes, j | v⟩
  all_goals
    obtain ⟨hq, hsuf, hD, hnl, hsleep⟩ := h.cons.consoleread hr
    dsimp only
  · refine ⟨hq, hsuf.trans h.suffix, h.got, fun p' c' hc' => ?_⟩
    dsimp only at hc'
    by_cases hp : p' = p
    · subst hp
      rw [Function.update_self, Option.some.injEq] at hc'
      subst hc'
      exact ⟨fun hm => (List.mem_append.mp hm).elim hc.1 hD,
        fun hm => (List.mem_append.mp hm).elim hc.2 (hsleep j rfl)⟩
    · rw [Function.update_of_ne hp] at hc'
      exact h.call p' c' hc'
  · refine ⟨hq, hsuf.trans h.suffix, fun x hx => ?_, fun p' c' hc' => ?_⟩
    · rcases List.mem_append.mp hx with hx | hx
      · exact h.got x hx
      · rw [List.mem_singleton] at hx
        subst hx
        exact ⟨fun hm => (List.mem_append.mp hm).elim hc.1 hD, not_mem_dropLast_append hc.2 hnl⟩
    · dsimp only at hc'
      by_cases hp : p' = p
      · subst hp
        rw [Function.update_self] at hc'
        cases hc'
      · rw [Function.update_of_ne hp] at hc'
        exact h.call p' c' hc'

/-- Every step keeps the invariant. -/
theorem Inv.step {s : Sys ι} (h : s.Inv) : ∀ e, (step e s).Inv
  | .intr c => h.intr c
  | .read p n dst killed => by
    simp only [Sys.step]
    split
    · exact h.readSection p killed ⟨List.not_mem_nil, List.not_mem_nil⟩
    · exact h
  | .wake p killed => by
    simp only [Sys.step]
    split
    · rename_i c hc
      exact h.readSection p killed (h.call p c hc)
    · exact h

theorem run_inv (es : List (Event ι)) : (run init es).Inv :=
  AtomicRun.run_of_forall_mem _ Inv.init (fun e _ _ hs => hs.step e)

/-! ### One reader whose copies succeed -/

/-- What the one reader's call asleep has copied. -/
def pending (s : Sys Unit) : List UInt8 := ((s.call ()).map Call.copied).getD []

/-- The invariant of one reader whose copies succeed: the bytes its calls returned, then those
its call asleep has copied, then the unread input, are the committed input, `^D`s aside; and
each call returned the count of its bytes. -/
structure Exact (s : Sys Unit) : Prop extends s.Inv where
  asleep : ∀ c, s.call () = some c → ∀ j, c.dst j = true
  exact : (s.got.map (·.2.2)).flatten ++ pending s ++ s.cons.unread.filter (· ≠ C 'D') =
    s.log.filter (· ≠ C 'D')
  counted : ∀ x ∈ s.got, x.2.1 = x.2.2.length

theorem Exact.init : (init : Sys Unit).Exact := by
  refine ⟨Inv.init, fun c hc => (by cases hc), ?_, fun x hx => (List.not_mem_nil hx).elim⟩
  show [] ++ [] ++ (Cons.init.window 0 0).filter _ = []
  rw [Cons.window_self]
  rfl

theorem Exact.intr {s : Sys Unit} (h : s.Exact) (c : UInt8) : (step (.intr c) s).Exact := by
  refine ⟨h.toInv.intr c, h.asleep, ?_, h.counted⟩
  have hu : (consoleintr c s.cons).unread = s.cons.unread ++ s.cons.view.committed c := by
    rw [show s.cons.unread = s.cons.view.unread from rfl, ← Input.intr_unread]
    exact congrArg Input.unread (h.cons.consoleintr_view c)
  show (s.got.map (·.2.2)).flatten ++ pending s ++ (consoleintr c s.cons).unread.filter _ =
    (s.log ++ s.cons.view.committed c).filter _
  rw [hu, List.filter_append, List.filter_append, ← List.append_assoc, h.exact]

theorem Exact.readSection {s : Sys Unit} (h : s.Exact) {c : Call} (hpend : pending s = c.copied)
    (hc : C 'D' ∉ c.copied ∧ '\n'.toUInt8 ∉ c.copied) (hdst : ∀ j, c.dst j = true) :
    (s.readSection () c false).Exact := by
  have hinv := h.toInv.readSection () false hc
  obtain ⟨-, -, h₃⟩ := Cons.readLoop_view c.dst false (c.n.toNat - c.copied.length)
    c.copied.length s.cons h.cons
  obtain ⟨hex, hend⟩ := Input.read_exact hdst (c.n.toNat - c.copied.length) c.copied.length
    s.cons.unread
  rw [← h₃] at hex hend
  -- the bytes before the section: those returned, then those this call copied
  have hbefore := h.exact
  rw [hpend] at hbefore
  unfold Sys.readSection at hinv ⊢
  rcases hr : consoleread c.dst false c.n c.copied.length s.cons with ⟨q, bytes, j | v⟩
  all_goals
    have hr' : readLoop c.dst false (c.n.toNat - c.copied.length) c.copied.length s.cons =
      (q, bytes, _) := hr
    rw [hr'] at hex hend
    rw [hr] at hinv
    dsimp only at hinv hex hend ⊢
  · refine ⟨hinv, fun c' hc' j' => ?_, ?_, h.counted⟩
    · dsimp only at hc'
      rw [Function.update_self, Option.some.injEq] at hc'
      subst hc'
      exact hdst j'
    · show (s.got.map (·.2.2)).flatten ++ (c.copied ++ bytes) ++ q.unread.filter _ = _
      rw [← hbefore, List.append_assoc, List.append_assoc, List.append_assoc, hex]
  · refine ⟨hinv, fun c' hc' => (by dsimp only at hc'; rw [Function.update_self] at hc'; cases hc'),
      ?_, ?_⟩
    · show ((s.got ++ [((), v, c.copied ++ bytes)]).map (·.2.2)).flatten ++ [] ++
        q.unread.filter _ = _
      rw [← hbefore, List.map_append, List.flatten_append, List.map_singleton,
        List.flatten_singleton, List.append_nil, List.append_assoc, List.append_assoc,
        List.append_assoc, hex]
    · intro x hx
      rcases List.mem_append.mp hx with hx | hx
      · exact h.counted x hx
      · rw [List.mem_singleton] at hx
        subst hx
        rcases hend with ⟨j, hj, -⟩ | hv
        · cases hj
        · cases hv
          simp

theorem Exact.step {s : Sys Unit} (h : s.Exact) : ∀ e : Event Unit, e.Faultless → (step e s).Exact
  | .intr c, _ => h.intr c
  | .read p n dst killed, ⟨hdst, hk⟩ => by
    subst hk
    cases p
    simp only [Sys.step]
    split
    · rename_i hc
      exact h.readSection (by simp [pending, hc]) ⟨List.not_mem_nil, List.not_mem_nil⟩ hdst
    · exact h
  | .wake p killed, hk => by
    subst hk
    cases p
    simp only [Sys.step]
    split
    · rename_i c hc
      exact h.readSection (by simp [pending, hc]) (h.call () c hc) (h.asleep c hc)
    · exact h

theorem run_exact {es : List (Event Unit)} (hes : ∀ e ∈ es, e.Faultless) : (run init es).Exact :=
  AtomicRun.run_of_forall_mem _ Exact.init (fun e he _ hs => hs.step e (hes e he))

end Sys

/-! ## The line discipline over every run -/

/-- The console's line discipline, over every run with any number of readers. Through any wrap
of the indices, `r ≤ w ≤ e ≤ r + INPUT_BUF` as `uint` differences. Each input character edits
and commits the input as `Input.intr` says, and backspace and kill-line move only `e`, never
into the committed input. Each section of `consoleread` takes the committed input from the front
as `Input.read` says; no call copies a `^D`, nor more than one line; a `^D` ends a read, and
after data it is left for a read of 0 bytes of its own. With one reader whose copies succeed and
which is not killed, the bytes its calls return, then those of its call asleep, then the unread
input are the committed input, `^D`s aside, and each call returns the count of its bytes. -/
theorem console_line_discipline {ι : Type} [DecidableEq ι] (es : List (Event ι)) :
    let s := (Sys.run Sys.init es).cons
    ((s.w - s.r).toNat ≤ (s.e - s.r).toNat ∧ (s.e - s.r).toNat ≤ INPUT_BUF) ∧
    (∀ c, (consoleintr c s).view = s.view.intr c) ∧
    (∀ c, c = C 'U' ∨ c = C 'H' ∨ c = '\x7f'.toUInt8 →
      (consoleintr c s).r = s.r ∧ (consoleintr c s).w = s.w ∧
        (consoleintr c s).unread = s.unread ∧ (consoleintr c s).line <+: s.line) ∧
    s.unread <:+ (Sys.run Sys.init es).log ∧
    (∀ dst killed n i, ((consoleread dst killed n i s).1.unread, (consoleread dst killed n i s).2) =
      Input.read dst killed (n.toNat - i) i s.unread) ∧
    (∀ x ∈ (Sys.run Sys.init es).got, C 'D' ∉ x.2.2 ∧ '\n'.toUInt8 ∉ x.2.2.dropLast) ∧
    (∀ pre rest dst killed n i, s.unread = pre ++ C 'D' :: rest → C 'D' ∉ pre →
      '\n'.toUInt8 ∉ pre → (∀ j, dst j = true) → pre.length < n.toNat - i →
      ((consoleread dst killed n i s).1.unread, (consoleread dst killed n i s).2) =
        (if 0 < i + pre.length then C 'D' :: rest else rest, pre, .ret (i + pre.length))) ∧
    (∀ es' : List (Event Unit), (∀ e ∈ es', e.Faultless) →
      ((Sys.run Sys.init es').got.map (·.2.2)).flatten ++ Sys.pending (Sys.run Sys.init es') ++
          (Sys.run Sys.init es').cons.unread.filter (· ≠ C 'D') =
        (Sys.run Sys.init es').log.filter (· ≠ C 'D') ∧
      ∀ x ∈ (Sys.run Sys.init es').got, x.2.1 = x.2.2.length) := by
  intro s
  have h := Sys.run_inv es
  have hread : ∀ dst killed n i,
      ((consoleread dst killed n i s).1.unread, (consoleread dst killed n i s).2) =
        Input.read dst killed (n.toNat - i) i s.unread :=
    fun dst killed n i => (Cons.readLoop_view dst killed (n.toNat - i) i s h.cons).2.2
  refine ⟨⟨h.cons.w_le, h.cons.e_le⟩, h.cons.consoleintr_view, fun c hc => ?_, h.suffix, hread,
    h.got, fun pre rest dst killed n i hs hD hnl hdst hk => ?_, fun es' hes' => ?_⟩
  · obtain ⟨hr, hw⟩ := Cons.consoleintr_erase_rw hc s
    obtain ⟨hu, hl⟩ := Input.intr_erase hc s.view
    rw [← h.cons.consoleintr_view c] at hu hl
    exact ⟨hr, hw, hu, hl⟩
  · rw [hread, hs, Input.read_eof hdst hD hnl _ hk]
  · have he := Sys.run_exact hes'
    exact ⟨he.exact, he.counted⟩

/-- A line typed and read back by one reader. -/
theorem console_line_discipline_oneLine :
    let s := Sys.run (Sys.init : Sys Unit) [.intr 97, .intr 10, .read () 10 (fun _ => true) false]
    s.got = [((), 2, [97, 10])] ∧
      (s.cons.w - s.cons.r).toNat ≤ (s.cons.e - s.cons.r).toNat ∧
        (s.cons.e - s.cons.r).toNat ≤ INPUT_BUF :=
  ⟨by decide, (console_line_discipline _).1⟩

set_option maxRecDepth 20000 in
/-- Where the bytes the reads return are not the committed input. A read whose `copyout`
faults has already moved `r` past the byte it took: of the line `a\n`, the reads return the
newline alone. And two readers, once the buffer fills without a newline: reader 0 copies the 128
bytes and sleeps for more, and reader 1 then returns the next line, `x\n`, before reader 0
returns. -/
theorem console_reads_counterexample :
    (Sys.run (Sys.init : Sys Unit) [.intr 97, .intr 10, .read () 10 (fun _ => false) false,
      .read () 10 (fun _ => true) false]).got = [((), 0, []), ((), 1, [10])] ∧
    (Sys.run (Sys.init : Sys Unit) [.intr 97, .intr 10, .read () 10 (fun _ => false) false,
      .read () 10 (fun _ => true) false]).log = [97, 10] ∧
    (Sys.run (Sys.init : Sys (Fin 2)) (List.replicate 128 (.intr 97) ++
      [.read 0 200 (fun _ => true) false, .read 1 10 (fun _ => true) false, .intr 120, .intr 10,
        .wake 1 false, .wake 0 false])).got = [(1, 2, [120, 10])] ∧
    ((Sys.run (Sys.init : Sys (Fin 2)) (List.replicate 128 (.intr 97) ++
      [.read 0 200 (fun _ => true) false, .read 1 10 (fun _ => true) false, .intr 120, .intr 10,
        .wake 1 false, .wake 0 false])).call 0).map Call.copied = some (List.replicate 128 97) := by
  decide

end Xv6.Console
