import Xv6.Fs.Content

/-!
# One file shared by several processes (`kernel/file.c`)

After `fork` or `dup` several processes hold the same `struct file`, and so one offset
`f->off`. On an inode, `filewrite` cuts a write into chunks of at most `maxWrite` bytes; each
pass of its loop takes the inode's sleep lock, calls `writei` at `f->off`, and advances `f->off`
by what was written before it lets the lock go. `fileread` does the same once, with `readi`.
Each pass, and each `fileread`, is then a section no other process enters, and a run of the
processes is a sequence of sections in whatever order the scheduler picks.

`Shared` holds the inode layer, the file, and the calls each process has still to make;
`Shared.step` runs one process's next section and `Shared.run` a schedule of them. What a run
shows is a list of `Event`s: the chunks written, and what each call returned.

* `Tracks`: what every run keeps: the offset is the first one plus the bytes written, those
  bytes lie in the file from the first offset on in the order they were written, and each
  process's chunks, then what it has still to write, are what it had to write;
* `Tracks.pass`, `Tracks.step`, `tracks_run`: a pass of `filewrite` keeps it, so does any
  section, and so does a whole run in which no `filewrite` fails and no `fileread` returns
  bytes;
* `shared_offset`, with `shared_offset_counterexample`: a `fileread` that returns bytes moves
  the offset past them, and an offset past the size stays past it.
-/

namespace Xv6.Fs

/-- The most bytes one pass of `filewrite` gives `writei`: the inode, the indirect block, two
bitmap blocks and the data blocks of a pass fit in one transaction of `MAXOPBLOCKS`. -/
def maxWrite : ℕ := ((MAXOPBLOCKS - 1 - 1 - 2) / 2) * BSIZE

theorem maxWrite_eq : maxWrite = 3072 := rfl

/-- `struct file` of type `FD_INODE`: the fields `fileread` and `filewrite` read. -/
structure File where
  readable : Bool
  writable : Bool
  ip : Fin NINODE
  off : ℕ

/-- `if(r > 0) f->off += r`, the offset being a `uint`. -/
def File.advance (f : File) (r : ℤ) : File :=
  if 0 < r then { f with off := (f.off + r.toNat) % 2 ^ 32 } else f

@[simp] theorem File.advance_ip (f : File) (r : ℤ) : (f.advance r).ip = f.ip := by
  unfold File.advance
  split_ifs <;> rfl

theorem File.advance_of_nonpos (f : File) {r : ℤ} (h : r ≤ 0) : f.advance r = f :=
  if_neg (by omega)

theorem File.advance_off (f : File) {n : ℕ} (h : 0 < n) (hn : f.off + n < 2 ^ 32) :
    (f.advance n).off = f.off + n := by
  rw [File.advance, if_pos (by omega)]
  simp only [Int.toNat_natCast]
  exact Nat.mod_eq_of_lt hn

section Calls

variable (sb : Superblock)

/-- `fileread(f, addr, n)` on an inode, every byte at `addr` writable: `readi` at `f->off` under
the inode lock. It returns what `readi` returns and the bytes copied out. -/
def fileread (s : State) (f : File) (n : ℕ) : Option (ℤ × List UInt8 × State × File) :=
  if f.readable = false then some (-1, [], s, f)
  else (ilock s f.ip).bind fun s =>
    (readi sb s f.ip (fun _ => true) f.off n).map fun r => (r.1, r.2.1, r.2.2, f.advance r.1)

/-- One pass of `filewrite`'s loop with the first `i` bytes of `data` written: `writei` of the
next chunk, at most `maxWrite` bytes, at `f->off` under the inode lock. -/
def filewritePass (s : State) (f : File) (data : List UInt8) (i : ℕ) :
    Option (ℤ × State × File) :=
  (ilock s f.ip).bind fun s =>
    (writei sb s f.ip (fun j => data[i + j]?) f.off (min (data.length - i) maxWrite)).map
      fun r => (r.1, r.2, f.advance r.1)

end Calls

/-- A call a process has still to make on the shared file: `filewrite` of the bytes `data`, of
which the first `i` are written, or `fileread` of `n` bytes. -/
inductive Call
  | write (data : List UInt8) (i : ℕ)
  | read (n : ℕ)

/-- What a section shows: the bytes a pass of `filewrite` wrote, a `filewrite` returning, or a
`fileread` returning with the bytes it read. -/
inductive Event (ι : Type)
  | chunk (p : ι) (bytes : List UInt8)
  | write (p : ι) (r : ℤ)
  | read (p : ι) (r : ℤ) (bytes : List UInt8)

namespace Event

variable {ι : Type}

/-- The process an event is about. -/
def proc : Event ι → ι
  | chunk p _ => p
  | write p _ => p
  | read p _ _ => p

/-- The bytes an event wrote to the file. -/
def bytes : Event ι → List UInt8
  | chunk _ b => b
  | write _ _ => []
  | read _ _ _ => []

end Event

/-- The bytes the chunks of `es` wrote, in order. -/
def written {ι : Type} (es : List (Event ι)) : List UInt8 := es.flatMap Event.bytes

/-- The bytes process `p`'s chunks wrote, in order. -/
def writtenBy {ι : Type} [DecidableEq ι] (p : ι) (es : List (Event ι)) : List UInt8 :=
  written (es.filter fun e => e.proc = p)

/-- The bytes the calls `cs` have still to write. -/
def pending : List Call → List UInt8
  | [] => []
  | .write data i :: cs => data.drop i ++ pending cs
  | .read _ :: cs => pending cs

/-- `ret = (i == n ? n : -1)`, what `filewrite` returns after its loop. -/
def writeResult (data : List UInt8) (i : ℕ) : ℤ := if i = data.length then data.length else -1

/-- The inode layer, the one `struct file` the processes share, and the calls each process has
still to make, the first one under way. -/
structure Shared (ι : Type) where
  fs : State
  f : File
  calls : ι → List Call

namespace Shared

variable {ι : Type} [DecidableEq ι] (sb : Superblock)

/-- After a pass that wrote `r` of the `n1` bytes from `data[i]` on: the chunk it wrote, and then
`break` and the return value on a short write, the next pass, or the end of the loop. -/
def afterPass (p : ι) (data : List UInt8) (i n1 : ℕ) (r : ℤ) (cs : List Call) :
    List Call × List (Event ι) :=
  let chunk := if 0 < r then [Event.chunk p ((data.drop i).take r.toNat)] else []
  if r ≠ n1 then (cs, chunk ++ [.write p (writeResult data i)])
  else if i + n1 < data.length then (.write data (i + n1) :: cs, chunk)
  else (cs, chunk ++ [.write p (writeResult data (i + n1))])

/-- Process `p`'s next section: its `fileread`, or the next pass of its `filewrite`. The checks
before `filewrite`'s loop and the return after it take no lock; they go with the pass next to
them. -/
def step (s : Shared ι) (p : ι) : Option (Shared ι × List (Event ι)) :=
  match s.calls p with
  | [] => some (s, [])
  | .read n :: cs =>
    (fileread sb s.fs s.f n).map fun r =>
      (⟨r.2.2.1, r.2.2.2, Function.update s.calls p cs⟩, [.read p r.1 r.2.1])
  | .write data i :: cs =>
    if s.f.writable = false then
      some ({ s with calls := Function.update s.calls p cs }, [.write p (-1)])
    else if i < data.length then
      (filewritePass sb s.fs s.f data i).map fun r =>
        let a := afterPass p data i (min (data.length - i) maxWrite) r.1 cs
        (⟨r.2.1, r.2.2, Function.update s.calls p a.1⟩, a.2)
    else some ({ s with calls := Function.update s.calls p cs }, [.write p (writeResult data i)])

/-- The sections of the schedule `ps`, in order, with the events they show. -/
def run (s : Shared ι) (ps : List ι) : Option (Shared ι × List (Event ι)) :=
  ps.foldlM (fun t p => (t.1.step sb p).map fun u => (u.1, t.2 ++ u.2)) (s, [])

end Shared

/-! ## Events and pending bytes -/

section Events

variable {ι : Type}

@[simp] theorem written_nil : written ([] : List (Event ι)) = [] := rfl

@[simp] theorem written_cons (e : Event ι) (es : List (Event ι)) :
    written (e :: es) = e.bytes ++ written es := List.flatMap_cons

@[simp] theorem written_append (es es' : List (Event ι)) :
    written (es ++ es') = written es ++ written es' := List.flatMap_append

section AfterPass

variable (p : ι) (data : List UInt8) (cs : List Call)

theorem afterPass_proc (i n1 : ℕ) (r : ℤ) :
    ∀ e ∈ (Shared.afterPass p data i n1 r cs).2, e.proc = p := by
  unfold Shared.afterPass
  split_ifs <;> simp [Event.proc]

/-- A pass that wrote its whole chunk: the chunk is the next bytes of `data`, and the call goes
on from after them, or ends with nothing left. -/
theorem afterPass_of_eq {i n1 : ℕ} (hn1 : 0 < n1) (hle : i + n1 ≤ data.length) :
    pending (Shared.afterPass p data i n1 n1 cs).1 = data.drop (i + n1) ++ pending cs ∧
      written (Shared.afterPass p data i n1 n1 cs).2 = (data.drop i).take n1 ∧
      ∀ q b, Event.chunk q b ∈ (Shared.afterPass p data i n1 n1 cs).2 →
        b = (data.drop i).take n1 := by
  have hpos : (0 : ℤ) < n1 := by omega
  unfold Shared.afterPass
  simp only [hpos, if_true, ne_eq, not_true_eq_false, if_false, Int.toNat_natCast]
  split_ifs with hlt
  · simp [pending, Event.bytes]
  · -- the loop ends: nothing of `data` is left
    rw [List.drop_eq_nil_of_le (show data.length ≤ i + n1 by omega)]
    simp [Event.bytes]

/-- A short pass of a call with bytes left: `filewrite` returns `-1`. -/
theorem afterPass_of_ne {i n1 : ℕ} {r : ℤ} (hr : r ≠ n1) (hlt : i < data.length) :
    Event.write p (-1) ∈ (Shared.afterPass p data i n1 r cs).2 := by
  unfold Shared.afterPass
  rw [if_pos hr, writeResult, if_neg (Nat.ne_of_lt hlt)]
  simp

end AfterPass

variable [DecidableEq ι]

@[simp] theorem writtenBy_append (p : ι) (es es' : List (Event ι)) :
    writtenBy p (es ++ es') = writtenBy p es ++ writtenBy p es' := by
  simp [writtenBy]

/-- Among events all about `p`, `p`'s chunks are all the chunks and another process has none. -/
theorem writtenBy_of_proc {p q : ι} {es : List (Event ι)} (h : ∀ e ∈ es, e.proc = p) :
    writtenBy q es = if q = p then written es else [] := by
  unfold writtenBy
  split_ifs with hq
  · subst hq
    rw [List.filter_eq_self.mpr (by simpa using h)]
  · rw [List.filter_eq_nil_iff.mpr fun e he => by simpa [h e he] using Ne.symm hq]
    rfl

/-- A section whose events are `p`'s, leaving `p` the calls `cs`: every other process keeps its
chunks and its calls, and `p`'s new chunks are the bytes it no longer has to write. -/
theorem mine_update {s₀ s : Shared ι} {es evs : List (Event ι)} {p : ι} {cs : List Call}
    (hmine : ∀ q, writtenBy q es ++ pending (s.calls q) = pending (s₀.calls q))
    (hproc : ∀ e ∈ evs, e.proc = p) (hp : written evs ++ pending cs = pending (s.calls p))
    (q : ι) :
    writtenBy q (es ++ evs) ++ pending (Function.update s.calls p cs q) = pending (s₀.calls q) := by
  rw [writtenBy_append, writtenBy_of_proc hproc]
  by_cases hq : q = p
  · subst hq
    rw [if_pos rfl, Function.update_self, List.append_assoc, hp, hmine]
  · rw [if_neg hq, Function.update_of_ne hq, List.append_nil, hmine]

end Events

/-! ## The sections -/

section Sections

variable {sb : Superblock}

/-- A `fileread` on a locked valid entry that returns no bytes changes neither the inode layer
nor the file. -/
theorem fileread_keeps {s s' : State} {f f' : File} {n : ℕ} {r : ℤ} {out : List UInt8}
    (hr : 0 < (s.inode f.ip).ref) (hv : (s.inode f.ip).valid = true)
    (h : fileread sb s f n = some (r, out, s', f')) (hr0 : r ≤ 0) : s' = s ∧ f' = f := by
  unfold fileread at h
  split_ifs at h
  · cases h
    exact ⟨rfl, rfl⟩
  rw [ilock_of_valid hr hv, Option.bind_some] at h
  obtain ⟨⟨r₁, out₁, s₁⟩, hread, he⟩ := Option.map_eq_some_iff.mp h
  simp only [Prod.mk.injEq] at he
  obtain ⟨rfl, rfl, rfl, rfl⟩ := he
  exact ⟨readi_of_nonpos hread hr0, File.advance_of_nonpos f hr0⟩

/-- A `fileread` on a locked valid entry of a file open for reading is `readi` at the offset,
then the offset advanced. -/
theorem fileread_of_valid {s : State} {f : File} {n : ℕ} (hf : f.readable = true)
    (hr : 0 < (s.inode f.ip).ref) (hv : (s.inode f.ip).valid = true) :
    fileread sb s f n = (readi sb s f.ip (fun _ => true) f.off n).map
      fun r => (r.1, r.2.1, r.2.2, f.advance r.1) := by
  rw [fileread, if_neg (by simp [hf]), ilock_of_valid hr hv, Option.bind_some]

/-- A pass of `filewrite` on a locked valid entry is `writei` at the offset, then the offset
advanced. -/
theorem filewritePass_of_valid {s : State} {f : File} {data : List UInt8} {i : ℕ}
    (hr : 0 < (s.inode f.ip).ref) (hv : (s.inode f.ip).valid = true) :
    filewritePass sb s f data i =
      (writei sb s f.ip (fun j => data[i + j]?) f.off (min (data.length - i) maxWrite)).map
        fun r => (r.1, r.2, f.advance r.1) := by
  rw [filewritePass, ilock_of_valid hr hv, Option.bind_some]

variable {ι : Type} [DecidableEq ι]

/-- The section of a process in a `filewrite` with bytes left, the file open for writing. -/
theorem step_of_write {s : Shared ι} {p : ι} {data : List UInt8} {i : ℕ} {cs : List Call}
    (hp : s.calls p = .write data i :: cs) (hw : s.f.writable = true) (hlt : i < data.length) :
    s.step sb p = (filewritePass sb s.fs s.f data i).map fun r =>
      (⟨r.2.1, r.2.2, Function.update s.calls p
        (Shared.afterPass p data i (min (data.length - i) maxWrite) r.1 cs).1⟩,
        (Shared.afterPass p data i (min (data.length - i) maxWrite) r.1 cs).2) := by
  unfold Shared.step
  rw [hp]
  simp [hw, hlt]

/-- The section of a process about to call `fileread`. -/
theorem step_of_read {s : Shared ι} {p : ι} {n : ℕ} {cs : List Call}
    (hp : s.calls p = .read n :: cs) :
    s.step sb p = (fileread sb s.fs s.f n).map fun r =>
      (⟨r.2.2.1, r.2.2.2, Function.update s.calls p cs⟩, [.read p r.1 r.2.1]) := by
  unfold Shared.step
  rw [hp]

theorem step_proc {s s' : Shared ι} {p : ι} {evs : List (Event ι)}
    (h : s.step sb p = some (s', evs)) : ∀ e ∈ evs, e.proc = p := by
  unfold Shared.step at h
  split at h
  · cases h
    simp
  · obtain ⟨r, -, he⟩ := Option.map_eq_some_iff.mp h
    cases he
    simp [Event.proc]
  · split_ifs at h
    · cases h
      simp [Event.proc]
    · obtain ⟨r, -, he⟩ := Option.map_eq_some_iff.mp h
      cases he
      exact afterPass_proc _ _ _ _ _ _
    · cases h
      simp [Event.proc]

end Sections

/-! ## What a run keeps -/

/-- What a run from `s₀` keeps, `es` the events so far: the invariant of the inode layer, with the
file's entry locked, valid and its blocks below the size mapped; the offset a `uint`, the first
offset plus the bytes written, and within the size; the bytes written in the file from the first
offset on; chunks of at most `maxWrite` bytes; and each process's chunks, then what it has still
to write, what it had to write at first. -/
structure Tracks {ι : Type} [DecidableEq ι] (sb : Superblock) (s₀ s : Shared ι)
    (es : List (Event ι)) : Prop where
  inv : Inv sb s.fs
  ip : s.f.ip = s₀.f.ip
  ref : 0 < (s.fs.inode s.f.ip).ref
  valid : (s.fs.inode s.f.ip).valid = true
  mapped : (s.fs.inode s.f.ip).din.Mapped s.fs.disk.ind
  off_lt : s.f.off < 2 ^ 32
  off : s.f.off = s₀.f.off + (written es).length
  off_le : s.f.off ≤ (s.fs.inode s.f.ip).din.size
  inFile : ((content s.fs s.f.ip).drop s₀.f.off).take (written es).length = written es
  chunks : ∀ p b, Event.chunk p b ∈ es → 0 < b.length ∧ b.length ≤ maxWrite
  mine : ∀ p, writtenBy p es ++ pending (s.calls p) = pending (s₀.calls p)

section Tracks

variable {sb : Superblock} {ι : Type} [DecidableEq ι] {s₀ s : Shared ι} {es : List (Event ι)}

theorem Tracks.init (hi : Inv sb s₀.fs) (hr : 0 < (s₀.fs.inode s₀.f.ip).ref)
    (hv : (s₀.fs.inode s₀.f.ip).valid = true)
    (hm : (s₀.fs.inode s₀.f.ip).din.Mapped s₀.fs.disk.ind)
    (hoff : s₀.f.off ≤ (s₀.fs.inode s₀.f.ip).din.size) (hoff32 : s₀.f.off < 2 ^ 32) :
    Tracks sb s₀ s₀ [] :=
  ⟨hi, rfl, hr, hv, hm, hoff32, rfl, hoff, by simp, by simp, fun p => by simp [writtenBy]⟩

/-- A section that changes neither the inode layer nor the file and writes no bytes. -/
theorem Tracks.keep (ht : Tracks sb s₀ s es) {p : ι} {cs : List Call} {evs : List (Event ι)}
    (hproc : ∀ e ∈ evs, e.proc = p) (hw : written evs = [])
    (hc : ∀ q b, Event.chunk q b ∈ evs → 0 < b.length ∧ b.length ≤ maxWrite)
    (hp : pending cs = pending (s.calls p)) :
    Tracks sb s₀ ⟨s.fs, s.f, Function.update s.calls p cs⟩ (es ++ evs) := by
  refine ⟨ht.inv, ht.ip, ht.ref, ht.valid, ht.mapped, ht.off_lt, ?_, ht.off_le, ?_, ?_, ?_⟩
  · simpa [hw] using ht.off
  · simpa [hw] using ht.inFile
  · intro q b hb
    rcases List.mem_append.mp hb with hb | hb
    · exact ht.chunks q b hb
    · exact hc q b hb
  · exact mine_update ht.mine hproc (by rw [hw, List.nil_append, hp])

/-- A pass of `p`'s `filewrite` that does not fail: it wrote its whole chunk at the offset, just
after the bytes written so far, and moved the offset past it. -/
theorem Tracks.pass (ht : Tracks sb s₀ s es) (hsb : sb.Sane) {p : ι} {data : List UInt8} {i : ℕ}
    {cs : List Call} (hp : s.calls p = .write data i :: cs) (hlt : i < data.length)
    {r : ℤ} {fs : State} {f : File} (h : filewritePass sb s.fs s.f data i = some (r, fs, f))
    (hok : ∀ q r', Event.write q r' ∈
      (Shared.afterPass p data i (min (data.length - i) maxWrite) r cs).2 → 0 ≤ r') :
    Tracks sb s₀ ⟨fs, f, Function.update s.calls p
        (Shared.afterPass p data i (min (data.length - i) maxWrite) r cs).1⟩
      (es ++ (Shared.afterPass p data i (min (data.length - i) maxWrite) r cs).2) := by
  set n1 := min (data.length - i) maxWrite with hn1
  have hMB : MAXFILE * BSIZE = 274432 := by rw [MAXFILE_eq, BSIZE_eq]
  have hn1pos : 0 < n1 := by
    rw [hn1, maxWrite_eq]
    omega
  have hn1le : n1 ≤ maxWrite := Nat.min_le_right _ _
  have hle : i + n1 ≤ data.length := by
    have := Nat.min_le_left (data.length - i) maxWrite
    omega
  rw [filewritePass_of_valid ht.ref ht.valid] at h
  obtain ⟨⟨r₁, fs₁⟩, hw, he⟩ := Option.map_eq_some_iff.mp h
  simp only [Prod.mk.injEq] at he
  obtain ⟨rfl, rfl, rfl⟩ := he
  -- a chunk past `MAXFILE` blocks is refused, and the call fails
  by_cases hmax : s.f.off + n1 ≤ MAXFILE * BSIZE
  swap
  · have hn1' : n1 < 2 ^ 32 := by
      rw [maxWrite_eq] at hn1le
      omega
    rw [writei_refused ht.off_lt hn1' (.inr (by omega)), Option.some.injEq, Prod.mk.injEq] at hw
    obtain ⟨rfl, rfl⟩ := hw
    exact absurd (hok p (-1) (afterPass_of_ne p data cs (by omega) hlt)) (by omega)
  have hsrc : ∀ j, j < n1 → (data[i + j]?).isSome := fun j hj => by
    rw [List.getElem?_eq_getElem (by omega)]
    rfl
  obtain ⟨rfl, hsize, hcontent, hmapped, hinv⟩ :=
    (writei_content ht.inv hsb ht.ref ht.valid ht.mapped ht.off_le hmax hsrc).2 r₁ fs₁ hw
  obtain ⟨href, hvalid⟩ := writei_keeps ht.inv hsb ht.ref ht.valid hw
  obtain ⟨hpend, hwritten, hchunk⟩ := afterPass_of_eq p data cs hn1pos hle
  rw [Overlay.map_range_getD data 0 hle] at hcontent
  have hlen : ((data.drop i).take n1).length = n1 := by
    simp only [List.length_take, List.length_drop]
    omega
  have hoff' : (s.f.advance n1).off = s.f.off + n1 :=
    File.advance_off _ hn1pos (by omega)
  have hT := ht.off
  refine ⟨hinv, (File.advance_ip _ _).trans ht.ip, ?_, ?_, ?_, ?_, ?_, ?_, ?_, ?_, ?_⟩
  · show 0 < (fs₁.inode (s.f.advance n1).ip).ref
    rw [File.advance_ip, href]
    exact ht.ref
  · show (fs₁.inode (s.f.advance n1).ip).valid = true
    rw [File.advance_ip, hvalid]
    exact ht.valid
  · show (fs₁.inode (s.f.advance n1).ip).din.Mapped fs₁.disk.ind
    rw [File.advance_ip]
    exact hmapped
  · show (s.f.advance n1).off < 2 ^ 32
    omega
  · show (s.f.advance n1).off = s₀.f.off + (written (es ++ _)).length
    rw [written_append, hwritten, List.length_append, hlen]
    omega
  · show (s.f.advance n1).off ≤ (fs₁.inode (s.f.advance n1).ip).din.size
    rw [File.advance_ip, hsize]
    omega
  · -- the chunk lies just after the bytes written before it
    show ((content fs₁ (s.f.advance n1).ip).drop s₀.f.off).take (written (es ++ _)).length = _
    have hfit : s.f.off ≤ (content s.fs s.f.ip).length := by
      rw [length_content]
      exact ht.off_le
    have hover := @Overlay.take_drop_overwrite _ (content s.fs s.f.ip) ((data.drop i).take n1)
      ((content s.fs s.f.ip).drop (s.f.off + n1)) s₀.f.off s.f.off (by omega) hfit
    rw [hlen, show s.f.off - s₀.f.off = (written es).length by omega, ht.inFile] at hover
    rw [File.advance_ip, hcontent, written_append, hwritten, List.length_append, hlen, hover]
  · intro q b hb
    rcases List.mem_append.mp hb with hb | hb
    · exact ht.chunks q b hb
    · rw [hchunk q b hb, hlen]
      exact ⟨hn1pos, hn1le⟩
  · refine mine_update ht.mine (afterPass_proc p data cs i n1 _) ?_
    rw [hwritten, hpend, hp, pending, ← List.append_assoc, ← List.drop_drop, List.take_append_drop]

/-- Any section in which no `filewrite` fails and no `fileread` returns bytes. -/
theorem Tracks.step (ht : Tracks sb s₀ s es) (hsb : sb.Sane) {p : ι} {s' : Shared ι}
    {evs : List (Event ι)} (h : s.step sb p = some (s', evs))
    (hok : ∀ q r, Event.write q r ∈ evs → 0 ≤ r) (hrd : ∀ q r b, Event.read q r b ∈ evs → r ≤ 0) :
    Tracks sb s₀ s' (es ++ evs) := by
  have hproc := step_proc h
  unfold Shared.step at h
  split at h
  · -- nothing left to call
    cases h
    rw [List.append_nil]
    exact ht
  · -- a `fileread`, which returns no bytes, changes nothing
    rename_i n cs hp
    obtain ⟨⟨r, out, fs, f⟩, hread, he⟩ := Option.map_eq_some_iff.mp h
    cases he
    obtain ⟨rfl, rfl⟩ := fileread_keeps ht.ref ht.valid hread (hrd p r out (by simp))
    exact ht.keep hproc (by simp [Event.bytes]) (by simp) (by rw [hp, pending])
  · rename_i data i cs hp
    split_ifs at h with hw hlt
    · -- a file not open for writing: `filewrite` fails
      cases h
      exact absurd (hok p (-1) (by simp)) (by omega)
    · obtain ⟨⟨r, fs, f⟩, hpass, he⟩ := Option.map_eq_some_iff.mp h
      cases he
      exact ht.pass hsb hp hlt hpass hok
    · -- the loop has ended: nothing of `data` is left
      cases h
      refine ht.keep hproc (by simp [Event.bytes]) (by simp) ?_
      rw [hp, pending, List.drop_eq_nil_of_le (by omega), List.nil_append]

/-- A run from a state where the file's entry is locked and valid, its blocks below the size
mapped and the offset within the size: if no `filewrite` of the run fails and no `fileread`
returns bytes, the run keeps `Tracks`. -/
theorem tracks_run {ps : List ι} (h₀ : Tracks sb s₀ s₀ []) (hsb : sb.Sane)
    (hrun : s₀.run sb ps = some (s, es)) (hok : ∀ p r, Event.write p r ∈ es → 0 ≤ r)
    (hrd : ∀ p r b, Event.read p r b ∈ es → r ≤ 0) : Tracks sb s₀ s es := by
  -- the invariant holds of every prefix of the run's events
  refine AtomicRun.foldlM_induction ps (fun _ t => t.2 <+: es → Tracks sb s₀ t.1 t.2)
    (fun k t p t' hP hf hpre => ?_) (fun _ => h₀) hrun (List.prefix_refl es)
  obtain ⟨⟨u, evs⟩, hstep, rfl⟩ := Option.map_eq_some_iff.mp hf
  have hsub : ∀ e ∈ evs, e ∈ es := fun e he => hpre.subset (List.mem_append_right _ he)
  exact (hP ((List.prefix_append _ _).trans hpre)).step hsb hstep
    (fun q r he => hok q r (hsub _ he)) (fun q r b he => hrd q r b (hsub _ he))

end Tracks

/-! ## The shared offset -/

section Offset

variable {sb : Superblock} {ι : Type} [DecidableEq ι]

theorem shared_offset {s₀ s : Shared ι} {ps : List ι} {es : List (Event ι)} (hi : Inv sb s₀.fs)
    (hsb : sb.Sane) (hr : 0 < (s₀.fs.inode s₀.f.ip).ref) (hv : (s₀.fs.inode s₀.f.ip).valid = true)
    (hm : (s₀.fs.inode s₀.f.ip).din.Mapped s₀.fs.disk.ind)
    (hoff : s₀.f.off ≤ (s₀.fs.inode s₀.f.ip).din.size) (hoff32 : s₀.f.off < 2 ^ 32)
    (hrun : s₀.run sb ps = some (s, es)) (hok : ∀ p r, Event.write p r ∈ es → 0 ≤ r)
    (hrd : ∀ p r b, Event.read p r b ∈ es → r ≤ 0) :
    s.f.off = s₀.f.off + (written es).length ∧
    ((content s.fs s₀.f.ip).drop s₀.f.off).take (written es).length = written es ∧
    s₀.f.off + (written es).length ≤ (s.fs.inode s₀.f.ip).din.size ∧
    (∀ p b, Event.chunk p b ∈ es → 0 < b.length ∧ b.length ≤ maxWrite) ∧
    ∀ p, writtenBy p es ++ pending (s.calls p) = pending (s₀.calls p) := by
  have ht := tracks_run (Tracks.init hi hr hv hm hoff hoff32) hsb hrun hok hrd
  have hsize := ht.off_le
  rw [ht.off] at hsize
  rw [← ht.ip]
  exact ⟨ht.off, ht.inFile, hsize, ht.chunks, ht.mine⟩

end Offset

/-! ## Two processes on an empty file -/

/-- An empty file whose first block is mapped, shared by process `0`, which writes one byte,
and process `1`, which reads one. -/
def writeThenRead : Shared (Fin 2) :=
  ⟨oneFile 0 firstBlock, ⟨true, true, entry0, 0⟩, fun p => if p = 0 then [.write [7] 0] else [.read 1]⟩

/-- Where the schedule `[0, 1]` from `writeThenRead` ends. -/
def writeThenReadEnd : Shared (Fin 2) × List (Event (Fin 2)) :=
  (writeThenRead.run sbFull [0, 1]).getD (writeThenRead, [])

/-- Process `0`'s byte is written in one pass, and process `1` then reads at the end of the file. -/
theorem writeThenRead_run : writeThenRead.run sbFull [0, 1] = some writeThenReadEnd ∧
    writeThenReadEnd.2 = [.chunk 0 [7], .write 0 1, .read 1 0 []] := by
  have hmap : (writeThenRead.run sbFull [0, 1]).map Prod.snd =
      some [.chunk 0 [7], .write 0 1, .read 1 0 []] := by
    simp only [Shared.run, List.foldlM_cons, List.foldlM_nil]
    -- one pass of `writei`'s loop, on the mapped block `100`
    rw [step_of_write (p := 0) rfl rfl (by decide), filewritePass_of_valid (by decide) rfl,
      writei_of_ok (by decide) (by decide), writeLoop, dif_pos (by decide), bmap_of_lt (by decide),
      allocAddr_of_ne_zero (by decide)]
    simp only []
    rw [if_pos (copied_of_isSome fun k hk => by
      rw [List.getElem?_eq_getElem (by simp at hk ⊢; omega)]
      rfl), writeLoop, dif_neg (by decide)]
    simp only [Option.map_some, Option.bind_eq_bind, Option.bind_some]
    -- the read is at the new size
    rw [step_of_read (p := 1) rfl, fileread_of_valid rfl (by decide) (by decide),
      readi_at_size (by decide) (by decide)]
    rfl
  obtain ⟨X, hX, hX2⟩ := Option.map_eq_some_iff.mp hmap
  have hend : writeThenReadEnd = X := by
    rw [writeThenReadEnd, hX]
    rfl
  rw [hend]
  exact ⟨hX, hX2⟩

theorem shared_offset_write_read :
    Inv sbFull writeThenRead.fs ∧ sbFull.Sane ∧
    0 < (writeThenRead.fs.inode writeThenRead.f.ip).ref ∧
    (writeThenRead.fs.inode writeThenRead.f.ip).valid = true ∧
    (writeThenRead.fs.inode writeThenRead.f.ip).din.Mapped writeThenRead.fs.disk.ind ∧
    writeThenRead.f.off ≤ (writeThenRead.fs.inode writeThenRead.f.ip).din.size ∧
    writeThenRead.f.off < 2 ^ 32 ∧
    writeThenRead.run sbFull [0, 1] = some (writeThenReadEnd.1, writeThenReadEnd.2) ∧
    (∀ p r, Event.write p r ∈ writeThenReadEnd.2 → 0 ≤ r) ∧
    (∀ p r b, Event.read p r b ∈ writeThenReadEnd.2 → r ≤ 0) ∧
    (writeThenReadEnd.1.f.off = writeThenRead.f.off + (written writeThenReadEnd.2).length ∧
    ((content writeThenReadEnd.1.fs writeThenRead.f.ip).drop writeThenRead.f.off).take
      (written writeThenReadEnd.2).length = written writeThenReadEnd.2 ∧
    writeThenRead.f.off + (written writeThenReadEnd.2).length ≤
      (writeThenReadEnd.1.fs.inode writeThenRead.f.ip).din.size ∧
    (∀ p b, Event.chunk p b ∈ writeThenReadEnd.2 → 0 < b.length ∧ b.length ≤ maxWrite) ∧
    ∀ p, writtenBy p writeThenReadEnd.2 ++ pending (writeThenReadEnd.1.calls p) =
      pending (writeThenRead.calls p)) := by
  obtain ⟨hrun, hes⟩ := writeThenRead_run
  have hsb : sbFull.Sane := ⟨by decide, by decide⟩
  -- the file is empty: no block of it lies below its size
  have hm : (writeThenRead.fs.inode writeThenRead.f.ip).din.Mapped writeThenRead.fs.disk.ind :=
    mapped_iff.mpr fun bn hbn => absurd hbn (Nat.not_lt_zero _)
  have hok : ∀ p r, Event.write p r ∈ writeThenReadEnd.2 → 0 ≤ r := by
    intro p r h
    simp only [hes, List.mem_cons, reduceCtorEq, Event.write.injEq, List.not_mem_nil,
      or_false, false_or] at h
    omega
  have hrd : ∀ p r b, Event.read p r b ∈ writeThenReadEnd.2 → r ≤ 0 := by
    intro p r b h
    simp only [hes, List.mem_cons, reduceCtorEq, Event.read.injEq, List.not_mem_nil,
      or_false, false_or] at h
    omega
  exact ⟨oneFile_inv 0, hsb, by decide, rfl, hm, le_refl 0, by decide, hrun, hok, hrd,
    shared_offset (oneFile_inv 0) hsb (by decide) rfl hm (le_refl 0) (by decide) hrun hok hrd⟩

/-! ## Where the offset is lost -/

/-- A one-block file shared by one process, which reads a byte from offset `0`. -/
def readFirst : Shared (Fin 1) := ⟨oneFile 1024 firstBlock, ⟨true, true, entry0, 0⟩, fun _ => [.read 1]⟩

/-- An empty file, its offset at `1`, shared by one process, which writes no bytes. -/
def pastEnd : Shared (Fin 1) := ⟨oneFile 0 firstBlock, ⟨true, true, entry0, 1⟩, fun _ => [.write [] 0]⟩

theorem shared_offset_counterexample :
    -- a `fileread` that returns a byte moves the offset past it, and no byte is written
    (Inv sbFull readFirst.fs ∧
      (readFirst.fs.inode readFirst.f.ip).din.Mapped readFirst.fs.disk.ind ∧
      ∃ s es, readFirst.run sbFull [0] = some (s, es) ∧ (∀ p r, Event.write p r ∈ es → 0 ≤ r) ∧
        s.f.off ≠ readFirst.f.off + (written es).length) ∧
    -- a `filewrite` of no bytes succeeds at an offset past the size, which stays past it
    (Inv sbFull pastEnd.fs ∧
      ∃ s es, pastEnd.run sbFull [0] = some (s, es) ∧ (∀ p r, Event.write p r ∈ es → 0 ≤ r) ∧
        (s.fs.inode pastEnd.f.ip).din.size < pastEnd.f.off + (written es).length) := by
  refine ⟨⟨oneFile_inv 1024, oneFile_mapped, ?_⟩, ⟨oneFile_inv 0, ?_⟩⟩
  · refine ⟨_, _, by
      simp only [Shared.run, List.foldlM_cons, List.foldlM_nil]
      rw [step_of_read (p := 0) rfl, fileread_of_valid rfl (by decide) rfl,
        readi_content (s := readFirst.fs) (i := readFirst.f.ip) oneFile_mapped (by decide)
          fun _ _ => rfl, if_neg (by decide)]
      rfl, ?_, by decide⟩
    intro p r h
    simp at h
  · refine ⟨_, _, rfl, fun p r h => ?_, by decide⟩
    simp only [List.nil_append, List.mem_singleton, Event.write.injEq] at h
    rw [h.2]
    decide

end Xv6.Fs
