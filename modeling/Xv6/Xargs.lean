import Xv6.Lib.Lines
import Xv6.Param

/-!
# xargs (user/xargs.c)

`xargs command args…` reads its standard input a byte at a time into `buf`. At each `'\n'` it
ends the string in `buf` with a NUL, puts it after the arguments as `newargv[argc-1]` (the vector
ends with the null pointer `newargv[argc]`), forks a child that `exec`s the command on it, waits
for the child and empties `buf`. A byte that would be the 512th of a line makes it print an error
and exit. When `read` returns 0 it exits at once.

The effects are what the process prints and the commands it runs, in order; each run stands for
the `fork`, the child's `exec` and the parent's `wait(0)`. A child whose `exec` fails goes on with
the loop on the same input while its parent waits, so the runs keep their order.

* `readLoop_eq`: the loop runs the command once for each `'\n'`-terminated line, on the line as
  a C string;
* `xargs_runs`: so does `xargs`, and a last line without `'\n'` is never run.
-/

namespace Xv6

namespace Xargs

/-- What xargs does that another process can see. -/
inductive Effect
  /-- `printf(s)`. -/
  | print (s : String)
  /-- `fork()`; the child runs `exec(args[0], args)`, the parent `wait(0)`s for it. -/
  | run (args : List (List Char))
  deriving DecidableEq

/-- The loop `while(read(0, &ch, sizeof(char)) > 0)`, with the `index` bytes of the current line
in `buf` and `input` the bytes still to read: the effects, and the status `exit` gets. -/
def readLoop (args : List (List Char)) (buf : List Char) : List Char → List Effect × ℕ
  | [] => ([], 0)
  | ch :: input =>
    if ch = '\n' then
      -- `buf[index] = '\0'; newargv[argc-1] = buf;`, the run, then `index = 0`
      let r := readLoop args [] input
      (.run (args ++ [buf.takeWhile (· != '\x00')]) :: r.1, r.2)
    else if buf.length < 512 - 1 then readLoop args (buf ++ [ch]) input
    else ([.print "New argument is too long\n"], 1)

/-- `main(argc, argv)`: the arguments `argv[1..argc-1]` are the front of each `newargv`. -/
def main (argv : List (List Char)) (input : List Char) : List Effect × ℕ :=
  if argv.length < 2 then ([.print "Usage: xargs commend <arg>"], 1)
  else if argv.length ≥ MAXARG then ([.print "xargs\x27s arg too long\n"], 1)
  else readLoop (argv.drop 1) [] input

/-- The run of one line: the arguments, then the line as a C string. -/
def lineRun (args : List (List Char)) (line : List Char) : Effect :=
  .run (args ++ [line.takeWhile (· != '\x00')])

/-- From a partial line `buf`, the loop runs the command on each line the rest of the input
ends, and exits with 0, as long as no line reaches 512 bytes. -/
theorem readLoop_eq (args : List (List Char)) (buf input : List Char) (hbuf : '\n' ∉ buf)
    (hlen : ∀ l ∈ (buf ++ input).splitOn '\n', l.length < 512) :
    readLoop args buf input = ((Lines.lines '\n' (buf ++ input)).map (lineRun args), 0) := by
  induction input generalizing buf with
  | nil =>
    rw [List.append_nil, Lines.lines_of_not_mem _ hbuf]
    rfl
  | cons ch input ih =>
    rw [readLoop]
    split_ifs with hch hroom
    · -- a `'\n'` ends the line: it is run, and the next line starts empty
      subst hch
      have hsplit := List.splitOn_append_cons_self_of_not_mem hbuf input
      rw [Lines.lines_append_cons _ hbuf, ih [] List.not_mem_nil fun l hl =>
        hlen l (by rw [hsplit]; exact List.mem_cons_of_mem _ hl)]
      rfl
    · -- the byte joins the line
      have hbuf' : '\n' ∉ buf ++ [ch] :=
        List.not_mem_append hbuf (by rw [List.mem_singleton]; exact Ne.symm hch)
      rw [ih (buf ++ [ch]) hbuf' (by rwa [List.append_assoc]), List.append_assoc]
      rfl
    · -- the line in `buf` reaches 512 bytes, against `hlen`
      have hbuf' : '\n' ∉ buf ++ [ch] :=
        List.not_mem_append hbuf (by rw [List.mem_singleton]; exact Ne.symm hch)
      have hpre := Lines.prefix_head_splitOn '\n' hbuf' input
      rw [List.append_assoc, List.singleton_append] at hpre
      have hfirst := hlen _ (List.head_mem (List.splitOn_ne_nil '\n' (buf ++ ch :: input)))
      have hle := hpre.length_le
      rw [List.length_append, List.length_singleton] at hle
      omega

/-- xargs runs the command once for each `'\n'`-terminated line of its input, in order, on the
arguments followed by the line as a C string, and exits with 0; a last line that no `'\n'` ends
is never run. This is for every input in which no line reaches 512 bytes and every `argv` with
`2 <= argc < MAXARG`. -/
theorem xargs_runs (argv : List (List Char)) (input : List Char) (hargc : 2 ≤ argv.length)
    (hmax : argv.length < MAXARG) (hlen : ∀ l ∈ input.splitOn '\n', l.length < 512) :
    main argv input =
      ((Lines.lines '\n' input).map fun l => .run (argv.drop 1 ++ [l.takeWhile (· != '\x00')]),
        0) := by
  rw [main, if_neg (Nat.not_lt.2 hargc), if_neg (Nat.not_le.2 hmax)]
  exact readLoop_eq (argv.drop 1) [] input List.not_mem_nil hlen

/-- `printf 'a\nb' | xargs echo` runs `echo a` only. -/
theorem xargs_runs_unterminated :
    2 ≤ [['x', 'a', 'r', 'g', 's'], ['e', 'c', 'h', 'o']].length ∧
      [['x', 'a', 'r', 'g', 's'], ['e', 'c', 'h', 'o']].length < MAXARG ∧
      (∀ l ∈ ['a', '\n', 'b'].splitOn '\n', l.length < 512) ∧
      main [['x', 'a', 'r', 'g', 's'], ['e', 'c', 'h', 'o']] ['a', '\n', 'b'] =
        ([.run [['e', 'c', 'h', 'o'], ['a']]], 0) := by
  refine ⟨by decide, by decide, by decide, ?_⟩
  rw [xargs_runs _ _ (by decide) (by decide) (by decide)]
  decide

end Xargs

end Xv6
