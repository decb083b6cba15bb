import Mathlib

/-!
# The shell's parser (sh.c)

`parsecmd` turns a command line into a tree of `struct cmd` nodes by recursive descent:
`parseline` (lists `;` and background jobs `&`), `parsepipe` (`|`), `parseexec` (words and
redirections), `parseblock` (a parenthesised line), over the tokenizer `gettoken` and the
look-ahead `peek`. `nulterminate` then ends every word and file name in place with a NUL.

The line is the list of its characters; a position is a `char *` into it, and `es` is its end
`s + strlen(s)`, where `*es` is the NUL (`charAt`). A word of the tree is the pair `(q, eq)` of
pointers that `gettoken` returned for it. The parsing functions are defined by well-founded
recursion on what is left of the line: a result carries that the cursor never moves back
(`Parsed`), and every recursive call that does not descend to a lower function comes after a
token that `gettoken` consumed (`peek_consumes`, `gettoken_consumes`).

An EXEC node is built before its words are known, and parseexec wraps it in REDIR nodes while it
still writes the words through its pointer `cmd`. The model keeps the words aside and writes
them into the EXEC node at the bottom of the REDIR chain when the loop ends (`Cmd.setArgv`).

* `gettoken`, `peek`, with `le_gettoken`, `gettoken_consumes` and `peek_consumes`;
* `parseredirs`, `execLoop` (parseexec's loop), `parseline`, `parsepipe`, `parseexec`,
  `parseblock`, `nulterminate`, `parsecmd`;
* `Span`, `cstr_nulterminate`: a word that is a run of word characters reads, after
  `nulterminate`, as that run.
-/

namespace Xv6.Sh

/-- `MAXARGS`: the size of an EXEC node's `argv`. -/
def MAXARGS : ℕ := 10

/-- sh.c's `whitespace`. -/
def whitespace : List Char := [' ', '\t', '\r', '\n', '\x0b']

/-- sh.c's `symbols`. -/
def symbols : List Char := ['<', '|', '>', '&', ';', '(', ')']

/-- `strchr(str, c) != 0`: C's `strchr` also finds the NUL that ends `str`. -/
def strchr (str : List Char) (c : Char) : Bool := c == '\x00' || str.contains c

/-- A character `gettoken` takes into a word. -/
def IsWordChar (c : Char) : Prop := strchr whitespace c = false ∧ strchr symbols c = false

instance : DecidablePred IsWordChar := fun _ => inferInstanceAs (Decidable (_ ∧ _))

theorem IsWordChar.ne_nul {c : Char} (h : IsWordChar c) : c ≠ '\x00' := by
  rintro rfl
  simp [IsWordChar, strchr] at h

/-- The redirections: `<`, `>` and `>>`. parseredirs gives each its mode and fd (`O_RDONLY`
and 0, `O_WRONLY|O_CREATE|O_TRUNC` and 1, `O_WRONLY|O_CREATE` and 1), which depend on the token
alone. -/
inductive Redir
  | input
  | output
  | append
  deriving DecidableEq, Repr

/-- sh.c's `struct cmd` nodes, with words of type `α`: the pointers `(q, eq)` the parser stores,
or the strings read there. -/
inductive Cmd (α : Type) where
  | exec (argv : List α)
  | redir (cmd : Cmd α) (file : α) (r : Redir)
  | pipe (left right : Cmd α)
  | list (left right : Cmd α)
  | back (cmd : Cmd α)
  deriving DecidableEq, Repr

namespace Cmd

variable {α β : Type}

/-- The same tree with every word and file name replaced by `f` of it. -/
def map (f : α → β) : Cmd α → Cmd β
  | .exec argv => .exec (argv.map f)
  | .redir c file r => .redir (c.map f) (f file) r
  | .pipe l r => .pipe (l.map f) (r.map f)
  | .list l r => .list (l.map f) (r.map f)
  | .back c => .back (c.map f)

/-- The words and file names of a tree. -/
def words : Cmd α → List α
  | .exec argv => argv
  | .redir c file _ => c.words ++ [file]
  | .pipe l r => l.words ++ r.words
  | .list l r => l.words ++ r.words
  | .back c => c.words

/-- The tree with the EXEC node at the bottom of its REDIR chain given the words `argv`: what
parseexec's writes through its pointer `cmd` do to the tree `ret` that wraps that node. -/
def setArgv : Cmd α → List α → Cmd α
  | .exec _, argv => .exec argv
  | .redir c file r, argv => .redir (c.setArgv argv) file r
  | c, _ => c

/-- Every EXEC node of the tree has fewer than `MAXARGS` words, so `argv[argc] = 0` stays in
`argv`. -/
def ArgsFit : Cmd α → Prop
  | .exec argv => argv.length < MAXARGS
  | .redir c _ _ => c.ArgsFit
  | .pipe l r => l.ArgsFit ∧ r.ArgsFit
  | .list l r => l.ArgsFit ∧ r.ArgsFit
  | .back c => c.ArgsFit

theorem map_setArgv (f : α → β) (c : Cmd α) (argv : List α) :
    (c.setArgv argv).map f = (c.map f).setArgv (argv.map f) := by
  induction c with
  | redir c file r ih => simp only [setArgv, map, ih]
  | _ => rfl

/-- The words of `c.setArgv argv` are the new words and words of `c`. -/
theorem mem_words_setArgv {c : Cmd α} {argv : List α} {w : α} (h : w ∈ (c.setArgv argv).words) :
    w ∈ argv ∨ w ∈ c.words := by
  induction c with
  | exec _ => exact Or.inl h
  | redir c file r ih =>
    simp only [setArgv, words, List.mem_append, List.mem_singleton] at h ⊢
    rcases h with h | rfl
    · rcases ih h with h | h
      · exact Or.inl h
      · exact Or.inr (Or.inl h)
    · exact Or.inr (Or.inr rfl)
  | _ => exact Or.inr h

theorem map_congr {f g : α → β} {c : Cmd α} (h : ∀ w ∈ c.words, f w = g w) : c.map f = c.map g := by
  induction c with
  | exec argv => exact congrArg exec (List.map_congr_left h)
  | redir c file r ih =>
    simp only [words, List.mem_append, List.mem_singleton] at h
    rw [map, map, ih (fun w hw => h w (Or.inl hw)), h file (Or.inr rfl)]
  | pipe l r ihl ihr =>
    simp only [words, List.mem_append] at h
    rw [map, map, ihl (fun w hw => h w (Or.inl hw)), ihr (fun w hw => h w (Or.inr hw))]
  | list l r ihl ihr =>
    simp only [words, List.mem_append] at h
    rw [map, map, ihl (fun w hw => h w (Or.inl hw)), ihr (fun w hw => h w (Or.inr hw))]
  | back c ih => rw [map, map, ih h]

end Cmd

/-! ### Tokens -/

section Tokens

variable (buf : List Char) (es : ℕ)

/-- `*s` on the line `buf` that ends at `es`; past `es` it is the line's NUL. -/
def charAt (s : ℕ) : Char := if s < es then buf.getD s '\x00' else '\x00'

/-- `while(s < es && strchr(whitespace, *s)) s++;` -/
def skipWhitespace (s : ℕ) : ℕ :=
  if s < es ∧ strchr whitespace (charAt buf es s) = true then skipWhitespace (s + 1) else s
termination_by es - s

/-- gettoken's loop over a word:
`while(s < es && !strchr(whitespace, *s) && !strchr(symbols, *s)) s++;` -/
def scanWord (s : ℕ) : ℕ :=
  if s < es ∧ IsWordChar (charAt buf es s) then scanWord (s + 1) else s
termination_by es - s

/-- gettoken's `switch(*s)` at the first character `s` of a token: the code it returns (`'a'`
for a word, `'+'` for `>>`, NUL at the end of the line) and where the token ends. -/
def scanToken (s : ℕ) : Char × ℕ :=
  let c := charAt buf es s
  if c = '\x00' then (c, s)
  else if c ∈ ['|', '(', ')', ';', '&', '<'] then (c, s + 1)
  else if c = '>' then (if charAt buf es (s + 1) = '>' then ('+', s + 2) else ('>', s + 1))
  else ('a', scanWord buf es s)

/-- What `gettoken(ps, es, &q, &eq)` returns, and the new `*ps`. -/
structure Token where
  ret : Char
  q : ℕ
  eq : ℕ
  next : ℕ

/-- `gettoken(ps, es, &q, &eq)` from `*ps = s`. -/
def gettoken (s : ℕ) : Token :=
  let q := skipWhitespace buf es s
  ⟨(scanToken buf es q).1, q, (scanToken buf es q).2,
    skipWhitespace buf es (scanToken buf es q).2⟩

/-- `peek(ps, es, toks)` from `*ps = s`: whether the next character is one of `toks`, and the
new `*ps`. -/
def peek (s : ℕ) (toks : List Char) : Bool × ℕ :=
  let s := skipWhitespace buf es s
  (charAt buf es s != '\x00' && strchr toks (charAt buf es s), s)

end Tokens

section Progress

variable {buf : List Char} {es s : ℕ}

theorem lt_of_charAt_ne (h : charAt buf es s ≠ '\x00') : s < es := by
  by_contra hs
  exact h (if_neg hs)

theorem le_skipWhitespace : s ≤ skipWhitespace buf es s := by
  fun_induction skipWhitespace buf es s <;> omega

/-- Where the skip stops, the character is not white space. -/
theorem skipWhitespace_stop (h : skipWhitespace buf es s < es) :
    strchr whitespace (charAt buf es (skipWhitespace buf es s)) = false := by
  fun_induction skipWhitespace buf es s with
  | case1 s _ ih => exact ih h
  | case2 s hs =>
    simp only [not_and, Bool.not_eq_true] at hs
    exact hs h

theorem le_scanWord : s ≤ scanWord buf es s := by
  fun_induction scanWord buf es s <;> omega

theorem le_scanToken : s ≤ (scanToken buf es s).2 := by
  simp only [scanToken]
  split_ifs <;> simp [le_scanWord]

theorem le_gettoken : s ≤ (gettoken buf es s).next :=
  Nat.le_trans le_skipWhitespace (Nat.le_trans le_scanToken le_skipWhitespace)

theorem le_peek (toks : List Char) : s ≤ (peek buf es s toks).2 := le_skipWhitespace

/-- The characters that are neither NUL nor one of gettoken's cases are word characters, once
white space is skipped. -/
theorem isWordChar_of_ne {c : Char} (hws : strchr whitespace c = false) (h0 : c ≠ '\x00')
    (h1 : c ∉ ['|', '(', ')', ';', '&', '<']) (h2 : c ≠ '>') : IsWordChar c := by
  refine ⟨hws, ?_⟩
  simp only [List.mem_cons, List.not_mem_nil, or_false, not_or] at h1
  simp [strchr, symbols, h0, h1, h2]

/-- A token other than the end of the line moves the cursor past its first character. -/
theorem scanToken_consumes (h : (scanToken buf es s).1 ≠ '\x00')
    (hws : strchr whitespace (charAt buf es s) = false) : s < (scanToken buf es s).2 := by
  simp only [scanToken] at h ⊢
  split_ifs at h ⊢ with h0 h1 h2 h3
  · exact absurd h0 h
  all_goals try omega
  -- a word: its first character is a word character
  rw [scanWord, if_pos ⟨lt_of_charAt_ne h0, isWordChar_of_ne hws h0 h1 h2⟩]
  exact Nat.lt_of_lt_of_le (Nat.lt_succ_self s) le_scanWord

theorem gettoken_consumes (h : (gettoken buf es s).ret ≠ '\x00') :
    es - (gettoken buf es s).next < es - s := by
  have hq : s ≤ skipWhitespace buf es s := le_skipWhitespace
  have h0 : charAt buf es (skipWhitespace buf es s) ≠ '\x00' := by
    intro h0
    apply h
    simp [gettoken, scanToken, h0]
  have hlt : skipWhitespace buf es s < es := lt_of_charAt_ne h0
  have hmove := scanToken_consumes h (skipWhitespace_stop hlt)
  have hnext : (scanToken buf es (skipWhitespace buf es s)).2 ≤ (gettoken buf es s).next :=
    le_skipWhitespace
  omega

/-- After a successful `peek`, `gettoken` consumes the character `peek` saw. -/
theorem peek_consumes {toks : List Char} (h : (peek buf es s toks).1 = true) :
    es - (gettoken buf es (peek buf es s toks).2).next < es - s := by
  have h0 : charAt buf es (peek buf es s toks).2 ≠ '\x00' := by
    simp only [peek, Bool.and_eq_true, bne_iff_ne, ne_eq] at h
    exact h.1
  have hskip : skipWhitespace buf es (peek buf es s toks).2 = (peek buf es s toks).2 := by
    have hlt := lt_of_charAt_ne h0
    rw [skipWhitespace, if_neg]
    rintro ⟨-, hws⟩
    rw [show (peek buf es s toks).2 = skipWhitespace buf es s from rfl] at hws hlt
    rw [skipWhitespace_stop hlt] at hws
    exact Bool.false_ne_true hws
  have hret : (gettoken buf es (peek buf es s toks).2).ret ≠ '\x00' := by
    simp only [gettoken, hskip, scanToken]
    split_ifs <;> simp_all
  have := gettoken_consumes hret
  have := @le_peek buf es s toks
  omega

end Progress

/-! ### Parsing -/

@[simp] theorem except_ok_bind {α β : Type} (a : α) (f : α → Except String β) :
    (Except.ok a >>= f) = f a := rfl

@[simp] theorem except_map_ok {α β : Type} (f : α → β) (a : α) :
    (Except.ok a : Except String α).map f = .ok (f a) := rfl

/-- A parse from the position `s`: the tree, and where `*ps` stands after it, never before
`s`. -/
structure Parsed (s : ℕ) where
  cmd : Cmd (ℕ × ℕ)
  next : ℕ
  le : s ≤ next

/-- A parse from a later position, seen from `s`. -/
def Parsed.lift {s t : ℕ} (h : s ≤ t) (r : Parsed t) : Parsed s :=
  ⟨r.cmd, r.next, Nat.le_trans h r.le⟩

@[simp] theorem Parsed.lift_cmd {s t : ℕ} (h : s ≤ t) (r : Parsed t) : (r.lift h).cmd = r.cmd :=
  rfl

@[simp] theorem Parsed.lift_next {s t : ℕ} (h : s ≤ t) (r : Parsed t) :
    (r.lift h).next = r.next := rfl

set_option linter.unusedVariables false in
/-- `parseredirs(cmd, ps, es)`: each `<`, `>` or `>>` and the word after it wrap `cmd` in a
REDIR node. -/
def parseredirs (buf : List Char) (es : ℕ) (cmd : Cmd (ℕ × ℕ)) (s : ℕ) :
    Except String (Parsed s) :=
  let p := peek buf es s ['<', '>']
  if h : p.1 = true then
    let tok := gettoken buf es p.2
    let file := gettoken buf es tok.next
    if file.ret ≠ 'a' then throw "missing file for redirection"
    else
      let cmd :=
        if tok.ret = '<' then .redir cmd (file.q, file.eq) .input
        else if tok.ret = '>' then .redir cmd (file.q, file.eq) .output
        else if tok.ret = '+' then .redir cmd (file.q, file.eq) .append
        else cmd
      (parseredirs buf es cmd file.next).map
        (Parsed.lift (Nat.le_trans (le_peek _) (Nat.le_trans le_gettoken le_gettoken)))
  else pure ⟨cmd, p.2, le_peek _⟩
termination_by es - s
decreasing_by
  have h1 : es - tok.next < es - s := peek_consumes h
  have h2 : tok.next ≤ file.next := le_gettoken
  simp only [file, tok, p] at h1 h2
  omega

set_option linter.unusedVariables false in
/-- parseexec's loop over the words of an EXEC node: up to `|`, `)`, `&`, `;` or the end of
the line, each word followed by its redirections; `ret` is the tree so far and `argv` the words
written through `cmd`. -/
def execLoop (buf : List Char) (es : ℕ) (ret : Cmd (ℕ × ℕ)) (argv : List (ℕ × ℕ)) (s : ℕ) :
    Except String (Parsed s) :=
  let p := peek buf es s ['|', ')', '&', ';']
  if p.1 then pure ⟨ret.setArgv argv, p.2, le_peek _⟩
  else
    let tok := gettoken buf es p.2
    if h : tok.ret = '\x00' then
      pure ⟨ret.setArgv argv, tok.next, Nat.le_trans (le_peek _) le_gettoken⟩
    else if tok.ret ≠ 'a' then throw "syntax"
    else
      let argv := argv ++ [(tok.q, tok.eq)]
      if MAXARGS ≤ argv.length then throw "too many args"
      else do
        let r ← parseredirs buf es ret tok.next
        let r' ← execLoop buf es r.cmd argv r.next
        pure ((r'.lift r.le).lift (Nat.le_trans (le_peek _) le_gettoken))
termination_by es - s
decreasing_by
  have h1 : es - tok.next < es - p.2 := gettoken_consumes h
  have h2 : s ≤ p.2 := le_peek _
  have h3 : tok.next ≤ r.next := r.le
  simp only [tok, p] at h1 h2 h3
  omega

set_option linter.unusedVariables false in
/-- parseline's loop `while(peek(ps, es, "&"))`: each `&` makes the command a BACK node. -/
def parseBacks (buf : List Char) (es : ℕ) (cmd : Cmd (ℕ × ℕ)) (s : ℕ) : Parsed s :=
  let p := peek buf es s ['&']
  if h : p.1 = true then
    let t := gettoken buf es p.2
    (parseBacks buf es (.back cmd) t.next).lift (Nat.le_trans (le_peek _) le_gettoken)
  else ⟨cmd, p.2, le_peek _⟩
termination_by es - s
decreasing_by
  have h1 : es - t.next < es - s := peek_consumes h
  simp only [t, p] at h1
  omega

set_option linter.unusedVariables false in
mutual

/-- `parseline(ps, es)`: a pipeline, each `&` after it making it a BACK node, then `;` and the
rest of the line as a LIST node. -/
def parseline (buf : List Char) (es s : ℕ) : Except String (Parsed s) := do
  let r ← parsepipe buf es s
  let b := (parseBacks buf es r.cmd r.next).lift r.le
  let p := peek buf es b.next [';']
  if h : p.1 = true then
    let t := gettoken buf es p.2
    let r' ← parseline buf es t.next
    pure ⟨.list b.cmd r'.cmd, r'.next,
      Nat.le_trans b.le (Nat.le_trans (le_peek _) (Nat.le_trans le_gettoken r'.le))⟩
  else pure ⟨b.cmd, p.2, Nat.le_trans b.le (le_peek _)⟩
termination_by 4 * (es - s) + 3
decreasing_by
  · omega
  · have h1 : es - t.next < es - b.next := peek_consumes h
    have h2 : s ≤ b.next := b.le
    simp only [t, p, b] at h1 h2
    omega

/-- `parsepipe(ps, es)`: a command, then `|` and a pipeline as a PIPE node. -/
def parsepipe (buf : List Char) (es s : ℕ) : Except String (Parsed s) := do
  let r ← parseexec buf es s
  let p := peek buf es r.next ['|']
  if h : p.1 = true then
    let t := gettoken buf es p.2
    let r' ← parsepipe buf es t.next
    pure ⟨.pipe r.cmd r'.cmd, r'.next,
      Nat.le_trans r.le (Nat.le_trans (le_peek _) (Nat.le_trans le_gettoken r'.le))⟩
  else pure ⟨r.cmd, p.2, Nat.le_trans r.le (le_peek _)⟩
termination_by 4 * (es - s) + 2
decreasing_by
  · omega
  · have h1 : es - t.next < es - r.next := peek_consumes h
    have h2 : s ≤ r.next := r.le
    simp only [t, p] at h1
    omega

/-- `parseexec(ps, es)`: a block, or an EXEC node with its words and the redirections around
them. -/
def parseexec (buf : List Char) (es s : ℕ) : Except String (Parsed s) :=
  let p := peek buf es s ['(']
  if p.1 then (parseblock buf es p.2).map (Parsed.lift (le_peek _))
  else do
    let r ← parseredirs buf es (.exec []) p.2
    let r' ← execLoop buf es r.cmd [] r.next
    pure ((r'.lift r.le).lift (le_peek _))
termination_by 4 * (es - s) + 1
decreasing_by
  have h1 : s ≤ p.2 := le_peek _
  simp only [p] at h1
  omega

/-- `parseblock(ps, es)`: `(`, a line, `)`, and redirections around the line. -/
def parseblock (buf : List Char) (es s : ℕ) : Except String (Parsed s) :=
  let p := peek buf es s ['(']
  if h : p.1 = true then do
    let t := gettoken buf es p.2
    let r ← parseline buf es t.next
    let p₂ := peek buf es r.next [')']
    if p₂.1 then
      let t₂ := gettoken buf es p₂.2
      let r₂ ← parseredirs buf es r.cmd t₂.next
      pure (r₂.lift (Nat.le_trans (le_peek _) (Nat.le_trans le_gettoken
        (Nat.le_trans r.le (Nat.le_trans (le_peek _) le_gettoken)))))
    else throw "syntax - missing )"
  else throw "parseblock"
termination_by 4 * (es - s)
decreasing_by
  have h1 : es - t.next < es - s := peek_consumes h
  simp only [t, p] at h1
  omega

end

/-! ### nulterminate and parsecmd -/

/-- `nulterminate(cmd)`: a NUL at the end `eq` of every word and file name, in the tree's
order. -/
def nulterminate : Cmd (ℕ × ℕ) → List Char → List Char
  | .exec argv, buf => argv.foldl (fun buf w => buf.set w.2 '\x00') buf
  | .redir cmd file _, buf => (nulterminate cmd buf).set file.2 '\x00'
  | .pipe l r, buf => nulterminate r (nulterminate l buf)
  | .list l r, buf => nulterminate r (nulterminate l buf)
  | .back cmd, buf => nulterminate cmd buf

/-- `strlen(s)`. -/
def strlen (buf : List Char) : ℕ := (buf.takeWhile (· != '\x00')).length

/-- The string at `q`: the characters before the first NUL. -/
def cstr (buf : List Char) (q : ℕ) : List Char := (buf.drop q).takeWhile (· != '\x00')

/-- The characters from `w.1` to `w.2`. -/
def slice (buf : List Char) (w : ℕ × ℕ) : List Char := (buf.drop w.1).take (w.2 - w.1)

/-- `parsecmd(s)`: the tree, and the line once `nulterminate` has ended its words; a panic
gives its message. -/
def parsecmd (buf : List Char) : Except String (Cmd (ℕ × ℕ) × List Char) := do
  let es := strlen buf
  let r ← parseline buf es 0
  -- `peek(&s, es, "")` skips the white space after the line; what is left is a syntax error
  if (peek buf es r.next []).2 ≠ es then throw "syntax"
  pure (r.cmd, nulterminate r.cmd buf)

/-- A word `(q, eq)` that is a nonempty run of word characters of the line, ended by the end of
the line or by a character that is not a word character. -/
structure Span (buf : List Char) (es : ℕ) (w : ℕ × ℕ) : Prop where
  lt : w.1 < w.2
  le : w.2 ≤ es
  word : ∀ j, w.1 ≤ j → j < w.2 → IsWordChar (charAt buf es j)
  stop : w.2 < es → ¬ IsWordChar (charAt buf es w.2)

section Nulterminate

theorem getD_set_nul (buf : List Char) (i j : ℕ) :
    (buf.set i '\x00').getD j '\x00' = if j = i then '\x00' else buf.getD j '\x00' := by
  rw [List.getD_eq_getElem?_getD, List.getElem?_set, List.getD_eq_getElem?_getD]
  by_cases hij : j = i
  · subst hij
    split_ifs <;> rfl
  · rw [if_neg (Ne.symm hij), if_neg hij]

@[simp] theorem length_nulterminate (t : Cmd (ℕ × ℕ)) (buf : List Char) :
    (nulterminate t buf).length = buf.length := by
  induction t generalizing buf with
  | exec argv =>
    induction argv generalizing buf with
    | nil => rfl
    | cons w argv ih => simpa [nulterminate] using ih (buf.set w.2 '\x00')
  | redir c file r ih => simp [nulterminate, ih]
  | pipe l r ihl ihr => simp [nulterminate, ihl, ihr]
  | list l r ihl ihr => simp [nulterminate, ihl, ihr]
  | back c ih => simp [nulterminate, ih]

theorem getD_foldl_set_of_not_mem {argv : List (ℕ × ℕ)} {buf : List Char} {j : ℕ}
    (hj : j ∉ argv.map Prod.snd) :
    (argv.foldl (fun buf w => buf.set w.2 '\x00') buf).getD j '\x00' = buf.getD j '\x00' := by
  induction argv generalizing buf with
  | nil => rfl
  | cons w argv ih =>
    simp only [List.map_cons, List.mem_cons, not_or] at hj
    rw [List.foldl_cons, ih hj.2, getD_set_nul, if_neg hj.1]

theorem getD_foldl_set_of_mem {argv : List (ℕ × ℕ)} {buf : List Char} {j : ℕ}
    (hj : j ∈ argv.map Prod.snd) :
    (argv.foldl (fun buf w => buf.set w.2 '\x00') buf).getD j '\x00' = '\x00' := by
  induction argv generalizing buf with
  | nil => simp at hj
  | cons w argv ih =>
    rw [List.foldl_cons]
    by_cases hj' : j ∈ argv.map Prod.snd
    · exact ih hj'
    · have hw : j = w.2 := by
        simp only [List.map_cons, List.mem_cons] at hj
        exact hj.resolve_right hj'
      rw [getD_foldl_set_of_not_mem hj', getD_set_nul, if_pos hw]

/-- `nulterminate` writes nothing but at the ends of words. -/
theorem getD_nulterminate_of_not_mem {t : Cmd (ℕ × ℕ)} {buf : List Char} {j : ℕ}
    (hj : j ∉ t.words.map Prod.snd) :
    (nulterminate t buf).getD j '\x00' = buf.getD j '\x00' := by
  induction t generalizing buf with
  | exec argv => exact getD_foldl_set_of_not_mem hj
  | redir c file r ih =>
    simp only [Cmd.words, List.map_append, List.mem_append, List.map_cons, List.map_nil,
      List.mem_singleton, not_or] at hj
    rw [nulterminate, getD_set_nul, if_neg hj.2, ih hj.1]
  | pipe l r ihl ihr =>
    simp only [Cmd.words, List.map_append, List.mem_append, not_or] at hj
    rw [nulterminate, ihr hj.2, ihl hj.1]
  | list l r ihl ihr =>
    simp only [Cmd.words, List.map_append, List.mem_append, not_or] at hj
    rw [nulterminate, ihr hj.2, ihl hj.1]
  | back c ih => exact ih hj

/-- `nulterminate` writes a NUL at the end of every word. -/
theorem getD_nulterminate_of_mem {t : Cmd (ℕ × ℕ)} {buf : List Char} {j : ℕ}
    (hj : j ∈ t.words.map Prod.snd) : (nulterminate t buf).getD j '\x00' = '\x00' := by
  induction t generalizing buf with
  | exec argv => exact getD_foldl_set_of_mem hj
  | redir c file r ih =>
    rw [nulterminate, getD_set_nul]
    split_ifs with hf
    · rfl
    · simp only [Cmd.words, List.map_append, List.mem_append, List.map_cons, List.map_nil,
        List.mem_singleton] at hj
      exact ih (hj.resolve_right hf)
  | pipe l r ihl ihr =>
    rw [nulterminate]
    by_cases hr : j ∈ r.words.map Prod.snd
    · exact ihr hr
    · simp only [Cmd.words, List.map_append, List.mem_append] at hj
      rw [getD_nulterminate_of_not_mem hr, ihl (hj.resolve_right hr)]
  | list l r ihl ihr =>
    rw [nulterminate]
    by_cases hr : j ∈ r.words.map Prod.snd
    · exact ihr hr
    · simp only [Cmd.words, List.map_append, List.mem_append] at hj
      rw [getD_nulterminate_of_not_mem hr, ihl (hj.resolve_right hr)]
  | back c ih => exact ih hj

/-- The string at `q` is the run up to the first NUL, at `e`. -/
theorem cstr_eq {b : List Char} {q e : ℕ} (hqe : q ≤ e)
    (hne : ∀ j, q ≤ j → j < e → b.getD j '\x00' ≠ '\x00') (he : b.getD e '\x00' = '\x00') :
    cstr b q = slice b (q, e) := by
  induction h : e - q generalizing q with
  | zero =>
    obtain rfl : q = e := by omega
    simp only [cstr, slice, Nat.sub_self, List.take_zero]
    rcases Nat.lt_or_ge q b.length with hq | hq
    · rw [List.drop_eq_getElem_cons hq, List.takeWhile_cons]
      rw [List.getD_eq_getElem?_getD, List.getElem?_eq_getElem hq, Option.getD_some] at he
      simp [he]
    · simp [List.drop_eq_nil_of_le hq]
  | succ n ih =>
    have hq : b.getD q '\x00' ≠ '\x00' := hne q (Nat.le_refl q) (by omega)
    have hlen : q < b.length := by
      by_contra hlen
      exact hq (by simp [List.getD_eq_getElem?_getD, List.getElem?_eq_none (Nat.not_lt.1 hlen)])
    have ih' := ih (q := q + 1) (by omega) (fun j h1 h2 => hne j (by omega) h2) (by omega)
    rw [List.getD_eq_getElem?_getD, List.getElem?_eq_getElem hlen] at hq
    simp only [cstr, slice] at ih' ⊢
    rw [List.drop_eq_getElem_cons hlen, List.takeWhile_cons, if_pos (by simpa using hq), ih',
      show e - q = (e - (q + 1)) + 1 by omega, List.take_succ_cons]

/-- Two lines of one length that agree from `q` to `e` have the same slice there. -/
theorem slice_congr {b₁ b₂ : List Char} (hlen : b₁.length = b₂.length) {q e : ℕ}
    (h : ∀ j, q ≤ j → j < e → b₁.getD j '\x00' = b₂.getD j '\x00') :
    slice b₁ (q, e) = slice b₂ (q, e) := by
  apply List.ext_getElem?
  intro i
  simp only [slice, List.getElem?_take, List.getElem?_drop]
  split_ifs with hi
  · rcases Nat.lt_or_ge (q + i) b₁.length with hb | hb
    · have := h (q + i) (by omega) (by omega)
      rw [List.getD_eq_getElem?_getD, List.getD_eq_getElem?_getD, List.getElem?_eq_getElem hb,
        List.getElem?_eq_getElem (hlen ▸ hb), Option.getD_some, Option.getD_some] at this
      simp [List.getElem?_eq_getElem hb, List.getElem?_eq_getElem (hlen ▸ hb), this]
    · rw [List.getElem?_eq_none hb, List.getElem?_eq_none (hlen ▸ hb)]
  · rfl

/-- After `nulterminate`, every word of the tree that is a run of word characters reads as that
run: a NUL written at another word's end never falls inside it. -/
theorem cstr_nulterminate {t : Cmd (ℕ × ℕ)} {buf : List Char} {es : ℕ}
    (hspan : ∀ w ∈ t.words, Span buf es w) {w : ℕ × ℕ} (hw : w ∈ t.words) :
    cstr (nulterminate t buf) w.1 = slice buf w := by
  have hs := hspan w hw
  -- inside the word nothing was written
  have hkeep : ∀ j, w.1 ≤ j → j < w.2 →
      (nulterminate t buf).getD j '\x00' = buf.getD j '\x00' := by
    intro j h1 h2
    apply getD_nulterminate_of_not_mem
    simp only [List.mem_map, not_exists, not_and]
    intro w' hw' hj
    have hs' := hspan w' hw'
    have hle := hs.le
    have hlt : w'.2 < es := by omega
    exact hs'.stop hlt (hj ▸ hs.word j h1 h2)
  have hchar : ∀ j, j < es → charAt buf es j = buf.getD j '\x00' := fun j hj => if_pos hj
  rw [cstr_eq (e := w.2) (Nat.le_of_lt hs.lt), slice_congr (length_nulterminate t buf) hkeep]
  · intro j h1 h2
    rw [hkeep j h1 h2, ← hchar j (by have := hs.le; omega)]
    exact (hs.word j h1 h2).ne_nul
  · exact getD_nulterminate_of_mem (List.mem_map_of_mem hw)

end Nulterminate

end Xv6.Sh
