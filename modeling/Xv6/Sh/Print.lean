import Mathlib
import Xv6.Sh.Accept
import Xv6.Sh.Parse

/-!
# Printing a command tree, and parsing it back

The grammar of the shell's command trees: EXEC nodes of fewer than `MAXARGS` words, REDIR nodes
with a word as file, PIPE, LIST and BACK, every word a nonempty run of characters that are not
white space, NUL or symbols (`Cmd.Printable`). A tree is printed with full parenthesisation:
every operand of PIPE, LIST, BACK and REDIR other than an EXEC node in parentheses, the tokens
separated by single spaces (`Cmd.tokens`, `Cmd.render`).

The proof reads the printed line a token at a time. `At buf s ts` says that from `s` on the line
is the tokens `ts` separated by spaces; there `peek` sees the first character of `ts` and
`gettoken` returns its first token and leaves the line `At` the others (`At.peek`,
`At.gettoken`). Each parsing function then reads the tokens of a tree followed by a token it
stops at, and returns the tree, its words at their places in the line (`Reads`).

* `Cmd.tokens`, `Cmd.render`, `Cmd.Printable`;
* `At.peek`, `At.gettoken`: the lexer on a printed line;
* `parseredirs_at`, `execLoop_at`, `parsepipe_pipe`, `parseline_list`, …, `lineReads`: the
  parser on the tokens of a tree;
* `parsecmd_render`: parsecmd on a printed tree returns that tree, its words read as the
  NUL-terminated strings `nulterminate` leaves.
-/

namespace Xv6.Sh

/-- A word of the grammar: nonempty, of word characters. -/
def IsWord (w : List Char) : Prop := w ≠ [] ∧ ∀ c ∈ w, IsWordChar c

instance : DecidablePred IsWord := fun w =>
  -- through the list, not through every character, which `Decidable (∀ c : Char, _)` would try
  have : Decidable (∀ c ∈ w, IsWordChar c) := List.decidableBAll _ w
  inferInstanceAs (Decidable (_ ∧ _))

/-- The token of a redirection. -/
def Redir.token : Redir → List Char
  | .input => ['<']
  | .output => ['>']
  | .append => ['>', '>']

namespace Cmd

/-- The trees of the grammar. -/
def Printable : Cmd (List Char) → Prop
  | .exec argv => argv.length < MAXARGS ∧ ∀ w ∈ argv, IsWord w
  | .redir c file _ => c.Printable ∧ IsWord file
  | .pipe l r => l.Printable ∧ r.Printable
  | .list l r => l.Printable ∧ r.Printable
  | .back c => c.Printable

instance decPrintable : (c : Cmd (List Char)) → Decidable c.Printable
  | .exec _ => inferInstanceAs (Decidable (_ ∧ _))
  | .redir c _ _ =>
    have := decPrintable c
    inferInstanceAs (Decidable (_ ∧ _))
  | .pipe l r =>
    have := decPrintable l
    have := decPrintable r
    inferInstanceAs (Decidable (_ ∧ _))
  | .list l r =>
    have := decPrintable l
    have := decPrintable r
    inferInstanceAs (Decidable (_ ∧ _))
  | .back c => decPrintable c

/-- Whether a tree is an EXEC node. -/
def isExec {α : Type} : Cmd α → Bool
  | .exec _ => true
  | _ => false

/-- An operand as printed: an EXEC node as it is, any other tree in parentheses. -/
def paren (c : Cmd (List Char)) (ts : List (List Char)) : List (List Char) :=
  if c.isExec then ts else ['('] :: ts ++ [[')']]

/-- The tokens of a tree printed with full parenthesisation. -/
def tokens : Cmd (List Char) → List (List Char)
  | .exec argv => argv
  | .redir c file r => paren c c.tokens ++ [r.token, file]
  | .pipe l r => paren l l.tokens ++ ['|'] :: paren r r.tokens
  | .list l r => paren l l.tokens ++ [';'] :: paren r r.tokens
  | .back c => paren c c.tokens ++ [['&']]

/-- The printed line: the tokens, separated by single spaces. -/
def render (c : Cmd (List Char)) : List Char := [' '].intercalate c.tokens

end Cmd

/-! ### The lexer on a printed line -/

/-- The operators of the printed line. -/
def operators : List (List Char) := [['|'], ['('], [')'], [';'], ['&'], ['<'], ['>'], ['>', '>']]

/-- A token of the printed line: a word or an operator. -/
def IsToken (t : List Char) : Prop := IsWord t ∨ t ∈ operators

/-- The code `gettoken` returns for a token. -/
def code (t : List Char) : Char :=
  if t = ['>', '>'] then '+' else if t ∈ operators then t.headD '\x00' else 'a'

/-- The first character of a list of tokens; NUL for none. -/
def first : List (List Char) → Char
  | [] => '\x00'
  | t :: _ => t.headD '\x00'

@[simp] theorem first_cons_singleton (c : Char) (R : List (List Char)) : first ([c] :: R) = c :=
  rfl

/-- From `s` on, the line is the tokens `ts` separated by single spaces. -/
structure At (buf : List Char) (s : ℕ) (ts : List (List Char)) : Prop where
  drop : buf.drop s = [' '].intercalate ts
  le : s ≤ buf.length
  tokens : ∀ t ∈ ts, IsToken t

theorem intercalate_cons (t : List Char) (ts : List (List Char)) :
    [' '].intercalate (t :: ts) = t ++ (if ts = [] then [] else ' ' :: [' '].intercalate ts) := by
  cases ts with
  | nil => simp
  | cons t' ts => simp [List.intercalate_cons_cons]

section Lexer

variable {buf : List Char} {s : ℕ} {t : List Char} {ts : List (List Char)}

theorem charAt_of_drop {l : List Char} (h : buf.drop s = l) (i : ℕ) :
    charAt buf buf.length (s + i) = l.getD i '\x00' := by
  rw [← h]
  simp only [charAt, List.getD_eq_getElem?_getD, List.getElem?_drop]
  split_ifs with hi
  · rfl
  · rw [List.getElem?_eq_none (by omega)]
    rfl

theorem IsToken.ne_nil (h : IsToken t) : t ≠ [] := by
  rcases h with h | h
  · exact h.1
  · simp only [operators, List.mem_cons, List.not_mem_nil, or_false] at h
    rcases h with rfl | rfl | rfl | rfl | rfl | rfl | rfl | rfl <;> simp

/-- A token starts with a character that is neither white space nor NUL. -/
theorem IsToken.head (h : IsToken t) :
    strchr whitespace (t.headD '\x00') = false := by
  rcases h with h | h
  · obtain ⟨c, t, rfl⟩ := List.exists_cons_of_ne_nil h.1
    exact (h.2 c (List.mem_cons_self ..)).1
  · simp only [operators, List.mem_cons, List.not_mem_nil, or_false] at h
    rcases h with rfl | rfl | rfl | rfl | rfl | rfl | rfl | rfl <;> decide

theorem At.charAt_eq (h : At buf s ts) : charAt buf buf.length s = first ts := by
  have := charAt_of_drop h.drop 0
  rw [Nat.add_zero] at this
  rw [this]
  cases ts with
  | nil => rfl
  | cons t ts =>
    obtain ⟨c, t, rfl⟩ := List.exists_cons_of_ne_nil (h.tokens _ (List.mem_cons_self ..)).ne_nil
    rw [intercalate_cons]
    rfl

theorem At.skip_eq (h : At buf s ts) : skipWhitespace buf buf.length s = s := by
  rw [skipWhitespace, if_neg]
  rintro ⟨hs, hws⟩
  rw [h.charAt_eq] at hws
  cases ts with
  | nil =>
    -- nothing is left of the line
    have hd := h.drop
    rw [List.intercalate_nil, List.drop_eq_nil_iff] at hd
    omega
  | cons t ts => exact Bool.false_ne_true ((h.tokens t (List.mem_cons_self ..)).head ▸ hws)

theorem At.peek_eq (h : At buf s ts) (toks : List Char) :
    peek buf buf.length s toks = (first ts != '\x00' && strchr toks (first ts), s) := by
  simp only [peek, h.skip_eq, h.charAt_eq]

theorem At.after (h : At buf s (t :: ts)) :
    buf.drop (s + t.length) = (if ts = [] then [] else ' ' :: [' '].intercalate ts) := by
  rw [← List.drop_drop, h.drop, intercalate_cons, List.drop_left]

theorem At.le_length (h : At buf s (t :: ts)) : s + t.length ≤ buf.length := by
  have := congrArg List.length h.drop
  rw [intercalate_cons, List.length_append, List.length_drop] at this
  have := h.le
  omega

/-- The character after a token is a space, or the end of the line. -/
theorem At.charAt_after (h : At buf s (t :: ts)) :
    charAt buf buf.length (s + t.length) = if ts = [] then '\x00' else ' ' := by
  have := charAt_of_drop h.after 0
  rw [Nat.add_zero] at this
  rw [this]
  split_ifs <;> rfl

/-- After a token, the line is `At` the other tokens once the space is skipped. -/
theorem At.next (h : At buf s (t :: ts)) :
    At buf (skipWhitespace buf buf.length (s + t.length)) ts := by
  have hd := h.after
  have htoks : ∀ t' ∈ ts, IsToken t' := fun t' ht' => h.tokens t' (List.mem_cons_of_mem _ ht')
  have hle := h.le_length
  by_cases hts : ts = []
  · subst hts
    rw [if_pos rfl, List.drop_eq_nil_iff] at hd
    have hend : s + t.length = buf.length := by omega
    have hskip : skipWhitespace buf buf.length buf.length = buf.length := by
      rw [skipWhitespace, if_neg (fun h => Nat.lt_irrefl _ h.1)]
    rw [hend, hskip]
    exact ⟨by simp, Nat.le_refl _, htoks⟩
  · rw [if_neg hts] at hd
    -- one space, then the next token
    have hlt : s + t.length < buf.length := by
      by_contra hge
      rw [List.drop_eq_nil_of_le (by omega)] at hd
      exact List.cons_ne_nil _ _ hd.symm
    have hA : At buf (s + t.length + 1) ts :=
      ⟨by rw [← List.drop_drop, hd]; rfl, hlt, htoks⟩
    have hsp : charAt buf buf.length (s + t.length) = ' ' := by
      rw [h.charAt_after, if_neg hts]
    rw [skipWhitespace, if_pos ⟨hlt, by rw [hsp]; decide⟩, hA.skip_eq]
    exact hA

/-- `scanWord` runs to the end of a run of word characters. -/
theorem scanWord_run {es n : ℕ} (hw : ∀ i < n, IsWordChar (charAt buf es (s + i)))
    (hle : s + n ≤ es) (hstop : s + n < es → ¬ IsWordChar (charAt buf es (s + n))) :
    scanWord buf es s = s + n := by
  induction n generalizing s with
  | zero =>
    rw [scanWord, if_neg (fun h => hstop h.1 h.2)]
    rfl
  | succ n ih =>
    have h0 := hw 0 (Nat.succ_pos n)
    rw [Nat.add_zero] at h0
    rw [scanWord, if_pos ⟨by omega, h0⟩,
      ih (fun i hi => by simpa [Nat.add_assoc, Nat.add_comm 1] using hw (i + 1) (by omega))
        (by omega) (by simpa [Nat.add_assoc, Nat.add_comm 1] using hstop)]
    omega

/-- The characters of a word read at its place. -/
theorem At.charAt_word (h : At buf s (t :: ts)) {i : ℕ} (hi : i < t.length) :
    charAt buf buf.length (s + i) = t[i] := by
  rw [charAt_of_drop h.drop i, intercalate_cons, List.getD_eq_getElem?_getD,
    List.getElem?_append_left hi, List.getElem?_eq_getElem hi]
  rfl

/-- A word token is a `Span` of the line, and reads as itself. -/
theorem At.span (h : At buf s (t :: ts)) (hw : IsWord t) :
    Span buf buf.length (s, s + t.length) ∧ slice buf (s, s + t.length) = t := by
  have hlen : 0 < t.length := List.length_pos_iff.2 hw.1
  refine ⟨⟨by simpa using hlen, h.le_length, fun j h1 h2 => ?_, fun _ => ?_⟩, ?_⟩
  · obtain ⟨i, rfl⟩ := Nat.exists_eq_add_of_le h1
    rw [h.charAt_word (by simp at h2; omega)]
    exact hw.2 _ (List.getElem_mem _)
  · rw [h.charAt_after]
    split_ifs <;> decide
  · simp only [slice, Nat.add_sub_cancel_left, h.drop, intercalate_cons, List.take_left']

/-- gettoken's switch on a token of the line: its code, and its end. -/
theorem At.scanToken_eq (h : At buf s (t :: ts)) :
    scanToken buf buf.length s = (code t, s + t.length) := by
  have ht := h.tokens t (List.mem_cons_self ..)
  have hc : charAt buf buf.length s = t.headD '\x00' := h.charAt_eq
  rcases ht with hw | hop
  · -- a word: gettoken's default case
    obtain ⟨c, t', rfl⟩ := List.exists_cons_of_ne_nil hw.1
    have hwc : IsWordChar c := hw.2 c (List.mem_cons_self ..)
    have hsym : c ∉ symbols := by
      intro hc'
      have := hwc.2
      simp [strchr, hc'] at this
    have hnot : (c :: t') ∉ operators := by
      intro hm
      simp only [operators, List.mem_cons, List.not_mem_nil, or_false] at hm
      rcases hm with h' | h' | h' | h' | h' | h' | h' | h' <;>
        (obtain ⟨rfl, -⟩ := List.cons.inj h'; exact hsym (by decide))
    have hne : c ≠ '\x00' := hwc.ne_nul
    have hcode : code (c :: t') = 'a' := by
      rw [code, if_neg (fun h' => hnot (by rw [h']; decide)), if_neg hnot]
    rw [hcode]
    simp only [scanToken, hc, List.headD_cons]
    have hsym' : c ∉ ['|', '(', ')', ';', '&', '<'] := by
      intro h'
      apply hsym
      simp only [List.mem_cons, List.not_mem_nil, or_false] at h'
      simp only [symbols, List.mem_cons, List.not_mem_nil, or_false]
      tauto
    rw [if_neg hne, if_neg hsym', if_neg (fun h' => hsym (by rw [h']; decide))]
    congr 1
    apply scanWord_run
    · intro i hi
      rw [h.charAt_word hi]
      exact hw.2 _ (List.getElem_mem _)
    · exact h.le_length
    · intro _
      rw [h.charAt_after]
      split_ifs <;> decide
  · -- an operator
    have h1 : charAt buf buf.length (s + 1) = ([' '].intercalate (t :: ts)).getD 1 '\x00' :=
      charAt_of_drop h.drop 1
    rw [intercalate_cons] at h1
    have hafter := h.charAt_after
    simp only [operators, List.mem_cons, List.not_mem_nil, or_false] at hop
    rcases hop with rfl | rfl | rfl | rfl | rfl | rfl | rfl | rfl <;>
      simp only [List.headD_cons] at hc <;> simp only [scanToken, hc]
    -- the operators of one character other than `>`
    all_goals first | (simp [code, operators]; done) | skip
    · -- `>` alone: the next character is a space or the end
      simp only [List.length_singleton] at hafter
      rw [hafter]
      split_ifs <;> simp_all [code, operators]
    · -- `>>`
      simp only [List.cons_append, List.getD_cons_succ, List.getD_cons_zero] at h1
      simp [h1, code]

theorem At.gettoken_eq (h : At buf s (t :: ts)) :
    gettoken buf buf.length s =
      ⟨code t, s, s + t.length, skipWhitespace buf buf.length (s + t.length)⟩ := by
  simp only [gettoken, h.skip_eq, h.scanToken_eq]

theorem code_word (hw : IsWord t) : code t = 'a' := by
  obtain ⟨c, t', rfl⟩ := List.exists_cons_of_ne_nil hw.1
  have hwc : IsWordChar c := hw.2 c (List.mem_cons_self ..)
  have hnot : (c :: t') ∉ operators := by
    intro hm
    have hsym := hwc.2
    simp only [operators, List.mem_cons, List.not_mem_nil, or_false] at hm
    rcases hm with h' | h' | h' | h' | h' | h' | h' | h' <;>
      (obtain ⟨rfl, -⟩ := List.cons.inj h'; exact absurd hsym (by decide))
  rw [code, if_neg (fun h' => hnot (by rw [h']; decide)), if_neg hnot]

theorem code_token (k : Redir) : code k.token = match k with
    | .input => '<'
    | .output => '>'
    | .append => '+' := by
  cases k <;> decide

/-- At the end of the line `gettoken` returns NUL and stays. -/
theorem At.gettoken_nil (h : At buf s []) : gettoken buf buf.length s = ⟨'\x00', s, s, s⟩ := by
  have hc : charAt buf buf.length s = '\x00' := h.charAt_eq
  simp only [gettoken, h.skip_eq, scanToken, hc, if_pos]

end Lexer

/-! ### The parser, one function at a time -/

/-- The tree `t` the parser built has, at its places in the line, the words of `c`. -/
structure Reads (buf : List Char) (t : Cmd (ℕ × ℕ)) (c : Cmd (List Char)) : Prop where
  map : t.map (slice buf) = c
  span : ∀ w ∈ t.words, Span buf buf.length w

namespace Reads

variable {buf : List Char} {t t₁ t₂ : Cmd (ℕ × ℕ)} {c c₁ c₂ : Cmd (List Char)}

theorem exec_nil : Reads buf (.exec []) (.exec []) :=
  ⟨rfl, by simp [Cmd.words]⟩

theorem exec_append {argv : List (ℕ × ℕ)} {A : List (List Char)} {w : ℕ × ℕ} {f : List Char}
    (h : Reads buf (.exec argv) (.exec A)) (hw : Span buf buf.length w) (hf : slice buf w = f) :
    Reads buf (.exec (argv ++ [w])) (.exec (A ++ [f])) := by
  refine ⟨?_, ?_⟩
  · have := h.map
    simp only [Cmd.map, Cmd.exec.injEq] at this ⊢
    rw [List.map_append, this, List.map_singleton, hf]
  · simp only [Cmd.words, List.mem_append, List.mem_singleton]
    rintro x (hx | rfl)
    exacts [h.span x hx, hw]

theorem redir (k : Redir) {w : ℕ × ℕ} {f : List Char} (h : Reads buf t c)
    (hw : Span buf buf.length w) (hf : slice buf w = f) : Reads buf (.redir t w k) (.redir c f k) := by
  refine ⟨by rw [Cmd.map, h.map, hf], ?_⟩
  simp only [Cmd.words, List.mem_append, List.mem_singleton]
  rintro x (hx | rfl)
  exacts [h.span x hx, hw]

theorem pipe (h₁ : Reads buf t₁ c₁) (h₂ : Reads buf t₂ c₂) :
    Reads buf (.pipe t₁ t₂) (.pipe c₁ c₂) := by
  refine ⟨by rw [Cmd.map, h₁.map, h₂.map], ?_⟩
  simp only [Cmd.words, List.mem_append]
  rintro x (hx | hx)
  exacts [h₁.span x hx, h₂.span x hx]

theorem list (h₁ : Reads buf t₁ c₁) (h₂ : Reads buf t₂ c₂) :
    Reads buf (.list t₁ t₂) (.list c₁ c₂) := by
  refine ⟨by rw [Cmd.map, h₁.map, h₂.map], ?_⟩
  simp only [Cmd.words, List.mem_append]
  rintro x (hx | hx)
  exacts [h₁.span x hx, h₂.span x hx]

theorem back (h : Reads buf t c) : Reads buf (.back t) (.back c) :=
  ⟨by rw [Cmd.map, h.map], h.span⟩

/-- The words parseexec collected, written into the tree it built. -/
theorem setArgv {argv : List (ℕ × ℕ)} {A : List (List Char)} (h : Reads buf t c)
    (ha : Reads buf (.exec argv) (.exec A)) : Reads buf (t.setArgv argv) (c.setArgv A) := by
  refine ⟨?_, fun w hw => ?_⟩
  · have := ha.map
    simp only [Cmd.map, Cmd.exec.injEq] at this
    rw [Cmd.map_setArgv, h.map, this]
  · rcases Cmd.mem_words_setArgv hw with hw | hw
    exacts [ha.span w hw, h.span w hw]

end Reads

/-- `peek` on a character it looks for. -/
theorem peek_of_mem {c : Char} {toks : List Char} (h0 : c ≠ '\x00') (h : c ∈ toks) :
    (c != '\x00' && strchr toks c) = true := by
  simp [strchr, h0, h]

/-- `peek` on a character it does not look for. -/
theorem peek_of_not_mem {c : Char} {toks : List Char} (h : c ∉ toks) :
    (c != '\x00' && strchr toks c) = false := by
  by_cases h0 : c = '\x00'
  · simp [h0]
  · simp [strchr, h0, h]

/-- The parse succeeds, and its tree and end satisfy `P`. -/
def Yields {s : ℕ} (e : Except String (Parsed s)) (P : Cmd (ℕ × ℕ) → ℕ → Prop) : Prop :=
  ∃ r, e = .ok r ∧ P r.cmd r.next

namespace Yields

variable {s : ℕ} {P Q : Cmd (ℕ × ℕ) → ℕ → Prop}

theorem ok {r : Parsed s} (h : P r.cmd r.next) : Yields (.ok r) P :=
  ⟨r, rfl, h⟩

theorem lift {t : ℕ} (hst : s ≤ t) {e : Except String (Parsed t)} (he : Yields e P) :
    Yields (e.map (Parsed.lift hst)) P := by
  obtain ⟨r, rfl, h⟩ := he
  exact ⟨r.lift hst, rfl, h⟩

theorem bind {t : ℕ} {e : Except String (Parsed s)} {f : Parsed s → Except String (Parsed t)}
    (he : Yields e P) (hf : ∀ r : Parsed s, P r.cmd r.next → Yields (f r) Q) :
    Yields (e >>= f) Q := by
  obtain ⟨r, rfl, h⟩ := he
  exact hf r h

theorem mono {e : Except String (Parsed s)} (he : Yields e P) (h : ∀ t n, P t n → Q t n) :
    Yields e Q := by
  obtain ⟨r, hr, hP⟩ := he
  exact ⟨r, hr, h _ _ hP⟩

end Yields

/-- The tokens of the redirection printed after an operand, if any. -/
def redirTokens : Option (Redir × List Char) → List (List Char)
  | none => []
  | some (k, f) => [k.token, f]

/-- An operand under its redirection, if any. -/
def withRedir : Option (Redir × List Char) → Cmd (List Char) → Cmd (List Char)
  | none, c => c
  | some (k, f), c => .redir c f k

/-- The characters parseexec's loop stops at: `|`, `)`, `&`, `;` and the end of the line. -/
def execStops : List Char := ['\x00', '|', ')', '&', ';']

theorem not_redir_of_mem_execStops {c : Char} (h : c ∈ execStops) : c ∉ ['<', '>'] := by
  simp only [execStops, List.mem_cons, List.not_mem_nil, or_false] at h
  rcases h with rfl | rfl | rfl | rfl | rfl <;> decide

theorem not_lparen_of_mem_execStops {c : Char} (h : c ∈ execStops) : c ∉ ['('] := by
  simp only [execStops, List.mem_cons, List.not_mem_nil, or_false] at h
  rcases h with rfl | rfl | rfl | rfl | rfl <;> decide

theorem withRedir_exec_setArgv (rd : Option (Redir × List Char)) (A W : List (List Char)) :
    (withRedir rd (.exec A)).setArgv W = withRedir rd (.exec W) := by
  rcases rd with _ | ⟨k, f⟩ <;> rfl

theorem Reads.iterate_back {buf : List Char} {t : Cmd (ℕ × ℕ)} {c : Cmd (List Char)}
    (h : Reads buf t c) (k : ℕ) : Reads buf (Nat.iterate Cmd.back k t) (Nat.iterate Cmd.back k c) := by
  induction k generalizing t c with
  | zero => exact h
  | succ k ih => exact ih h.back

section Steps

variable {buf : List Char} {s : ℕ} {t : List Char} {R : List (List Char)}

theorem At.peek_snd (h : At buf s R) (toks : List Char) : (peek buf buf.length s toks).2 = s := by
  rw [h.peek_eq]

theorem At.gettoken_next (h : At buf s (t :: R)) :
    (gettoken buf buf.length s).next = skipWhitespace buf buf.length (s + t.length) := by
  rw [h.gettoken_eq]

/-- `peek` moves over no token, so the line is still `At` the same tokens. -/
theorem At.after_peek (h : At buf s R) (toks : List Char) :
    At buf (peek buf buf.length s toks).2 R := by
  rw [h.peek_snd]
  exact h

/-- After `gettoken`, the line is `At` the other tokens. -/
theorem At.next_gettoken (h : At buf s (t :: R)) : At buf (gettoken buf buf.length s).next R := by
  rw [h.gettoken_next]
  exact h.next

/-- The token after a `peek`, as every parsing function reads it. -/
theorem At.gettoken_peek (h : At buf s (t :: R)) (toks : List Char) :
    gettoken buf buf.length (peek buf buf.length s toks).2 =
      ⟨code t, s, s + t.length, skipWhitespace buf buf.length (s + t.length)⟩ := by
  rw [h.peek_snd, h.gettoken_eq]

theorem At.next_peek_gettoken (h : At buf s (t :: R)) (toks : List Char) :
    At buf (gettoken buf buf.length (peek buf buf.length s toks).2).next R := by
  rw [h.peek_snd]
  exact h.next_gettoken

theorem At.first_ne_nul (h : At buf s (t :: R)) : first (t :: R) ≠ '\x00' := by
  intro h0
  have := (h.tokens t (List.mem_cons_self ..)).head
  rw [show t.headD '\x00' = '\x00' from h0] at this
  exact absurd this (by decide)

theorem At.peek_fst_true (h : At buf s (t :: R)) {toks : List Char} (hm : first (t :: R) ∈ toks) :
    (peek buf buf.length s toks).1 = true := by
  rw [h.peek_eq, peek_of_mem h.first_ne_nul hm]

theorem At.peek_fst_false (h : At buf s R) {toks : List Char} (hm : first R ∉ toks) :
    (peek buf buf.length s toks).1 = false := by
  rw [h.peek_eq, peek_of_not_mem hm]

/-- A line `At` tokens whose first character is NUL is at its end. -/
theorem At.eq_nil (h : At buf s R) (h0 : first R = '\x00') : R = [] := by
  cases R with
  | nil => rfl
  | cons t R => exact absurd h0 h.first_ne_nul

theorem first_append {ts : List (List Char)} (h : ts ≠ []) (R : List (List Char)) :
    first (ts ++ R) = first ts := by
  obtain ⟨t, ts, rfl⟩ := List.exists_cons_of_ne_nil h
  rfl

theorem IsWord.first (hw : IsWord t) : IsWordChar (first (t :: R)) := by
  obtain ⟨c, t, rfl⟩ := List.exists_cons_of_ne_nil hw.1
  exact hw.2 c (List.mem_cons_self ..)

/-- A word character is none of the symbols `peek` looks for. -/
theorem IsWordChar.not_mem {c : Char} (h : IsWordChar c) {toks : List Char}
    (hs : toks ⊆ symbols) : c ∉ toks := by
  intro hc
  have := h.2
  simp [strchr, hs hc] at this

/-- parseredirs where no redirection follows. -/
theorem parseredirs_none (h : At buf s R) (hR : first R ∉ ['<', '>']) (cmd : Cmd (ℕ × ℕ)) :
    parseredirs buf buf.length cmd s = .ok ⟨cmd, s, Nat.le_refl s⟩ := by
  rw [parseredirs, dif_neg (by rw [h.peek_eq, peek_of_not_mem hR]; simp)]
  simp only [h.peek_eq]
  rfl

/-- parseredirs over one redirection and its file, before a token that is not a redirection. -/
theorem parseredirs_one {k : Redir} {f : List Char} (h : At buf s (k.token :: f :: R))
    (hf : IsWord f) (hR : first R ∉ ['<', '>']) (cmd : Cmd (ℕ × ℕ)) :
    ∃ r, parseredirs buf buf.length cmd s = .ok r ∧ At buf r.next R ∧
      ∃ w, r.cmd = .redir cmd w k ∧ Span buf buf.length w ∧ slice buf w = f := by
  have hk : first (k.token :: f :: R) ≠ '\x00' ∧ first (k.token :: f :: R) ∈ ['<', '>'] := by
    cases k <;> simp [first, Redir.token]
  have h₁ := h.next
  have h₂ := h₁.next
  -- the file's end, where the loop goes on
  have hX : At buf (gettoken buf buf.length
      (gettoken buf buf.length (peek buf buf.length s ['<', '>']).2).next).next R := by
    rw [h.peek_snd, h.gettoken_next, h₁.gettoken_next]
    exact h₂
  rw [parseredirs, dif_pos (by rw [h.peek_eq, peek_of_mem hk.1 hk.2])]
  simp only [h.peek_eq, h.gettoken_eq, h₁.gettoken_eq, code_word hf, ne_eq, not_true_eq_false,
    if_false]
  rw [parseredirs_none hX hR, except_map_ok]
  refine ⟨_, rfl, hX, _, ?_, h₁.span hf⟩
  cases k <;> simp [code_token]

/-- parseredirs over the redirection printed after an operand. -/
theorem parseredirs_at {rd : Option (Redir × List Char)} {cmd : Cmd (ℕ × ℕ)} {c : Cmd (List Char)}
    (h : At buf s (redirTokens rd ++ R)) (hrd : ∀ x ∈ rd, IsWord x.2) (hR : first R ∉ ['<', '>'])
    (hc : Reads buf cmd c) :
    Yields (parseredirs buf buf.length cmd s) fun t n => At buf n R ∧ Reads buf t (withRedir rd c) := by
  cases rd with
  | none =>
    rw [parseredirs_none h hR cmd]
    exact Yields.ok ⟨h, hc⟩
  | some x =>
    obtain ⟨k, f⟩ := x
    obtain ⟨r, hr, hA, w, hcmd, hw, hf⟩ := parseredirs_one h (hrd _ rfl) hR cmd
    exact ⟨r, hr, hA, by rw [hcmd]; exact hc.redir k hw hf⟩

/-- parseexec's loop at a token it stops at: the words it has are written into the tree. -/
theorem execLoop_stop (h : At buf s R) (hR : first R ∈ execStops) (ret : Cmd (ℕ × ℕ))
    (argv : List (ℕ × ℕ)) :
    Yields (execLoop buf buf.length ret argv s) fun t n => At buf n R ∧ t = ret.setArgv argv := by
  rw [execLoop]
  dsimp only
  by_cases h0 : first R = '\x00'
  · -- the end of the line: `peek` fails and `gettoken` returns 0
    obtain rfl := h.eq_nil h0
    have hg := h.gettoken_nil
    rw [h.peek_fst_false (by simp [first]), if_neg (by decide), dif_pos (by rw [h.peek_snd, hg])]
    refine Yields.ok ⟨?_, rfl⟩
    dsimp only
    rw [h.peek_snd, hg]
    exact h
  · -- one of `|`, `)`, `&`, `;`
    cases R with
    | nil => exact absurd rfl h0
    | cons t R => ?_
    have hm : first (t :: R) ∈ ['|', ')', '&', ';'] := by
      simp only [execStops, List.mem_cons, List.not_mem_nil, or_false] at hR h0 ⊢
      tauto
    rw [h.peek_fst_true hm, if_pos rfl]
    exact Yields.ok ⟨h.after_peek ['|', ')', '&', ';'], rfl⟩

/-- One turn of parseexec's loop over a word: the word joins `argv`, the redirections after it
are read, and the loop goes on. -/
theorem execLoop_word {w : List Char} {ret : Cmd (ℕ × ℕ)} {argv : List (ℕ × ℕ)}
    {P Q : Cmd (ℕ × ℕ) → ℕ → Prop} (h : At buf s (w :: R)) (hw : IsWord w)
    (hlen : argv.length + 1 < MAXARGS)
    (hredirs : ∀ s', At buf s' R → Yields (parseredirs buf buf.length ret s') P)
    (hloop : ∀ t n, P t n →
      Yields (execLoop buf buf.length t (argv ++ [(s, s + w.length)]) n) Q) :
    Yields (execLoop buf buf.length ret argv s) Q := by
  have hg := h.gettoken_peek ['|', ')', '&', ';']
  rw [execLoop]
  dsimp only
  rw [h.peek_fst_false (hw.first.not_mem (by decide)), if_neg (by decide)]
  simp only [hg, code_word hw]
  rw [dif_neg (by decide), if_neg (by decide),
    if_neg (by rw [List.length_append, List.length_singleton]; omega)]
  refine Yields.bind (hredirs _ (h.next_peek_gettoken _)) fun r hr => ?_
  exact Yields.bind (hloop _ _ hr) fun r' hr' => Yields.ok hr'

/-- parseexec's loop over the words `ws` of an EXEC node and the redirection `rd` printed after
them, up to a token it stops at. The loop keeps that `ret` reads `c` and the words so far, `argv`,
read `A`; once the last word is read, so is the redirection. -/
theorem execLoop_at (hR : first R ∈ execStops) (ws : List (List Char)) :
    ∀ (rd : Option (Redir × List Char)) (argv : List (ℕ × ℕ)) (A : List (List Char))
      (ret : Cmd (ℕ × ℕ)) (c : Cmd (List Char)) (s : ℕ),
      At buf s (ws ++ (redirTokens rd ++ R)) → (∀ w ∈ ws, IsWord w) → (∀ x ∈ rd, IsWord x.2) →
      (ws = [] → rd = none) → argv.length + ws.length < MAXARGS →
      Reads buf ret c → Reads buf (.exec argv) (.exec A) →
      Yields (execLoop buf buf.length ret argv s) fun t n =>
        At buf n R ∧ Reads buf t ((withRedir rd c).setArgv (A ++ ws)) := by
  induction ws with
  | nil =>
    intro rd argv A ret c s h _ _ hrd _ hc ha
    obtain rfl := hrd rfl
    refine (execLoop_stop h hR ret argv).mono fun t n hres => ⟨hres.1, ?_⟩
    rw [hres.2, List.append_nil]
    exact hc.setArgv ha
  | cons w ws ih =>
    intro rd argv A ret c s h hws hrdw _ hlen hc ha
    have hw := hws w (List.mem_cons_self ..)
    have hws' : ∀ w ∈ ws, IsWord w := fun w' h' => hws w' (List.mem_cons_of_mem _ h')
    have hsp := h.span hw
    have hlen' : argv.length + 1 + ws.length < MAXARGS := by
      rw [List.length_cons] at hlen
      omega
    have ha' := ha.exec_append hsp.1 hsp.2
    cases ws with
    | nil =>
      -- the last word: its redirection follows
      refine execLoop_word h hw (by omega)
        (fun s' hs' =>
          have hs'' : At buf s' (redirTokens rd ++ R) := hs'
          parseredirs_at hs'' hrdw (not_redir_of_mem_execStops hR) hc)
        fun t n hres => ?_
      obtain ⟨hA, ht⟩ := hres
      refine (ih none _ _ t _ n hA hws' (by simp) (fun _ => rfl)
        (by rw [List.length_append, List.length_singleton]; omega) ht ha').mono
        fun t' n' hres' => ⟨hres'.1, ?_⟩
      obtain ⟨-, ht'⟩ := hres'
      rw [List.append_nil] at ht'
      exact ht'
    | cons w' ws =>
      -- another word follows, not a redirection
      have hnr : first (w' :: (ws ++ (redirTokens rd ++ R))) ∉ ['<', '>'] :=
        (hws' w' (List.mem_cons_self ..)).first.not_mem (by decide)
      refine execLoop_word h hw (by omega)
        (fun s' hs' =>
          have hs'' : At buf s' (redirTokens none ++ (w' :: ws ++ (redirTokens rd ++ R))) := hs'
          parseredirs_at hs'' (by simp) hnr hc)
        fun t n hres => ?_
      obtain ⟨hA, ht⟩ := hres
      refine (ih rd _ _ t c n hA hws' hrdw (fun h => absurd h (List.cons_ne_nil _ _))
        (by rw [List.length_append, List.length_singleton]; omega) ht ha').mono
        fun t' n' hres' => ⟨hres'.1, ?_⟩
      obtain ⟨-, ht'⟩ := hres'
      rw [List.append_assoc, List.singleton_append] at ht'
      exact ht'

/-- parseline's loop `while(peek(ps, es, "&"))` over `k` ampersands. -/
theorem parseBacks_at (hR : first R ≠ '&') (k : ℕ) :
    ∀ (cmd : Cmd (ℕ × ℕ)) (s : ℕ), At buf s (List.replicate k ['&'] ++ R) →
      At buf (parseBacks buf buf.length cmd s).next R ∧
        (parseBacks buf buf.length cmd s).cmd = Nat.iterate Cmd.back k cmd := by
  induction k with
  | zero =>
    intro cmd s h
    rw [parseBacks]
    dsimp only
    rw [dif_neg (by rw [h.peek_fst_false (by simpa using hR)]; decide)]
    exact ⟨h.after_peek ['&'], rfl⟩
  | succ k ih =>
    intro cmd s h
    have h' : At buf s (['&'] :: (List.replicate k ['&'] ++ R)) := h
    rw [parseBacks]
    dsimp only
    rw [dif_pos (h'.peek_fst_true (by simp))]
    exact ih (.back cmd) _ (h'.next_peek_gettoken ['&'])

/-- parsepipe on a command before a token that is not `|`. -/
theorem parsepipe_last {c : Cmd (List Char)}
    (he : Yields (parseexec buf buf.length s) fun t n => At buf n R ∧ Reads buf t c)
    (hR : first R ≠ '|') :
    Yields (parsepipe buf buf.length s) fun t n => At buf n R ∧ Reads buf t c := by
  rw [parsepipe]
  refine Yields.bind he fun r hres => ?_
  obtain ⟨hA, hc⟩ := hres
  dsimp only
  rw [dif_neg (by rw [hA.peek_fst_false (by simpa using hR)]; decide)]
  exact Yields.ok ⟨hA.after_peek ['|'], hc⟩

/-- parsepipe on a command, `|` and a pipeline. -/
theorem parsepipe_pipe {c₁ c₂ : Cmd (List Char)} {R' : List (List Char)}
    (he : Yields (parseexec buf buf.length s) fun t n => At buf n (['|'] :: R) ∧ Reads buf t c₁)
    (hr : ∀ s', At buf s' R →
      Yields (parsepipe buf buf.length s') fun t n => At buf n R' ∧ Reads buf t c₂) :
    Yields (parsepipe buf buf.length s) fun t n => At buf n R' ∧ Reads buf t (.pipe c₁ c₂) := by
  rw [parsepipe]
  refine Yields.bind he fun r hres => ?_
  obtain ⟨hA, hc₁⟩ := hres
  dsimp only
  rw [dif_pos (hA.peek_fst_true (by simp))]
  exact Yields.bind (hr _ (hA.next_peek_gettoken ['|'])) fun r' hres' =>
    Yields.ok ⟨hres'.1, hc₁.pipe hres'.2⟩

/-- parseline on a pipeline and `k` ampersands, before a token that is neither `&` nor `;`. -/
theorem parseline_end {c : Cmd (List Char)} (k : ℕ)
    (he : Yields (parsepipe buf buf.length s) fun t n =>
      At buf n (List.replicate k ['&'] ++ R) ∧ Reads buf t c)
    (hR : first R ∉ ['&', ';']) :
    Yields (parseline buf buf.length s) fun t n => At buf n R ∧ Reads buf t (Nat.iterate Cmd.back k c) := by
  rw [parseline]
  refine Yields.bind he fun r hres => ?_
  obtain ⟨hA, hc⟩ := hres
  obtain ⟨hB, hcmd⟩ := parseBacks_at (fun h => hR (by rw [h]; decide)) k r.cmd r.next hA
  have hB' : At buf ((parseBacks buf buf.length r.cmd r.next).lift r.le).next R := hB
  dsimp only
  rw [dif_neg (by rw [hB'.peek_fst_false (fun h => hR (by simp_all))]; decide)]
  refine Yields.ok ⟨hB'.after_peek [';'], ?_⟩
  dsimp only
  rw [Parsed.lift_cmd, hcmd]
  exact hc.iterate_back k

/-- parseline on a pipeline, `k` ampersands, `;` and a line. -/
theorem parseline_list {c₁ c₂ : Cmd (List Char)} {R' : List (List Char)} (k : ℕ)
    (he : Yields (parsepipe buf buf.length s) fun t n =>
      At buf n (List.replicate k ['&'] ++ [';'] :: R) ∧ Reads buf t c₁)
    (hr : ∀ s', At buf s' R →
      Yields (parseline buf buf.length s') fun t n => At buf n R' ∧ Reads buf t c₂) :
    Yields (parseline buf buf.length s) fun t n =>
      At buf n R' ∧ Reads buf t (.list (Nat.iterate Cmd.back k c₁) c₂) := by
  rw [parseline]
  refine Yields.bind he fun r hres => ?_
  obtain ⟨hA, hc₁⟩ := hres
  obtain ⟨hB, hcmd⟩ := parseBacks_at (by simp) k r.cmd r.next hA
  have hB' : At buf ((parseBacks buf buf.length r.cmd r.next).lift r.le).next ([';'] :: R) := hB
  dsimp only
  rw [dif_pos (hB'.peek_fst_true (by simp))]
  refine Yields.bind (hr _ (hB'.next_peek_gettoken [';'])) fun r' hres' => Yields.ok ⟨hres'.1, ?_⟩
  dsimp only
  rw [Parsed.lift_cmd, hcmd]
  exact (hc₁.iterate_back k).list hres'.2

/-- parseexec on the words of an EXEC node and the redirection after them, before a token that
ends the node. -/
theorem parseexec_words {W : List (List Char)} {rd : Option (Redir × List Char)}
    (h : At buf s (W ++ (redirTokens rd ++ R))) (hW : ∀ w ∈ W, IsWord w) (hlen : W.length < MAXARGS)
    (hrd : ∀ x ∈ rd, IsWord x.2) (hR : first R ∈ execStops) :
    Yields (parseexec buf buf.length s) fun t n =>
      At buf n R ∧ Reads buf t (withRedir rd (.exec W)) := by
  rw [parseexec]
  rcases W with _ | ⟨w, W⟩
  · -- no words: parseredirs reads the redirection, and the loop stops at once
    have hp : first (redirTokens rd ++ R) ∉ ['('] := by
      rcases rd with _ | ⟨k, f⟩
      · exact not_lparen_of_mem_execStops hR
      · cases k <;> simp [redirTokens, Redir.token, first]
    have h' : At buf s (redirTokens rd ++ R) := h
    rw [h'.peek_fst_false hp, if_neg (by decide)]
    refine Yields.bind (parseredirs_at (h'.after_peek ['(']) hrd (not_redir_of_mem_execStops hR)
      Reads.exec_nil) fun r hres => ?_
    obtain ⟨hA, hc⟩ := hres
    refine Yields.bind (execLoop_at hR [] none [] [] r.cmd _ r.next hA (by simp) (by simp)
      (fun _ => rfl) (by simp [MAXARGS]) hc Reads.exec_nil) fun r' hres' => Yields.ok ⟨hres'.1, ?_⟩
    obtain ⟨-, hc'⟩ := hres'
    have e : (withRedir none (withRedir rd (.exec []))).setArgv ([] ++ []) = withRedir rd (.exec []) :=
      withRedir_exec_setArgv rd [] []
    rw [e] at hc'
    exact hc'
  · -- words: no redirection before the first; the loop reads the words and what follows
    have hw : IsWordChar (first (w :: (W ++ (redirTokens rd ++ R)))) :=
      (hW w (List.mem_cons_self ..)).first
    rw [h.peek_fst_false (hw.not_mem (by decide)), if_neg (by decide)]
    have h' : At buf (peek buf buf.length s ['(']).2
        (redirTokens none ++ (w :: W ++ (redirTokens rd ++ R))) := h.after_peek ['(']
    refine Yields.bind (parseredirs_at h' (by simp) (hw.not_mem (by decide)) Reads.exec_nil)
      fun r hres => ?_
    obtain ⟨hA, hc⟩ := hres
    refine Yields.bind (execLoop_at hR (w :: W) rd [] [] r.cmd _ r.next hA hW hrd
      (fun h => absurd h (List.cons_ne_nil _ _)) (by simpa using hlen) hc Reads.exec_nil)
      fun r' hres' => Yields.ok ⟨hres'.1, ?_⟩
    obtain ⟨-, hc'⟩ := hres'
    have e : (withRedir rd (withRedir none (.exec []))).setArgv ([] ++ w :: W) =
        withRedir rd (.exec (w :: W)) :=
      withRedir_exec_setArgv rd [] (w :: W)
    rw [e] at hc'
    exact hc'

/-- parseline on the tokens of `c` before `)` or the end of the line reads `c`. -/
def LineReads (buf : List Char) (c : Cmd (List Char)) : Prop :=
  ∀ s R, At buf s (c.tokens ++ R) → first R ∈ ['\x00', ')'] →
    Yields (parseline buf buf.length s) fun t n => At buf n R ∧ Reads buf t c

/-- parseexec on a parenthesised line and the redirection after it: parseblock. -/
theorem parseexec_block {c : Cmd (List Char)} {rd : Option (Redir × List Char)}
    (hline : LineReads buf c) (h : At buf s (['('] :: (c.tokens ++ [')'] :: (redirTokens rd ++ R))))
    (hrd : ∀ x ∈ rd, IsWord x.2) (hR : first R ∈ execStops) :
    Yields (parseexec buf buf.length s) fun t n => At buf n R ∧ Reads buf t (withRedir rd c) := by
  rw [parseexec]
  rw [h.peek_fst_true (by simp), if_pos rfl]
  refine Yields.lift _ ?_
  have h₁ := h.after_peek ['(']
  rw [parseblock]
  dsimp only
  rw [dif_pos (h₁.peek_fst_true (by simp))]
  refine Yields.bind (hline _ _ (h₁.next_peek_gettoken ['(']) (by simp)) fun r hres => ?_
  obtain ⟨hA, hc⟩ := hres
  rw [if_pos (hA.peek_fst_true (by simp))]
  exact Yields.bind (parseredirs_at (hA.next_peek_gettoken [')']) hrd
    (not_redir_of_mem_execStops hR) hc) fun r₂ hr₂ => Yields.ok hr₂

theorem paren_of_not_exec {c : Cmd (List Char)} (hc : c.isExec = false) (ts R : List (List Char)) :
    c.paren ts ++ R = ['('] :: (ts ++ [')'] :: R) := by
  simp [Cmd.paren, hc]

/-- parseexec on an operand as printed, and the redirection after it. -/
theorem parseexec_operand {c : Cmd (List Char)} {rd : Option (Redir × List Char)}
    (hc : c.Printable) (hline : LineReads buf c)
    (h : At buf s (c.paren c.tokens ++ (redirTokens rd ++ R))) (hrd : ∀ x ∈ rd, IsWord x.2)
    (hR : first R ∈ execStops) :
    Yields (parseexec buf buf.length s) fun t n => At buf n R ∧ Reads buf t (withRedir rd c) := by
  cases hx : c.isExec with
  | false =>
    rw [paren_of_not_exec hx] at h
    exact parseexec_block hline h hrd hR
  | true =>
    cases c with
    | exec W => exact parseexec_words h hc.2 hc.1 hrd hR
    | _ => simp [Cmd.isExec] at hx

/-- What may follow a line: `)` or the end. -/
theorem lineStop_cases {c : Char} (h : c ∈ ['\x00', ')']) :
    c ∈ execStops ∧ c ≠ '|' ∧ c ∉ ['&', ';'] := by
  simp only [List.mem_cons, List.not_mem_nil, or_false] at h
  rcases h with rfl | rfl <;> decide

/-- parseline on one operand as printed. -/
theorem parseline_operand {c : Cmd (List Char)} (hc : c.Printable) (hline : LineReads buf c)
    (h : At buf s (c.paren c.tokens ++ R)) (hR : first R ∈ ['\x00', ')']) :
    Yields (parseline buf buf.length s) fun t n => At buf n R ∧ Reads buf t c := by
  obtain ⟨hstop, hpipe, hback⟩ := lineStop_cases hR
  have h' : At buf s (c.paren c.tokens ++ (redirTokens none ++ R)) := h
  exact parseline_end 0 (parsepipe_last (parseexec_operand hc hline h' (by simp) hstop) hpipe) hback

/-- parseline reads every tree of the grammar back from its tokens: the induction over the tree,
each operand read by `parseexec_operand` from the line lemma of the operand. -/
theorem lineReads {c : Cmd (List Char)} (hc : c.Printable) : LineReads buf c := by
  induction c with
  | exec W =>
    intro s R h hR
    obtain ⟨hstop, hpipe, hback⟩ := lineStop_cases hR
    have h' : At buf s (W ++ (redirTokens none ++ R)) := h
    exact parseline_end 0 (parsepipe_last (parseexec_words h' hc.2 hc.1 (by simp) hstop) hpipe)
      hback
  | redir c f k ih =>
    intro s R h hR
    obtain ⟨hstop, hpipe, hback⟩ := lineStop_cases hR
    rw [Cmd.tokens, List.append_assoc] at h
    have h' : At buf s (c.paren c.tokens ++ (redirTokens (some (k, f)) ++ R)) := h
    exact parseline_end 0 (parsepipe_last
      (parseexec_operand hc.1 (ih hc.1) h' (by simpa using hc.2) hstop) hpipe) hback
  | pipe l r ihl ihr =>
    intro s R h hR
    obtain ⟨hstop, hpipe, hback⟩ := lineStop_cases hR
    rw [Cmd.tokens, List.append_assoc, List.cons_append] at h
    have h' : At buf s (l.paren l.tokens ++ (redirTokens none ++ ['|'] :: (r.paren r.tokens ++ R))) :=
      h
    -- the right operand is a pipeline of one command, before what ends the line
    exact parseline_end 0 (parsepipe_pipe
      (parseexec_operand hc.1 (ihl hc.1) h' (by simp) (by simp [execStops]))
      fun s' hs' => parsepipe_last (parseexec_operand hc.2 (ihr hc.2)
        (show At buf s' (r.paren r.tokens ++ (redirTokens none ++ R)) from hs') (by simp) hstop)
        hpipe) hback
  | list l r ihl ihr =>
    intro s R h hR
    rw [Cmd.tokens, List.append_assoc, List.cons_append] at h
    have h' : At buf s (l.paren l.tokens ++ (redirTokens none ++ [';'] :: (r.paren r.tokens ++ R))) :=
      h
    exact parseline_list 0 (parsepipe_last
      (parseexec_operand hc.1 (ihl hc.1) h' (by simp) (by simp [execStops])) (by simp))
      fun s' hs' => parseline_operand hc.2 (ihr hc.2) hs' hR
  | back c ih =>
    intro s R h hR
    obtain ⟨-, -, hback⟩ := lineStop_cases hR
    rw [Cmd.tokens, List.append_assoc, List.singleton_append] at h
    have h' : At buf s (c.paren c.tokens ++ (redirTokens none ++ ['&'] :: R)) := h
    have hc' : c.Printable := hc
    exact parseline_end 1 (parsepipe_last
      (parseexec_operand hc' (ih hc') h' (by simp) (by simp [execStops])) (by simp)) hback

end Steps

/-! ### parsecmd on a printed tree -/

section Render

theorem mem_paren {c : Cmd (List Char)} {ts : List (List Char)} {t : List Char}
    (h : t ∈ c.paren ts) : t ∈ ts ∨ t ∈ operators := by
  unfold Cmd.paren at h
  split_ifs at h
  · exact Or.inl h
  · simp only [List.cons_append, List.mem_cons, List.mem_append, List.not_mem_nil, or_false] at h
    rcases h with rfl | h | rfl
    · exact Or.inr (by decide)
    · exact Or.inl h
    · exact Or.inr (by decide)

theorem Redir.token_mem (k : Redir) : k.token ∈ operators := by
  cases k <;> decide

/-- Every token of a tree of the grammar is a word or an operator. -/
theorem tokens_isToken {c : Cmd (List Char)} (hc : c.Printable) : ∀ t ∈ c.tokens, IsToken t := by
  induction c with
  | exec W => exact fun t ht => Or.inl (hc.2 t ht)
  | redir c f k ih =>
    intro t ht
    simp only [Cmd.tokens, List.mem_append, List.mem_cons, List.not_mem_nil, or_false] at ht
    rcases ht with ht | rfl | rfl
    · exact (mem_paren ht).elim (ih hc.1 t) Or.inr
    · exact Or.inr k.token_mem
    · exact Or.inl hc.2
  | pipe l r ihl ihr =>
    intro t ht
    simp only [Cmd.tokens, List.mem_append, List.mem_cons] at ht
    rcases ht with ht | rfl | ht
    · exact (mem_paren ht).elim (ihl hc.1 t) Or.inr
    · exact Or.inr (by decide)
    · exact (mem_paren ht).elim (ihr hc.2 t) Or.inr
  | list l r ihl ihr =>
    intro t ht
    simp only [Cmd.tokens, List.mem_append, List.mem_cons] at ht
    rcases ht with ht | rfl | ht
    · exact (mem_paren ht).elim (ihl hc.1 t) Or.inr
    · exact Or.inr (by decide)
    · exact (mem_paren ht).elim (ihr hc.2 t) Or.inr
  | back c ih =>
    intro t ht
    simp only [Cmd.tokens, List.mem_append, List.mem_singleton] at ht
    rcases ht with ht | rfl
    · exact (mem_paren ht).elim (ih hc t) Or.inr
    · exact Or.inr (by decide)

theorem IsToken.ne_nul {t : List Char} (h : IsToken t) {ch : Char} (hch : ch ∈ t) : ch ≠ '\x00' := by
  rcases h with h | h
  · exact (h.2 ch hch).ne_nul
  · simp only [operators, List.mem_cons, List.not_mem_nil, or_false] at h
    rcases h with rfl | rfl | rfl | rfl | rfl | rfl | rfl | rfl <;>
      simp only [List.mem_cons, List.not_mem_nil, or_false] at hch <;>
      rcases hch with rfl | rfl <;> decide

/-- A printed line holds no NUL, so `strlen` is its length. -/
theorem strlen_render {c : Cmd (List Char)} (hc : c.Printable) : strlen c.render = c.render.length := by
  have hnul : ∀ ts : List (List Char), (∀ t ∈ ts, IsToken t) →
      ∀ ch ∈ [' '].intercalate ts, ch ≠ '\x00' := by
    intro ts
    induction ts with
    | nil => simp
    | cons t ts ih =>
      intro hts ch hch
      rw [intercalate_cons] at hch
      simp only [List.mem_append] at hch
      rcases hch with hch | hch
      · exact (hts t (List.mem_cons_self ..)).ne_nul hch
      · split_ifs at hch
        · simp at hch
        · rcases List.mem_cons.1 hch with rfl | hch
          · decide
          · exact ih (fun t' ht' => hts t' (List.mem_cons_of_mem _ ht')) ch hch
  rw [strlen, List.takeWhile_eq_self_iff.2]
  intro ch hch
  simpa using hnul c.tokens (tokens_isToken hc) ch hch

theorem At.eq_length {buf : List Char} {s : ℕ} (h : At buf s []) : s = buf.length := by
  have hd := h.drop
  rw [List.intercalate_nil, List.drop_eq_nil_iff] at hd
  exact Nat.le_antisymm h.le hd

/-- parsecmd on a printed tree returns that tree, its words and file names read as the strings
`nulterminate` ends. -/
theorem parsecmd_render {c : Cmd (List Char)} (hc : c.Printable) :
    ∃ t, parsecmd c.render = .ok (t, nulterminate t c.render) ∧
      t.map (fun w => cstr (nulterminate t c.render) w.1) = c := by
  have hA : At c.render 0 (c.tokens ++ []) :=
    ⟨by rw [List.append_nil, List.drop_zero]; rfl, Nat.zero_le _, by simpa using tokens_isToken hc⟩
  obtain ⟨r, hr, hend, hread⟩ := lineReads hc 0 [] hA (by simp [first])
  refine ⟨r.cmd, ?_, ?_⟩
  · rw [parsecmd, strlen_render hc, hr, except_ok_bind, hend.peek_snd, ← hend.eq_length,
      if_neg (not_not.2 rfl)]
    rfl
  · rw [Cmd.map_congr fun w hw => cstr_nulterminate hread.span hw]
    exact hread.map

/-- The parser inverts printing over the whole grammar, and ends on every line: a panic, or a
tree of the line's words once the whole line is read. -/
theorem parsecmd_inverts_render :
    (∀ c : Cmd (List Char), c.Printable →
      ∃ t, parsecmd c.render = .ok (t, nulterminate t c.render) ∧
        t.map (fun w => cstr (nulterminate t c.render) w.1) = c) ∧
    ∀ buf : List Char, (∃ m ∈ panics, parsecmd buf = .error m) ∨
      ∃ r : Parsed 0, parseline buf (strlen buf) 0 = .ok r ∧
        skipWhitespace buf (strlen buf) r.next = strlen buf ∧
        parsecmd buf = .ok (r.cmd, nulterminate r.cmd buf) ∧
        ∀ w ∈ r.cmd.words, cstr (nulterminate r.cmd buf) w.1 = slice buf w :=
  ⟨fun _ hc => parsecmd_render hc, parsecmd_total⟩

/-- `cat < in | (ls -l ; ) &` printed as `cat < in | ( ( ls -l ; ) & )`, and read back. -/
theorem parsecmd_inverts_render_pipeline :
    (Cmd.pipe (.redir (.exec [['c', 'a', 't']]) ['i', 'n'] .input)
        (.back (.list (.exec [['l', 's'], ['-', 'l']]) (.exec [])))).Printable ∧
      ∃ t, parsecmd (Cmd.pipe (.redir (.exec [['c', 'a', 't']]) ['i', 'n'] .input)
          (.back (.list (.exec [['l', 's'], ['-', 'l']]) (.exec [])))).render =
        .ok (t, nulterminate t (Cmd.pipe (.redir (.exec [['c', 'a', 't']]) ['i', 'n'] .input)
          (.back (.list (.exec [['l', 's'], ['-', 'l']]) (.exec [])))).render) ∧
      t.map (fun w => cstr (nulterminate t (Cmd.pipe (.redir (.exec [['c', 'a', 't']]) ['i', 'n']
          .input) (.back (.list (.exec [['l', 's'], ['-', 'l']]) (.exec [])))).render) w.1) =
        Cmd.pipe (.redir (.exec [['c', 'a', 't']]) ['i', 'n'] .input)
          (.back (.list (.exec [['l', 's'], ['-', 'l']]) (.exec []))) :=
  ⟨by decide, parsecmd_inverts_render.1 _ (by decide)⟩

end Render

end Xv6.Sh
