import Xv6.Sh.Parse

/-!
# What the shell's parser accepts

Every line is parsed to an end: the parsing functions are total by their construction. `parsecmd`
either panics, with one of the parser's messages, or returns a tree once `peek` has carried the
cursor to the end of the line; every word and file name of that tree is then a word of the line
(`Span`), so that after `nulterminate` it reads as that word.

* `gettoken_span`: the word `gettoken` returns is a run of word characters;
* `Sound`: what every parsing function returns; `parseredirs_sound`, `execLoop_sound`,
  `parseBacks_words`, and `parse_sound` for the four mutually recursive functions, by induction
  on what is left of the line;
* `parsecmd_total`.
-/

namespace Xv6.Sh

/-- The parser's panics. -/
def panics : List String :=
  ["syntax", "too many args", "missing file for redirection", "syntax - missing )", "parseblock"]

/-- Every word and file name of the tree is a word of the line. -/
def Words (buf : List Char) (es : ℕ) (t : Cmd (ℕ × ℕ)) : Prop :=
  ∀ w ∈ t.words, Span buf es w

/-- A parse panics with one of the parser's messages, or returns a tree of words of the line. -/
def Sound (buf : List Char) (es : ℕ) {s : ℕ} : Except String (Parsed s) → Prop
  | .error m => m ∈ panics
  | .ok r => Words buf es r.cmd

section Lexer

variable {buf : List Char} {es s : ℕ}

/-! ## A word is a run of word characters -/

theorem scanWord_word : ∀ j, s ≤ j → j < scanWord buf es s → j < es ∧ IsWordChar (charAt buf es j) := by
  fun_induction scanWord buf es s with
  | case1 s hs ih =>
    intro j hj hlt
    rcases Nat.eq_or_lt_of_le hj with rfl | hj
    · exact hs
    · exact ih j hj hlt
  | case2 s _ =>
    intro j hj hlt
    omega

theorem scanWord_stop (h : scanWord buf es s < es) :
    ¬ IsWordChar (charAt buf es (scanWord buf es s)) := by
  fun_induction scanWord buf es s with
  | case1 s _ ih => exact ih h
  | case2 s hs => exact fun hw => hs ⟨h, hw⟩

theorem scanWord_le (h : s ≤ es) : scanWord buf es s ≤ es := by
  fun_induction scanWord buf es s with
  | case1 s hs ih => exact ih hs.1
  | case2 s _ => exact h

/-- The word gettoken returns, as `(q, eq)`, is a run of word characters of the line that no
word character follows. -/
theorem gettoken_span (h : (gettoken buf es s).ret = 'a') :
    Span buf es ((gettoken buf es s).q, (gettoken buf es s).eq) := by
  simp only [gettoken] at h ⊢
  -- the first character: gettoken's default case, after the white space
  generalize hq : skipWhitespace buf es s = q at h ⊢
  have h0 : charAt buf es q ≠ '\x00' := by
    intro h0
    simp [scanToken, h0] at h
  have hlt : q < es := lt_of_charAt_ne h0
  have hws : strchr whitespace (charAt buf es q) = false := hq ▸ skipWhitespace_stop (hq ▸ hlt)
  simp only [scanToken] at h ⊢
  split_ifs at h ⊢ with h₀ h₁ h₂ h₃
  · exact absurd h₀ h0
  · simp only [List.mem_cons, List.not_mem_nil, or_false] at h₁
    rcases h₁ with h₁ | h₁ | h₁ | h₁ | h₁ | h₁ <;> simp [h₁] at h
  · simp at h
  · simp at h
  have hw : IsWordChar (charAt buf es q) := isWordChar_of_ne hws h0 h₁ h₂
  refine ⟨?_, scanWord_le (Nat.le_of_lt hlt), fun j hj hj' => (scanWord_word j hj hj').2,
    scanWord_stop⟩
  rw [scanWord, if_pos ⟨hlt, hw⟩]
  exact Nat.lt_of_lt_of_le (Nat.lt_succ_self q) le_scanWord

end Lexer

/-! ## The trees the parser builds -/

namespace Words

variable {buf : List Char} {es : ℕ} {t t₁ t₂ : Cmd (ℕ × ℕ)}

theorem redir (h : Words buf es t) {w : ℕ × ℕ} (hw : Span buf es w) (k : Redir) :
    Words buf es (.redir t w k) := by
  simp only [Words, Cmd.words, List.mem_append, List.mem_singleton]
  rintro x (hx | rfl)
  exacts [h x hx, hw]

theorem pipe (h₁ : Words buf es t₁) (h₂ : Words buf es t₂) : Words buf es (.pipe t₁ t₂) := by
  simp only [Words, Cmd.words, List.mem_append]
  rintro x (hx | hx)
  exacts [h₁ x hx, h₂ x hx]

theorem list (h₁ : Words buf es t₁) (h₂ : Words buf es t₂) : Words buf es (.list t₁ t₂) := by
  simp only [Words, Cmd.words, List.mem_append]
  rintro x (hx | hx)
  exacts [h₁ x hx, h₂ x hx]

theorem setArgv (h : Words buf es t) {argv : List (ℕ × ℕ)} (ha : ∀ w ∈ argv, Span buf es w) :
    Words buf es (t.setArgv argv) := fun w hw =>
  (Cmd.mem_words_setArgv hw).elim (ha w) (h w)

end Words

namespace Sound

variable {buf : List Char} {es s : ℕ}

theorem ok {r : Parsed s} (h : Words buf es r.cmd) : Sound buf es (.ok r) := h

theorem error {m : String} (h : m ∈ panics) : Sound buf es (.error m : Except String (Parsed s)) := h

theorem lift {t : ℕ} (hst : s ≤ t) {e : Except String (Parsed t)} (he : Sound buf es e) :
    Sound buf es (e.map (Parsed.lift hst)) := by
  cases e with
  | error m => exact he
  | ok r => exact he

theorem bind {t : ℕ} {e : Except String (Parsed s)} {f : Parsed s → Except String (Parsed t)}
    (he : Sound buf es e) (hf : ∀ r : Parsed s, Words buf es r.cmd → Sound buf es (f r)) :
    Sound buf es (e >>= f) := by
  cases e with
  | error m => exact he
  | ok r => exact hf r he

end Sound

/-! ## The parsing functions -/

section Parser

variable {buf : List Char} {es : ℕ}

theorem parseredirs_sound {cmd : Cmd (ℕ × ℕ)} {s : ℕ} (hc : Words buf es cmd) :
    Sound buf es (parseredirs buf es cmd s) := by
  revert hc
  fun_induction parseredirs buf es cmd s with
  | case1 => exact fun _ => Sound.error (by decide)
  | case2 cmd s p hp tok file hf cmd' ih =>
    intro hc
    refine Sound.lift _ (ih ?_)
    -- the file is a word of the line, whichever redirection wraps the command
    have hw := gettoken_span (not_not.1 hf)
    simp only [cmd']
    split_ifs
    all_goals first | exact hc.redir hw _ | exact hc
  | case3 cmd s p hp => exact fun hc => Sound.ok (r := ⟨cmd, p.2, _⟩) hc

theorem execLoop_sound {ret : Cmd (ℕ × ℕ)} {argv : List (ℕ × ℕ)} {s : ℕ} (hr : Words buf es ret)
    (ha : ∀ w ∈ argv, Span buf es w) : Sound buf es (execLoop buf es ret argv s) := by
  revert hr ha
  fun_induction execLoop buf es ret argv s with
  | case1 ret argv s p hp => exact fun hr ha => Sound.ok (r := ⟨_, p.2, _⟩) (hr.setArgv ha)
  | case2 ret argv s p hp tok h0 => exact fun hr ha => Sound.ok (r := ⟨_, tok.next, _⟩) (hr.setArgv ha)
  | case3 => exact fun _ _ => Sound.error (by decide)
  | case4 => exact fun _ _ => Sound.error (by decide)
  | case5 ret argv s p hp tok h0 hword argv' hmax ih =>
    intro hr ha
    -- the word joins `argv`, and the redirections after it wrap `ret`
    have hw := gettoken_span (not_not.1 hword)
    have ha' : ∀ w ∈ argv', Span buf es w := by
      simp only [argv', List.mem_append, List.mem_singleton]
      rintro w (hw' | rfl)
      exacts [ha w hw', hw]
    exact Sound.bind (parseredirs_sound hr) fun r hr' =>
      Sound.bind (ih r hr' ha') fun r' hr'' => Sound.ok (r := ⟨_, r'.next, _⟩) hr''

theorem parseBacks_words {cmd : Cmd (ℕ × ℕ)} {s : ℕ} (hc : Words buf es cmd) :
    Words buf es (parseBacks buf es cmd s).cmd := by
  revert hc
  fun_induction parseBacks buf es cmd s with
  | case1 cmd s p hp t ih => exact fun hc => ih hc
  | case2 => exact id

/-! ### The mutually recursive functions, each given the ones it calls -/

variable {s : ℕ}

theorem parseblock_sound (ih : ∀ s', es - s' < es - s → Sound buf es (parseline buf es s')) :
    Sound buf es (parseblock buf es s) := by
  rw [parseblock]
  dsimp only
  split
  · rename_i h
    refine Sound.bind (ih _ (peek_consumes h)) fun r hr => ?_
    split
    · exact Sound.bind (parseredirs_sound hr) fun r₂ hr₂ => Sound.ok (r := ⟨_, r₂.next, _⟩) hr₂
    · exact Sound.error (by decide)
  · exact Sound.error (by decide)

theorem parseexec_sound (hblock : ∀ s', s ≤ s' → Sound buf es (parseblock buf es s')) :
    Sound buf es (parseexec buf es s) := by
  rw [parseexec]
  split
  · exact Sound.lift _ (hblock _ (le_peek _))
  · have hexec : Words buf es (.exec []) := fun w hw => by simp [Cmd.words] at hw
    exact Sound.bind (parseredirs_sound hexec) fun r hr =>
      Sound.bind (execLoop_sound hr (by simp)) fun r' hr' => Sound.ok (r := ⟨_, r'.next, _⟩) hr'

theorem parsepipe_sound (hexec : Sound buf es (parseexec buf es s))
    (ih : ∀ s', es - s' < es - s → Sound buf es (parsepipe buf es s')) :
    Sound buf es (parsepipe buf es s) := by
  rw [parsepipe]
  refine Sound.bind hexec fun r hr => ?_
  dsimp only
  split
  · rename_i h
    have hlt : es - (gettoken buf es (peek buf es r.next ['|']).2).next < es - s := by
      have := peek_consumes h
      have := r.le
      omega
    exact Sound.bind (ih _ hlt) fun r' hr' => Sound.ok (r := ⟨_, r'.next, _⟩) (hr.pipe hr')
  · exact Sound.ok (r := ⟨_, _, _⟩) hr

theorem parseline_sound (hpipe : Sound buf es (parsepipe buf es s))
    (ih : ∀ s', es - s' < es - s → Sound buf es (parseline buf es s')) :
    Sound buf es (parseline buf es s) := by
  rw [parseline]
  refine Sound.bind hpipe fun r hr => ?_
  dsimp only
  have hb : Words buf es ((parseBacks buf es r.cmd r.next).lift r.le).cmd :=
    parseBacks_words (s := r.next) hr
  split
  · rename_i h
    have hlt : es - (gettoken buf es
        (peek buf es ((parseBacks buf es r.cmd r.next).lift r.le).next [';']).2).next < es - s := by
      have := peek_consumes h
      have := ((parseBacks buf es r.cmd r.next).lift r.le).le
      omega
    exact Sound.bind (ih _ hlt) fun r' hr' => Sound.ok (r := ⟨_, r'.next, _⟩) (hb.list hr')
  · exact Sound.ok (r := ⟨_, _, _⟩) hb

/-- Every parsing function panics with one of the parser's messages or returns a tree of words
of the line: by recursion on what is left of the line, and at each length from parseblock up to
parseline, the order in which they call each other without consuming a token. -/
theorem parse_sound (s : ℕ) :
    Sound buf es (parseline buf es s) ∧ Sound buf es (parsepipe buf es s) ∧
      Sound buf es (parseexec buf es s) ∧ Sound buf es (parseblock buf es s) := by
  have hline : ∀ s', es - s' < es - s → Sound buf es (parseline buf es s') :=
    fun s' _ => (parse_sound s').1
  have hpipe' : ∀ s', es - s' < es - s → Sound buf es (parsepipe buf es s') :=
    fun s' _ => (parse_sound s').2.1
  have hblock : ∀ s', s ≤ s' → Sound buf es (parseblock buf es s') :=
    fun s' hs' => parseblock_sound fun s'' hs'' => hline s'' (by omega)
  have hexec : Sound buf es (parseexec buf es s) := parseexec_sound hblock
  have hpipe : Sound buf es (parsepipe buf es s) := parsepipe_sound hexec hpipe'
  exact ⟨parseline_sound hpipe hline, hpipe, hexec, hblock s (Nat.le_refl s)⟩
termination_by es - s

end Parser

/-- parsecmd on any line: a panic with one of the parser's messages, or the tree `parseline`
built once `peek` has reached the end of the line, every word and file name of which reads, after
`nulterminate`, as its token. -/
theorem parsecmd_total (buf : List Char) :
    (∃ m ∈ panics, parsecmd buf = .error m) ∨
      ∃ r : Parsed 0, parseline buf (strlen buf) 0 = .ok r ∧
        skipWhitespace buf (strlen buf) r.next = strlen buf ∧
        parsecmd buf = .ok (r.cmd, nulterminate r.cmd buf) ∧
        ∀ w ∈ r.cmd.words, cstr (nulterminate r.cmd buf) w.1 = slice buf w := by
  have hs : Sound buf (strlen buf) (parseline buf (strlen buf) 0) := (parse_sound 0).1
  rcases hl : parseline buf (strlen buf) 0 with m | r
  · rw [hl] at hs
    exact .inl ⟨m, hs, by rw [parsecmd, hl]; rfl⟩
  · rw [hl] at hs
    by_cases hend : skipWhitespace buf (strlen buf) r.next = strlen buf
    · -- `peek(&s, es, "")` reached the end
      have hpeek : (peek buf (strlen buf) r.next []).2 = strlen buf := hend
      refine .inr ⟨r, rfl, hend, ?_, fun w hw => cstr_nulterminate hs hw⟩
      rw [parsecmd, hl, except_ok_bind, if_neg (not_not.2 hpeek)]
      rfl
    · -- leftovers: the panic "syntax"
      have hpeek : (peek buf (strlen buf) r.next []).2 ≠ strlen buf := hend
      refine .inl ⟨"syntax", by decide, ?_⟩
      rw [parsecmd, hl, except_ok_bind, if_pos hpeek]
      rfl

end Xv6.Sh
