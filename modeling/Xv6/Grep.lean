import Xv6.Lib.Lines
import Xv6.Lib.SimpleRegex

/-!
# grep (user/grep.c)

`match`, `matchhere` and `matchstar` are the regular-expression matcher of Kernighan and Pike:
`match` tries `matchhere` at every position of the text unless the pattern starts with `^`;
`matchhere` matches a pattern against a prefix of the text, `$` at the end of the pattern
matching only the end of the text; `matchstar` lets `c*` take more and more copies of `c`.
Strings are the characters before their NUL. The recursion of `matchhere` is on the pattern,
that of the `matchstar` loop on the text, so every call returns.

A pattern of the regular-expression subset is a `Pattern`: an optional `^`, items of `SimpleRegex` over characters
(a literal, `.`, or either under a `*`), an optional `$`; `Pattern.render` is its text.

`grep` reads its input into `buf` with `read`s of any size, and writes each line that `match`
accepts; the bytes after the last `'\n'` of a chunk wait at the front of `buf` for the next.

* `matchstarLoop_iff`, `matchhere_iff`: `matchhere` matches a prefix of the text;
* `matchRe_iff`: `match` finds an occurrence of the pattern in the text, at its start with
  `^` and at its end with `$`;
* `lineLoop_eq`, `grepLoop_eq`: the inner loop writes the accepted lines of a chunk, and the
  read loop those of the whole stream, through `Lines.lines_append`;
* `grep_lines`: what grep writes does not depend on how `read` cuts the stream, when every line
  fits in `buf`.
-/

namespace Xv6

namespace Grep

open SimpleRegex

/-- `matchstar(c, re, text)`'s loop, with `matchhere(re, ·)` as `here`:
`do { if(here(text)) return 1; } while(*text!='\0' && (*text++==c || c=='.'));`. -/
def matchstarLoop (c : Char) (here : List Char → Bool) : List Char → Bool
  | [] => here []
  | d :: text => here (d :: text) || ((d == c || c == '.') && matchstarLoop c here text)

/-- `matchhere(re, text)`. -/
def matchhere : List Char → List Char → Bool
  | [], _ => true
  | c :: '*' :: re, text => matchstarLoop c (matchhere re) text
  | c :: re, text =>
    if c = '$' ∧ re = [] then text.isEmpty
    else
      match text with
      | d :: text' => (c == '.' || c == d) && matchhere re text'
      | [] => false

/-- `match(re, text)`'s loop: `matchhere` at each suffix of the text, the empty one included. -/
def matchLoop (re : List Char) : List Char → Bool
  | [] => matchhere re []
  | d :: text => matchhere re (d :: text) || matchLoop re text

/-- `match(re, text)`. -/
def matchRe (re text : List Char) : Bool :=
  match re with
  | '^' :: re' => matchhere re' text
  | _ => matchLoop re text

/-! ## Patterns -/

/-- The character of an atom. -/
def atomChar : Atom Char → Char
  | .lit c => c
  | .any => '.'

/-- An atom of the grammar: `.`, or a literal other than `.` and `*`. -/
def Plain : Atom Char → Prop
  | .lit c => c ≠ '.' ∧ c ≠ '*'
  | .any => True

instance : DecidablePred Plain
  | .lit c => inferInstanceAs (Decidable (c ≠ '.' ∧ c ≠ '*'))
  | .any => isTrue trivial

/-- The text of an item. -/
def itemText : Item Char → List Char
  | .one a => [atomChar a]
  | .star a => [atomChar a, '*']

/-- A pattern: an optional leading `^`, the items, an optional trailing `$`. -/
structure Pattern where
  bol : Bool
  items : List (Item Char)
  eol : Bool

/-- The text of the items and the trailing `$`. -/
def body (items : List (Item Char)) (eol : Bool) : List Char :=
  items.flatMap itemText ++ if eol then ['$'] else []

/-- The text of a pattern. -/
def Pattern.render (p : Pattern) : List Char :=
  (if p.bol then ['^'] else []) ++ body p.items p.eol

/-- The text of the pattern reads back as the pattern: its atoms are of the grammar, a literal
`^` does not stand where it would read as the leading anchor, nor a literal `$` where it would
read as the trailing one. Elsewhere `matchhere` takes `^` and `$` as literals. -/
def Pattern.WellFormed (p : Pattern) : Prop :=
  (∀ i ∈ p.items, Plain i.atom) ∧
    (p.bol = false → ∀ i ∈ p.items.head?, i.atom ≠ .lit '^') ∧
    (p.eol = false → p.items.getLast? ≠ some (.one (.lit '$')))

instance : DecidablePred Pattern.WellFormed := fun _ => inferInstanceAs (Decidable (_ ∧ _ ∧ _))

/-- The pattern occurs in the text: some `text[i..j)` is in its language, with `i = 0` under
`^` and `j` the end of the text under `$`. -/
def Pattern.Occurs (p : Pattern) (text : List Char) : Prop :=
  ∃ i j, i ≤ j ∧ j ≤ text.length ∧ (p.bol = true → i = 0) ∧ (p.eol = true → j = text.length) ∧
    Matches p.items ((text.drop i).take (j - i))

/-! ## `matchhere` matches a prefix -/

theorem atomChar_ne_star {a : Atom Char} (h : Plain a) : atomChar a ≠ '*' := by
  cases a with
  | lit c => exact h.2
  | any => decide

theorem atomChar_eq_dollar {a : Atom Char} (h : atomChar a = '$') : a = .lit '$' := by
  cases a with
  | lit c => rw [show c = '$' from h]
  | any => exact absurd h (by decide)

/-- The test of `matchstar`'s loop and of `matchhere` is the atom's. -/
theorem accepts_iff {a : Atom Char} (h : Plain a) (d : Char) :
    (d == atomChar a || atomChar a == '.') = true ↔ a.Accepts d := by
  cases a with
  | lit c => simp [atomChar, Atom.Accepts, h.1]
  | any => simp [atomChar, Atom.Accepts]

theorem body_eq_nil_iff {items : List (Item Char)} {eol : Bool} :
    body items eol = [] ↔ items = [] ∧ eol = false := by
  cases items with
  | nil => cases eol <;> simp [body]
  | cons i items => cases i <;> simp [body, itemText]

/-- A pattern body starts with an atom or with `$`, never with `*`. -/
theorem body_head_ne_star {items : List (Item Char)} (h : ∀ i ∈ items, Plain i.atom) (eol : Bool) :
    (body items eol).head? ≠ some '*' := by
  cases items with
  | nil => cases eol <;> decide
  | cons i items =>
    have hi := atomChar_ne_star (h i List.mem_cons_self)
    cases i <;> simpa [body, itemText, Item.atom] using hi

theorem matchhere_cons_of_ne {c : Char} {re : List Char} (hre : re.head? ≠ some '*')
    (text : List Char) :
    matchhere (c :: re) text =
      if c = '$' ∧ re = [] then text.isEmpty
      else
        match text with
        | d :: text' => (c == '.' || c == d) && matchhere re text'
        | [] => false := by
  -- the equations for a pattern whose second character is not `*`
  have hstar : ∀ re', re = '*' :: re' → False := fun re' he => hre (by rw [he]; rfl)
  cases text with
  | nil => exact matchhere.eq_4 c re hstar
  | cons d text => exact matchhere.eq_3 c re d text hstar

/-- `matchstar`'s loop lets the star take a run of accepted characters. -/
theorem matchstarLoop_iff (c : Char) (here : List Char → Bool) (text : List Char) :
    matchstarLoop c here text = true ↔
      ∃ n ≤ text.length, (∀ d ∈ text.take n, (d == c || c == '.') = true) ∧
        here (text.drop n) = true := by
  induction text with
  | nil => simp [matchstarLoop]
  | cons d text ih =>
    rw [matchstarLoop, Bool.or_eq_true, Bool.and_eq_true, ih]
    constructor
    · rintro (h | ⟨hd, n, hn, hrun, hh⟩)
      · exact ⟨0, Nat.zero_le _, by simp, h⟩
      · refine ⟨n + 1, by simp; omega, fun x hx => ?_, hh⟩
        rw [List.take_succ_cons, List.mem_cons] at hx
        rcases hx with rfl | hx
        · exact hd
        · exact hrun x hx
    · rintro ⟨n, hn, hrun, hh⟩
      cases n with
      | zero => exact .inl hh
      | succ n =>
        exact .inr ⟨hrun d (by simp), n, by simp at hn; omega,
          fun x hx => hrun x (by rw [List.take_succ_cons]; exact List.mem_cons_of_mem d hx), hh⟩

/-- `matchhere` on the text of items and `$` matches a prefix of the text, the whole text under
`$`. -/
theorem matchhere_iff {items : List (Item Char)} (h : ∀ i ∈ items, Plain i.atom) (eol : Bool)
    (hend : eol = false → items.getLast? ≠ some (.one (.lit '$'))) (text : List Char) :
    matchhere (body items eol) text = true ↔ MatchesPrefix items eol text := by
  induction items generalizing text with
  | nil =>
    rw [matchesPrefix_nil_iff]
    cases eol
    · simp [body, matchhere]
    · simp [body, matchhere]
  | cons i items ih =>
    have hrest := fun j hj => h j (List.mem_cons_of_mem i hj)
    -- the last item of the rest is the last item of the pattern
    have hend' : eol = false → items.getLast? ≠ some (.one (.lit '$')) := fun he => by
      cases items with
      | nil => simp
      | cons j js =>
        rw [← List.getLast?_cons_cons (a := i)]
        exact hend he
    cases i with
    | one a =>
      have hi : Plain a := h (.one a) List.mem_cons_self
      -- a single character, then the rest of the pattern; a `$` here is the anchor only when
      -- nothing follows, and then the pattern has no trailing `$` and ends with a literal `$`
      have hne := body_head_ne_star hrest eol
      have hbody : body (.one a :: items) eol = atomChar a :: body items eol := rfl
      have hlit : ¬(atomChar a = '$' ∧ body items eol = []) := by
        rintro ⟨hd, hb⟩
        obtain ⟨rfl, rfl⟩ := body_eq_nil_iff.1 hb
        exact hend rfl (by rw [atomChar_eq_dollar hd]; rfl)
      rw [hbody, matchhere_cons_of_ne hne, if_neg hlit, matchesPrefix_one_iff]
      cases text with
      | nil => simp
      | cons d text =>
        simp only [Bool.and_eq_true, List.cons.injEq, ih hrest hend']
        rw [show (atomChar a == '.' || atomChar a == d) = (d == atomChar a || atomChar a == '.') by
          cases atomChar a == '.' <;> simp [eq_comm], accepts_iff hi]
        constructor
        · rintro ⟨ha, hm⟩
          exact ⟨d, text, ⟨rfl, rfl⟩, ha, hm⟩
        · rintro ⟨b, w, ⟨rfl, rfl⟩, ha, hm⟩
          exact ⟨ha, hm⟩
    | star a =>
      have hi : Plain a := h (.star a) List.mem_cons_self
      -- `c*`: `matchstar` with the rest of the pattern
      have hbody : body (.star a :: items) eol = atomChar a :: '*' :: body items eol := rfl
      rw [hbody, matchhere, matchstarLoop_iff, matchesPrefix_star_iff]
      simp only [accepts_iff hi, ih hrest hend']

/-- The text of a pattern without `^` does not start with `^`. -/
theorem body_head_ne_caret {items : List (Item Char)} (h : ∀ i ∈ items.head?, i.atom ≠ .lit '^')
    (eol : Bool) : (body items eol).head? ≠ some '^' := by
  cases items with
  | nil => cases eol <;> decide
  | cons i items =>
    have hi : atomChar i.atom ≠ '^' := by
      have hne := h i rfl
      cases ha : i.atom with
      | lit c =>
        rw [ha] at hne
        exact fun hc => hne (by rw [show c = '^' from hc])
      | any => decide
    cases i <;> simpa [body, itemText, Item.atom] using hi

/-- `match`'s loop tries every suffix. -/
theorem matchLoop_iff (re text : List Char) :
    matchLoop re text = true ↔ ∃ i ≤ text.length, matchhere re (text.drop i) = true := by
  induction text with
  | nil => simp [matchLoop]
  | cons d text ih =>
    rw [matchLoop, Bool.or_eq_true, ih]
    constructor
    · rintro (h | ⟨i, hi, h⟩)
      · exact ⟨0, Nat.zero_le _, h⟩
      · exact ⟨i + 1, by simp; omega, h⟩
    · rintro ⟨i, hi, h⟩
      cases i with
      | zero => exact .inl h
      | succ i => exact .inr ⟨i, by simp at hi; omega, h⟩

/-- An occurrence from position `i` is a matched prefix of the text from `i`. -/
theorem occurs_iff (p : Pattern) (text : List Char) :
    p.Occurs text ↔ ∃ i ≤ text.length, (p.bol = true → i = 0) ∧
      MatchesPrefix p.items p.eol (text.drop i) := by
  constructor
  · rintro ⟨i, j, hij, hj, hbol, heol, hm⟩
    refine ⟨i, by omega, hbol, j - i, by simp; omega, fun he => ?_, hm⟩
    simp [heol he]
  · rintro ⟨i, hi, hbol, k, hk, heol, hm⟩
    simp only [List.length_drop] at hk heol
    refine ⟨i, i + k, by omega, by omega, hbol, fun he => by rw [heol he]; omega, ?_⟩
    rwa [Nat.add_sub_cancel_left]

/-- `match(re, text)` decides whether the pattern occurs in the text. -/
theorem matchRe_iff {p : Pattern} (hp : p.WellFormed) (text : List Char) :
    matchRe p.render text = true ↔ p.Occurs text := by
  obtain ⟨hplain, hcaret, hend⟩ := hp
  rw [occurs_iff]
  cases hbol : p.bol
  · -- no `^`: `matchhere` at every suffix
    have hr : p.render = body p.items p.eol := by simp [Pattern.render, hbol]
    have hmatch : matchRe p.render text = matchLoop p.render text := by
      rw [hr]
      exact matchRe.eq_2 _ text fun re' he =>
        body_head_ne_caret (hcaret hbol) p.eol (by rw [he]; rfl)
    rw [hmatch, matchLoop_iff, hr]
    simp only [matchhere_iff hplain p.eol hend, Bool.false_eq_true, false_implies, true_and]
  · -- `^`: `matchhere` at the start only
    have hr : p.render = '^' :: body p.items p.eol := by simp [Pattern.render, hbol]
    rw [hr, matchRe, matchhere_iff hplain p.eol hend]
    constructor
    · intro h
      exact ⟨0, Nat.zero_le _, fun _ => rfl, h⟩
    · rintro ⟨i, -, hi, h⟩
      rw [hi rfl] at h
      exact h

/-- `^a.*b$` on `axyb`. -/
theorem matchRe_iff_anchored :
    Pattern.WellFormed ⟨true, [.one (.lit 'a'), .star .any, .one (.lit 'b')], true⟩ ∧
      (matchRe (Pattern.render ⟨true, [.one (.lit 'a'), .star .any, .one (.lit 'b')], true⟩)
          ['a', 'x', 'y', 'b'] = true ↔
        Pattern.Occurs ⟨true, [.one (.lit 'a'), .star .any, .one (.lit 'b')], true⟩
          ['a', 'x', 'y', 'b']) :=
  ⟨by decide, matchRe_iff (by decide) _⟩

/-! ## The line loop -/

/-- `sizeof(buf)`. -/
def bufSize : ℕ := 1024

/-- `strchr(s, c)` of user/ulib.c: the offset of the first `c` in `s`. -/
def strchr (s : List Char) (c : Char) : Option ℕ :=
  match s with
  | [] => none
  | d :: s => if d = c then some 0 else (strchr s c).map (· + 1)

theorem strchr_eq_none {s : List Char} {c : Char} : strchr s c = none ↔ c ∉ s := by
  induction s with
  | nil => simp [strchr]
  | cons d s ih =>
    rw [strchr, List.mem_cons]
    split_ifs with hd
    · simp [hd]
    · rw [Option.map_eq_none_iff, ih]
      exact ⟨fun h hc => hc.elim (fun e => hd e.symm) h, fun h hc => h (.inr hc)⟩

/-- `strchr` stops at the first `c`. -/
theorem strchr_eq_some {s : List Char} {c : Char} {q : ℕ} (h : strchr s c = some q) :
    ∃ a b, s = a ++ c :: b ∧ c ∉ a ∧ q = a.length := by
  induction s generalizing q with
  | nil => cases h
  | cons d s ih =>
    rw [strchr] at h
    split_ifs at h with hd
    · cases h
      exact ⟨[], s, by rw [hd]; rfl, List.not_mem_nil, rfl⟩
    · obtain ⟨q', hq', rfl⟩ := Option.map_eq_some_iff.1 h
      obtain ⟨a, b, rfl, ha, rfl⟩ := ih hq'
      refine ⟨d :: a, b, rfl, ?_, rfl⟩
      rw [List.mem_cons]
      rintro (e | e)
      · exact hd e.symm
      · exact ha e

theorem strchr_lt {s : List Char} {c : Char} {q : ℕ} (h : strchr s c = some q) : q < s.length := by
  obtain ⟨a, b, rfl, -, rfl⟩ := strchr_eq_some h
  simp

/-- The loop `while((q = strchr(p, '\n')) != 0)` over the bytes from `p` to the end of the data:
the bytes it writes, and those after the last line, which `memmove(buf, p, m)` takes to the
front of `buf`. A line that `match` accepts is written with its `'\n'`, put back over the `'\0'`
the loop wrote there for `match`. -/
def lineLoop (pattern p : List Char) : List Char × List Char :=
  match h : strchr p '\n' with
  | some q =>
    let line := p.take q
    let r := lineLoop pattern (p.drop (q + 1))
    ((if matchRe pattern line then line ++ ['\n'] else []) ++ r.1, r.2)
  | none => ([], p)
termination_by p.length
decreasing_by
  have := strchr_lt h
  rw [List.length_drop]
  omega

/-- `grep(pattern, fd)`'s loop `while((n = read(fd, buf+m, sizeof(buf)-m-1)) > 0)`, with `kept`
the `m` bytes at the front of `buf` and `input` the bytes still to read. The `i`th `read` returns
at most `readLen i` bytes, and never more than were asked for or are left. -/
def grepLoop (pattern : List Char) (readLen : ℕ → ℕ) (i : ℕ) (kept input : List Char) :
    List Char :=
  let n := min (readLen i) (min (bufSize - kept.length - 1) input.length)
  if h : n = 0 then []
  else
    -- `m += n`, the lines of `buf[0..m)`, then the bytes after them moved to the front
    let r := lineLoop pattern (kept ++ input.take n)
    r.1 ++ grepLoop pattern readLen (i + 1) r.2 (input.drop n)
termination_by input.length
decreasing_by
  have hpos : 0 < n := Nat.pos_of_ne_zero h
  rw [List.length_drop]
  omega

/-- `grep(pattern, fd)` on the stream `input`. -/
def grep (pattern : List Char) (readLen : ℕ → ℕ) (input : List Char) : List Char :=
  grepLoop pattern readLen 0 [] input

/-- What grep is to write: each `'\n'`-terminated line of the stream that `match` accepts, with
its `'\n'`. -/
def grepSpec (pattern input : List Char) : List Char :=
  ((Lines.lines '\n' input).filter (matchRe pattern)).flatMap (· ++ ['\n'])

theorem grepSpec_of_not_mem (pattern : List Char) {s : List Char} (h : '\n' ∉ s) :
    grepSpec pattern s = [] := by
  rw [grepSpec, Lines.lines_of_not_mem _ h]
  rfl

theorem grepSpec_append_cons (pattern : List Char) {a : List Char} (h : '\n' ∉ a) (b : List Char) :
    grepSpec pattern (a ++ '\n' :: b) =
      (if matchRe pattern a then a ++ ['\n'] else []) ++ grepSpec pattern b := by
  rw [grepSpec, Lines.lines_append_cons _ h, List.filter_cons]
  cases matchRe pattern a <;> simp [grepSpec]

theorem grepSpec_append (pattern x y : List Char) :
    grepSpec pattern (x ++ y) =
      grepSpec pattern x ++ grepSpec pattern (Lines.lastLine '\n' x ++ y) := by
  simp only [grepSpec, Lines.lines_append _ x y, List.filter_append, List.flatMap_append]

/-- The inner loop writes the accepted lines of the data and keeps its unfinished last line. -/
theorem lineLoop_eq (pattern p : List Char) :
    lineLoop pattern p = (grepSpec pattern p, Lines.lastLine '\n' p) := by
  fun_induction lineLoop pattern p with
  | case1 p q h line r ih =>
    obtain ⟨a, b, rfl, ha, rfl⟩ := strchr_eq_some h
    have htake : (a ++ '\n' :: b).take a.length = a := by simp
    have hdrop : (a ++ '\n' :: b).drop (a.length + 1) = b := by simp
    rw [hdrop] at ih
    simp only [line, r]
    rw [htake, hdrop, ih, grepSpec_append_cons _ ha, Lines.lastLine_append_cons _ ha]
  | case2 p h =>
    have hp := strchr_eq_none.1 h
    rw [grepSpec_of_not_mem _ hp, Lines.lastLine_of_not_mem _ hp]

/-- A `read` that returns nothing ends the loop: either the stream is read to its end, or the
kept bytes fill `buf`, and then no line of the stream ends, since a line would be longer than
`buf` can hold. -/
theorem grepSpec_of_stop (pattern : List Char) {kept input : List Char} (hkept : '\n' ∉ kept)
    (hfit : ∀ l ∈ Lines.lines '\n' (kept ++ input), l.length + 1 ≤ bufSize - 1)
    (hstop : bufSize - kept.length - 1 = 0 ∨ input = []) :
    grepSpec pattern (kept ++ input) = [] := by
  rcases hstop with hfull | rfl
  · -- the first line would start with all of `kept`
    cases hl : Lines.lines '\n' (kept ++ input) with
    | nil => simp [grepSpec, hl]
    | cons l ls =>
      have hpre := Lines.prefix_of_head_lines '\n' hkept input (by rw [hl]; rfl)
      have hlen := hpre.length_le
      have hl' := hfit l (by rw [hl]; exact List.mem_cons_self)
      unfold bufSize at hfull hl'
      omega
  · rw [List.append_nil]
    exact grepSpec_of_not_mem pattern hkept

/-- The read loop writes the accepted lines of the kept bytes and the rest of the stream,
however `read` cuts the stream, as long as each line fits in `buf`. -/
theorem grepLoop_eq (pattern : List Char) {readLen : ℕ → ℕ} (hread : ∀ i, 0 < readLen i)
    (i : ℕ) (kept input : List Char) (hkept : '\n' ∉ kept)
    (hfit : ∀ l ∈ Lines.lines '\n' (kept ++ input), l.length + 1 ≤ bufSize - 1) :
    grepLoop pattern readLen i kept input = grepSpec pattern (kept ++ input) := by
  fun_induction grepLoop pattern readLen i kept input with
  | case1 i kept input n h =>
    -- `read` returned 0
    have hstop : bufSize - kept.length - 1 = 0 ∨ input = [] := by
      have := hread i
      rcases Nat.eq_zero_or_pos (bufSize - kept.length - 1) with h' | h'
      · exact .inl h'
      · exact .inr (List.length_eq_zero_iff.1 (by omega))
    exact (grepSpec_of_stop pattern hkept hfit hstop).symm
  | case2 i kept input n h r ih =>
    -- the chunk `input.take n`, then the rest of the stream from the unfinished line
    have hsplit : kept ++ input = (kept ++ input.take n) ++ input.drop n := by
      rw [List.append_assoc, List.take_append_drop]
    have hlines := Lines.lines_append '\n' (kept ++ input.take n) (input.drop n)
    rw [← hsplit] at hlines
    have hr : r = (grepSpec pattern (kept ++ input.take n), Lines.lastLine '\n' (kept ++ input.take n)) :=
      lineLoop_eq _ _
    rw [hr] at ih ⊢
    dsimp only at ih ⊢
    rw [ih (Lines.lastLine_not_mem _ _)
      (fun l hl => hfit l (by rw [hlines]; exact List.mem_append_right _ hl)),
      hsplit, grepSpec_append pattern (kept ++ input.take n)]

/-- grep writes exactly the `'\n'`-terminated lines of its input that `match` accepts, each with
its `'\n'`, in the order of the input, for every pattern and every way `read` cuts the stream
into chunks, as long as every line with its `'\n'` fits in `sizeof(buf)-1` bytes. -/
theorem grep_lines (pattern input : List Char) (readLen : ℕ → ℕ) (hread : ∀ i, 0 < readLen i)
    (hfit : ∀ l ∈ Lines.lines '\n' input, l.length + 1 ≤ bufSize - 1) :
    grep pattern readLen input =
      ((Lines.lines '\n' input).filter (matchRe pattern)).flatMap (· ++ ['\n']) :=
  grepLoop_eq pattern hread 0 [] input List.not_mem_nil hfit

/-- `grep b` on `ab\nc\nb` read a byte at a time writes `ab\n`. -/
theorem grep_lines_bytewise :
    (∀ i : ℕ, 0 < (fun _ => 1 : ℕ → ℕ) i) ∧
      (∀ l ∈ Lines.lines '\n' ['a', 'b', '\n', 'c', '\n', 'b'], l.length + 1 ≤ bufSize - 1) ∧
      grep ['b'] (fun _ => 1) ['a', 'b', '\n', 'c', '\n', 'b'] =
        ((Lines.lines '\n' ['a', 'b', '\n', 'c', '\n', 'b']).filter (matchRe ['b'])).flatMap
          (· ++ ['\n']) :=
  ⟨fun _ => Nat.one_pos, by decide,
    grep_lines ['b'] _ (fun _ => 1) (fun _ => Nat.one_pos) (by decide)⟩

end Grep

end Xv6
