import Mathlib

/-!
# C strings

A C string is a run of characters ended by a NUL. Memory is read as a function from offsets to
characters, so that a string and whatever follows it are one function. `strncmp` and `strncpy`
are the bounded comparison and copy of the C library, over any type of characters with a NUL
character `nul` and a code `ord` for the difference `strncmp` returns.

* `ctake p n`: the characters of the string at `p` before its NUL, at most `n` of them;
* `strncmp_eq_zero_iff`: `strncmp p q n = 0` exactly when `p` and `q` agree in their first `n`
  characters as strings;
* `ctake_strncpy`: a field filled by `strncpy t n` holds, as a string cut at `n`, the first `n`
  characters of `t`, whatever memory follows the field;
* `cstr`, `ctake_cstr`: a list without NUL laid out as a string;
* `ctake_field_append`: a field read as a string, a list without NUL at a time.
-/

namespace CString

variable {α : Type*} (nul : α)

/-- The list `l` laid out as a string: its characters, then NULs. -/
def cstr (l : List α) : ℕ → α := fun i => l.getD i nul

/-- A field holding `f`, followed in memory by `rest`. -/
def field (f : List α) (rest : ℕ → α) : ℕ → α :=
  fun i => if h : i < f.length then f[i] else rest (i - f.length)

theorem field_cons_zero (a : α) (f : List α) (rest : ℕ → α) : field (a :: f) rest 0 = a := by
  simp [field]

theorem field_cons_succ (a : α) (f : List α) (rest : ℕ → α) :
    (fun i => field (a :: f) rest (i + 1)) = field f rest := by
  funext i
  simp [field]

variable [DecidableEq α]

/-- The characters of the string at `p` before its NUL, at most `n` of them. -/
def ctake (p : ℕ → α) : ℕ → List α
  | 0 => []
  | n + 1 => if p 0 = nul then [] else p 0 :: ctake (fun i => p (i + 1)) n

/-- `strncmp(p, q, n)`: step past equal characters that are not NUL, at most `n` of them, and
return the difference of the codes where the strings part. -/
def strncmp (ord : α → ℤ) (p q : ℕ → α) : ℕ → ℤ
  | 0 => 0
  | n + 1 =>
    if p 0 ≠ nul ∧ p 0 = q 0 then strncmp ord (fun i => p (i + 1)) (fun i => q (i + 1)) n
    else ord (p 0) - ord (q 0)

/-- The `n` characters `strncpy(s, t, n)` writes at `s`: those of `t` up to and including its
NUL, then NULs. -/
def strncpy (t : ℕ → α) : ℕ → List α
  | 0 => []
  | n + 1 => t 0 :: if t 0 = nul then List.replicate n nul else strncpy (fun i => t (i + 1)) n

variable {nul}

@[simp] theorem ctake_zero (p : ℕ → α) : ctake nul p 0 = [] := rfl

theorem ctake_succ (p : ℕ → α) (n : ℕ) :
    ctake nul p (n + 1) = if p 0 = nul then [] else p 0 :: ctake nul (fun i => p (i + 1)) n := rfl

@[simp] theorem length_strncpy (t : ℕ → α) (n : ℕ) : (strncpy nul t n).length = n := by
  induction n generalizing t with
  | zero => rfl
  | succ n ih =>
    rw [strncpy]
    split_ifs <;> simp [ih]

/-- `strncmp` returns `0` exactly when the two strings agree in their first `n` characters. -/
theorem strncmp_eq_zero_iff {ord : α → ℤ} (hord : Function.Injective ord) (n : ℕ) :
    ∀ p q : ℕ → α, strncmp nul ord p q n = 0 ↔ ctake nul p n = ctake nul q n := by
  induction n with
  | zero => simp [strncmp]
  | succ n ih =>
    intro p q
    rw [strncmp, ctake_succ, ctake_succ]
    by_cases h : p 0 ≠ nul ∧ p 0 = q 0
    · -- both strings go on with the same character
      rw [if_pos h, ih, if_neg h.1, if_neg (h.2 ▸ h.1), h.2, List.cons.injEq]
      simp
    · rw [if_neg h, Int.sub_eq_zero, hord.eq_iff]
      by_cases hp : p 0 = nul
      · by_cases hq : q 0 = nul
        · simp [hp, hq]
        · rw [if_pos hp, if_neg hq, hp]
          exact iff_of_false (fun e => hq e.symm) (by simp)
      · have hpq : p 0 ≠ q 0 := fun e => h ⟨hp, e⟩
        by_cases hq : q 0 = nul <;> simp [hp, hq, hpq]

/-- What `strncpy t n` leaves in a field, read back as a string of at most `n` characters, is
the first `n` characters of `t`: a copy of exactly `n` characters stores no NUL, and none is
needed since the reader stops at `n`. -/
theorem ctake_strncpy (rest : ℕ → α) (n : ℕ) :
    ∀ t : ℕ → α, ctake nul (field (strncpy nul t n) rest) n = ctake nul t n := by
  induction n with
  | zero => simp
  | succ n ih =>
    intro t
    rw [strncpy, ctake_succ, ctake_succ, field_cons_zero, field_cons_succ]
    by_cases ht : t 0 = nul
    · simp [ht]
    · simp only [if_neg ht, ih]

theorem ctake_cstr {l : List α} (hl : nul ∉ l) (n : ℕ) : ctake nul (cstr nul l) n = l.take n := by
  induction n generalizing l with
  | zero => simp
  | succ n ih =>
    cases l with
    | nil => simp [ctake_succ, cstr]
    | cons a l =>
      have ha : a ≠ nul := fun e => hl (e ▸ List.mem_cons_self ..)
      have hl' : nul ∉ l := fun h => hl (List.mem_cons_of_mem a h)
      rw [ctake_succ]
      simp only [cstr, List.getD_cons_zero, List.getD_cons_succ, if_neg ha, List.take_succ_cons]
      rw [← ih hl']
      rfl

/-- A field that starts with a string without NUL reads as that string, then as what follows
it in the field. -/
theorem ctake_field_append {l : List α} (hl : nul ∉ l) (m : List α) (rest : ℕ → α) (n : ℕ) :
    ctake nul (field (l ++ m) rest) n = l.take n ++ ctake nul (field m rest) (n - l.length) := by
  induction l generalizing n with
  | nil => simp
  | cons a l ih =>
    have ha : a ≠ nul := fun e => hl (e ▸ List.mem_cons_self ..)
    cases n with
    | zero => simp
    | succ n =>
      rw [ctake_succ, List.cons_append, field_cons_zero, if_neg ha, field_cons_succ,
        ih (fun h => hl (List.mem_cons_of_mem a h)), List.take_succ_cons, List.length_cons,
        Nat.add_sub_add_right, List.cons_append]

/-- A field that starts with a NUL reads as the empty string. -/
@[simp] theorem ctake_field_nul (m : List α) (rest : ℕ → α) (n : ℕ) :
    ctake nul (field (nul :: m) rest) n = [] := by
  cases n with
  | zero => rfl
  | succ n => rw [ctake_succ, field_cons_zero, if_pos rfl]

/-- A string compared, within `n` characters, with a field that `strncpy` filled from another
string: the comparison is that of the two strings cut at `n`. -/
theorem strncmp_strncpy {ord : α → ℤ} (hord : Function.Injective ord) {a b : List α}
    (ha : nul ∉ a) (hb : nul ∉ b) (rest : ℕ → α) (n : ℕ) :
    strncmp nul ord (cstr nul a) (field (strncpy nul (cstr nul b) n) rest) n = 0 ↔
      a.take n = b.take n := by
  rw [strncmp_eq_zero_iff hord, ctake_strncpy, ctake_cstr ha, ctake_cstr hb]

end CString
