import Mathlib

/-!
# Lines of a stream

A stream cut at a separator: `lines sep s` are the pieces of `s` that a separator ends, without
it, and `lastLine sep s` is the piece after the last separator, which none ends yet. A reader
that takes its input in chunks sees the lines of the whole stream chunk by chunk:

* `lines_append`: the lines of `x ++ y` are those of `x`, then those of the unfinished piece of
  `x` followed by `y`; `lastLine_append` says the same of the unfinished piece;
* `sep_induction`: a stream is one piece, or a first line, its separator and the rest;
* `prefix_head_splitOn`: what comes before the first separator begins the first piece.
-/

namespace Lines

variable {α : Type*} [BEq α] [LawfulBEq α] (sep : α)

/-- The pieces of `s` that a separator ends, without the separator. -/
def lines (s : List α) : List (List α) := (s.splitOn sep).dropLast

/-- The piece of `s` after its last separator. -/
def lastLine (s : List α) : List α := (s.splitOn sep).getLast (List.splitOn_ne_nil sep s)

theorem lines_of_not_mem {s : List α} (h : sep ∉ s) : lines sep s = [] := by
  simp [lines, List.splitOn_eq_singleton h]

theorem lastLine_of_not_mem {s : List α} (h : sep ∉ s) : lastLine sep s = s := by
  simp [lastLine, List.splitOn_eq_singleton h]

theorem lines_append_cons {a : List α} (h : sep ∉ a) (b : List α) :
    lines sep (a ++ sep :: b) = a :: lines sep b := by
  rw [lines, List.splitOn_append_cons_self_of_not_mem h,
    List.dropLast_cons_of_ne_nil (List.splitOn_ne_nil sep b)]
  rfl

theorem lastLine_append_cons {a : List α} (h : sep ∉ a) (b : List α) :
    lastLine sep (a ++ sep :: b) = lastLine sep b := by
  simp only [lastLine, List.splitOn_append_cons_self_of_not_mem h]
  exact List.getLast_cons (List.splitOn_ne_nil sep b)

/-- Induction over the lines of a stream: it is a piece with no separator, or a first line
without one, the separator and the rest. -/
@[elab_as_elim]
theorem sep_induction {motive : List α → Prop} (last : ∀ s, sep ∉ s → motive s)
    (line : ∀ a b, sep ∉ a → motive b → motive (a ++ sep :: b)) (s : List α) : motive s := by
  induction hn : s.length using Nat.strongRecOn generalizing s with
  | _ n ih =>
    by_cases hs : sep ∈ s
    · -- cut at the first separator; the rest is shorter
      obtain ⟨a, b, rfl, ha⟩ := List.eq_append_cons_of_mem hs
      have hlt : b.length < n := by
        rw [← hn, List.length_append, List.length_cons]
        omega
      exact line a b ha (ih b.length hlt b rfl)
    · exact last s hs

theorem lastLine_not_mem (s : List α) : sep ∉ lastLine sep s := by
  induction s using sep_induction sep with
  | last s hs => rwa [lastLine_of_not_mem sep hs]
  | line a b ha ih => rwa [lastLine_append_cons sep ha]

theorem lines_append (x y : List α) :
    lines sep (x ++ y) = lines sep x ++ lines sep (lastLine sep x ++ y) := by
  induction x using sep_induction sep with
  | last x hx => rw [lines_of_not_mem sep hx, lastLine_of_not_mem sep hx, List.nil_append]
  | line a b ha ih =>
    rw [List.append_assoc, List.cons_append, lines_append_cons sep ha, lines_append_cons sep ha,
      lastLine_append_cons sep ha, ih, List.cons_append]

theorem lastLine_append (x y : List α) :
    lastLine sep (x ++ y) = lastLine sep (lastLine sep x ++ y) := by
  induction x using sep_induction sep with
  | last x hx => rw [lastLine_of_not_mem sep hx]
  | line a b ha ih =>
    rw [List.append_assoc, List.cons_append, lastLine_append_cons sep ha,
      lastLine_append_cons sep ha, ih]

/-- A piece with no separator begins the first piece of whatever follows it. -/
theorem prefix_head_splitOn {a : List α} (h : sep ∉ a) (b : List α) :
    a <+: ((a ++ b).splitOn sep).head (List.splitOn_ne_nil sep _) := by
  by_cases hb : sep ∈ b
  · -- the first piece ends at the first separator of `b`
    obtain ⟨b₁, b₂, rfl, hb₁⟩ := List.eq_append_cons_of_mem hb
    simp only [← List.append_assoc, List.splitOn_append_cons_self_of_not_mem (List.not_mem_append h hb₁),
      List.head_cons]
    exact List.prefix_append a b₁
  · simp only [List.splitOn_eq_singleton (List.not_mem_append h hb), List.head_cons]
    exact List.prefix_append a b

/-- ... and so the first line, if a separator ends it. -/
theorem prefix_of_head_lines {a : List α} (h : sep ∉ a) (b : List α) {l : List α}
    (hl : (lines sep (a ++ b)).head? = some l) : a <+: l := by
  rw [lines, List.head?_dropLast] at hl
  split_ifs at hl
  rw [List.head?_eq_some_head (List.splitOn_ne_nil _ _), Option.some.injEq] at hl
  rw [← hl]
  exact prefix_head_splitOn sep h b

end Lines
