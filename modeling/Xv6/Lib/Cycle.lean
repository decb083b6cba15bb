import Mathlib

/-!
# Doubly linked cycles through a sentinel

A circular doubly linked list with a sentinel node is described by the list `l` of its other
nodes, in order from the sentinel: the cycle is `sentinel, l₀, …, l_{k-1}, sentinel`. A
pointer is an `Option α`, the sentinel being `none`; `next l` and `prev l` are the pointer
fields such a list must hold.

* `next`, `prev`, with `next_cons`, `prev_cons` (a node pushed at the front) and
  `next_append_singleton` (a node pushed at the back);
* `next_remove`, `prev_remove`: unlinking a node `b` from `l₁ ++ b :: l₂` changes only the
  `next` field of the node before it and the `prev` field of the node after it;
* `walk`: following pointers from a node until a test succeeds or the sentinel is reached;
  `walk_next` says it finds the first node of the list that passes the test (`List.find?`),
  and the lemmas on `List.find?` that say how that node changes with the list and the test.
-/

namespace LinkedCycle

variable {α : Type*} [DecidableEq α]

/-- The node after the first occurrence of `x` in `l`; `none` if `x` is last or absent. -/
def succ : List α → α → Option α
  | [], _ => none
  | a :: l, x => if a = x then l.head? else succ l x

/-- The `next` fields of the cycle through the sentinel `none` and the nodes of `l`. -/
def next (l : List α) : Option α → Option α
  | none => l.head?
  | some x => succ l x

/-- The `prev` fields of the same cycle. -/
def prev (l : List α) : Option α → Option α := next l.reverse

@[simp] theorem next_none (l : List α) : next l none = l.head? := rfl

@[simp] theorem next_some (l : List α) (x : α) : next l (some x) = succ l x := rfl

theorem succ_of_not_mem {l : List α} {x : α} (h : x ∉ l) : succ l x = none := by
  induction l with
  | nil => rfl
  | cons a l ih =>
    have hax : a ≠ x := by
      rintro rfl
      exact h (List.mem_cons_self ..)
    rw [succ, if_neg hax]
    exact ih (fun hx => h (List.mem_cons_of_mem _ hx))

/-- The last node points to the sentinel. -/
theorem succ_append_singleton_self {m : List α} {b : α} (hb : b ∉ m) : succ (m ++ [b]) b = none := by
  induction m with
  | nil => simp [succ]
  | cons a m ih =>
    have hab : a ≠ b := by
      rintro rfl
      exact hb (List.mem_cons_self ..)
    rw [List.cons_append, succ, if_neg hab]
    exact ih (fun h => hb (List.mem_cons_of_mem _ h))

/-- The node before `x`. -/
theorem prev_some (l : List α) (x : α) : prev l (some x) = succ l.reverse x := rfl

theorem prev_none (l : List α) : prev l none = l.getLast? := by
  simp [prev, List.head?_reverse]

/-- Pushing `b` at the front: the sentinel now points to `b`, and `b` to the old first node. -/
theorem next_cons {b : α} {l : List α} :
    next (b :: l) = Function.update (Function.update (next l) (some b) l.head?) none (some b) := by
  funext x
  rcases x with _ | c
  · simp
  · by_cases hc : c = b
    · subst hc
      simp [succ]
    · simp [succ, Ne.symm hc, hc]

/-- The successor of a node in `m ++ [b]`: the last node of `m` now points to `b`. -/
theorem succ_append_singleton {m : List α} {b c : α} (hm : m.Nodup) (hc : c ∈ m) :
    succ (m ++ [b]) c = if m.getLast? = some c then some b else succ m c := by
  induction m with
  | nil => exact absurd hc List.not_mem_nil
  | cons a m ih =>
    rw [List.cons_append, succ, succ]
    by_cases hac : a = c
    · subst hac
      rw [if_pos rfl, if_pos rfl]
      rcases m with _ | ⟨d, m⟩
      · simp
      · -- `a` is not last: the last node of `d :: m` differs from `a`
        have hlast : (a :: d :: m).getLast? ≠ some a := by
          rw [List.getLast?_cons_cons]
          intro h
          exact (List.nodup_cons.1 hm).1 (List.mem_of_getLast? h)
        rw [if_neg hlast]
        rfl
    · rw [if_neg hac, if_neg hac]
      have hc' : c ∈ m := (List.mem_cons.1 hc).resolve_left (Ne.symm hac)
      rw [ih (List.nodup_cons.1 hm).2 hc']
      rcases m with _ | ⟨d, m⟩
      · exact absurd hc' List.not_mem_nil
      · rw [List.getLast?_cons_cons]

/-- Pushing `b` at the back: the last node (or the sentinel) points to `b`, and `b` to the
sentinel. -/
theorem next_append_singleton {b : α} {m : List α} (hm : m.Nodup) (hb : b ∉ m) :
    next (m ++ [b]) = Function.update (Function.update (next m) m.getLast? (some b)) (some b) none := by
  funext x
  rcases x with _ | c
  · rcases m with _ | ⟨d, m⟩
    · simp
    · have : (d :: m).getLast? ≠ none := by simp
      simp [Function.update_of_ne (Ne.symm this)]
  · by_cases hcb : c = b
    · subst hcb
      rw [Function.update_self, next_some, succ_append_singleton_self hb]
    · rw [Function.update_of_ne (by simpa using hcb), next_some]
      by_cases hcm : c ∈ m
      · rw [succ_append_singleton hm hcm]
        by_cases hl : m.getLast? = some c
        · rw [if_pos hl, ← hl, Function.update_self]
        · rw [if_neg hl, Function.update_of_ne (Ne.symm hl), next_some]
      · have hl : m.getLast? ≠ some c := fun h => hcm (List.mem_of_getLast? h)
        rw [succ_of_not_mem (by simp [hcm, hcb]), Function.update_of_ne (Ne.symm hl), next_some,
          succ_of_not_mem hcm]

/-- A node points to the node after it. -/
theorem succ_append_cons_self {l₁ l₂ : List α} {c : α} (hc : c ∉ l₁) :
    succ (l₁ ++ c :: l₂) c = l₂.head? := by
  induction l₁ with
  | nil => simp [succ]
  | cons a l₁ ih =>
    have hac : a ≠ c := by
      rintro rfl
      exact hc (List.mem_cons_self ..)
    rw [List.cons_append, succ, if_neg hac]
    exact ih (fun h => hc (List.mem_cons_of_mem _ h))

/-- Unlinking `b`: the node before it (the last node of `l₁`) now points to the node after
it (the first node of `l₂`); no other node changes. -/
theorem succ_remove {l₁ l₂ : List α} {b c : α} (h : (l₁ ++ b :: l₂).Nodup) (hcb : c ≠ b) :
    succ (l₁ ++ l₂) c = if l₁.getLast? = some c then l₂.head? else succ (l₁ ++ b :: l₂) c := by
  induction l₁ with
  | nil => simp [succ, Ne.symm hcb]
  | cons a l₁ ih =>
    have h' : (l₁ ++ b :: l₂).Nodup := (List.nodup_cons.1 h).2
    rw [List.cons_append, List.cons_append, succ, succ]
    by_cases hac : a = c
    · subst hac
      rw [if_pos rfl, if_pos rfl]
      rcases l₁ with _ | ⟨d, l₁⟩
      · simp
      · -- `a` is not the last node of `a :: d :: l₁`
        have hlast : (a :: d :: l₁).getLast? ≠ some a := by
          rw [List.getLast?_cons_cons]
          intro hl
          exact (List.nodup_cons.1 h).1 (List.mem_append_left _ (List.mem_of_getLast? hl))
        rw [if_neg hlast]
        rfl
    · rw [if_neg hac, if_neg hac, ih h']
      rcases l₁ with _ | ⟨d, l₁⟩
      · simp [hac]
      · rw [List.getLast?_cons_cons]

/-- Unlinking `b` from the cycle, as pointer fields: away from `b` itself, only the node
before `b` changes, to point to the node after it. -/
theorem next_remove {l₁ l₂ : List α} {b : α} (h : (l₁ ++ b :: l₂).Nodup) {x : Option α}
    (hx : x ≠ some b) :
    next (l₁ ++ l₂) x = Function.update (next (l₁ ++ b :: l₂)) l₁.getLast? l₂.head? x := by
  rcases x with _ | c
  · rcases l₁ with _ | ⟨a, l₁⟩
    · simp
    · have : (a :: l₁).getLast? ≠ none := by simp
      rw [Function.update_of_ne (Ne.symm this)]
      simp
  · have hcb : c ≠ b := fun hc => hx (by rw [hc])
    rw [next_some, succ_remove h hcb]
    by_cases hl : l₁.getLast? = some c
    · rw [if_pos hl, ← hl, Function.update_self]
    · rw [if_neg hl, Function.update_of_ne (Ne.symm hl), next_some]

/-- The node `b` of `l₁ ++ b :: l₂` points forward to the first node of `l₂`. -/
theorem next_self {l₁ l₂ : List α} {b : α} (h : (l₁ ++ b :: l₂).Nodup) :
    next (l₁ ++ b :: l₂) (some b) = l₂.head? :=
  succ_append_cons_self fun hb => List.disjoint_of_nodup_append h hb (List.mem_cons_self ..)

/-- The node `b` of `l₁ ++ b :: l₂` points back to the last node of `l₁`. -/
theorem prev_self {l₁ l₂ : List α} {b : α} (h : (l₁ ++ b :: l₂).Nodup) :
    prev (l₁ ++ b :: l₂) (some b) = l₁.getLast? := by
  have hr : (l₁ ++ b :: l₂).reverse = l₂.reverse ++ b :: l₁.reverse := by simp
  have h' : (l₂.reverse ++ b :: l₁.reverse).Nodup := by
    rw [← hr]
    exact List.nodup_reverse.2 h
  rw [prev, hr, next_self h', List.head?_reverse]

/-- Pushing `b` at the front, as `prev` fields: the old first node (or the sentinel) points
back to `b`, and `b` to the sentinel. -/
theorem prev_cons {b : α} {l : List α} (h : (b :: l).Nodup) :
    prev (b :: l) =
      Function.update (Function.update (prev l) (some b) none) l.head? (some b) := by
  have hb : b ∉ l.reverse := by simpa using (List.nodup_cons.1 h).1
  have hne : l.head? ≠ some b := fun he => (List.nodup_cons.1 h).1 (List.mem_of_head? he)
  rw [prev, List.reverse_cons, next_append_singleton (List.nodup_reverse.2 (List.nodup_cons.1 h).2) hb,
    List.getLast?_reverse, Function.update_comm hne]
  rfl

/-- Unlinking `b`, as `prev` fields: away from `b`, only the node after `b` changes, to point
back to the node before it. -/
theorem prev_remove {l₁ l₂ : List α} {b : α} (h : (l₁ ++ b :: l₂).Nodup) {x : Option α}
    (hx : x ≠ some b) :
    prev (l₁ ++ l₂) x = Function.update (prev (l₁ ++ b :: l₂)) l₂.head? l₁.getLast? x := by
  have hr : (l₁ ++ b :: l₂).reverse = l₂.reverse ++ b :: l₁.reverse := by simp
  have h' : (l₂.reverse ++ b :: l₁.reverse).Nodup := by
    rw [← hr]
    exact List.nodup_reverse.2 h
  have := next_remove h' hx
  rw [List.getLast?_reverse, List.head?_reverse] at this
  rw [prev, prev, hr, List.reverse_append, this]

/-- The `prev` field of the node after `x` points back to `x`. -/
theorem prev_next {l : List α} (h : l.Nodup) {x : Option α} (hx : ∀ a, x = some a → a ∈ l) :
    prev l (next l x) = x := by
  rcases x with _ | a
  · rcases l with _ | ⟨a, l⟩
    · rfl
    · have ha : a ∉ l.reverse := by simpa using (List.nodup_cons.1 h).1
      rw [next_none, List.head?_cons, prev_some, List.reverse_cons, succ_append_singleton_self ha]
  · obtain ⟨l₁, l₂, rfl⟩ := List.append_of_mem (hx a rfl)
    have ha₁ : a ∉ l₁ := fun ha => List.disjoint_of_nodup_append h ha (List.mem_cons_self ..)
    rw [next_some, succ_append_cons_self ha₁]
    rcases l₂ with _ | ⟨c, l₂⟩
    · simp [prev_none]
    · have hc : c ∉ l₂.reverse := by
        have := (List.nodup_cons.1 (List.nodup_cons.1 (List.nodup_append.1 h).2.1).2).1
        simpa using this
      rw [List.head?_cons, prev_some]
      have : (l₁ ++ a :: c :: l₂).reverse = l₂.reverse ++ c :: (a :: l₁.reverse) := by simp
      rw [this, succ_append_cons_self hc]
      rfl

/-- The `next` field of the node before `x` points back to `x`. -/
theorem next_prev {l : List α} (h : l.Nodup) {x : Option α} (hx : ∀ a, x = some a → a ∈ l) :
    next l (prev l x) = x := by
  have := prev_next (l := l.reverse) (List.nodup_reverse.2 h) (x := x) (by simpa using hx)
  simpa [prev] using this

/-! ### Walking the cycle -/

/-- Follow `f` from `x`, for at most `fuel` nodes, until a node passes `p`: `some (some a)`
for the node found, `some none` on reaching the sentinel, `none` if the fuel runs out. -/
def walk (f : Option α → Option α) (p : α → Bool) : ℕ → Option α → Option (Option α)
  | 0, _ => none
  | _ + 1, none => some none
  | k + 1, some a => if p a then some (some a) else walk f p k (f (some a))

/-- Walking the `next` fields from any node finds the first node after it that passes the
test, or reaches the sentinel. -/
theorem walk_next_append {l₁ l₂ : List α} (h : (l₁ ++ l₂).Nodup) (p : α → Bool) {k : ℕ}
    (hk : l₂.length < k) : walk (next (l₁ ++ l₂)) p k l₂.head? = some (l₂.find? p) := by
  induction l₂ generalizing l₁ k with
  | nil =>
    cases k with
    | zero => exact absurd hk (Nat.lt_irrefl 0)
    | succ k => rfl
  | cons c l₂ ih =>
    cases k with
    | zero => exact absurd hk (Nat.not_lt_zero _)
    | succ k =>
      simp only [List.head?_cons, walk, List.find?_cons]
      cases hp : p c with
      | true => rfl
      | false =>
        have hc : c ∉ l₁ := fun hc => List.disjoint_of_nodup_append h hc (List.mem_cons_self ..)
        simp only [Bool.false_eq_true, if_false, next_some]
        rw [succ_append_cons_self hc]
        have h' : ((l₁ ++ [c]) ++ l₂).Nodup := by simpa using h
        have := ih h' (k := k) (by simpa using hk)
        simpa using this

/-- Walking the `next` fields from the sentinel finds the first node that passes the test. -/
theorem walk_next {l : List α} (h : l.Nodup) (p : α → Bool) {k : ℕ} (hk : l.length < k) :
    walk (next l) p k (next l none) = some (l.find? p) :=
  @walk_next_append α _ [] l h p k hk

/-- Walking the `prev` fields from the sentinel finds the last node that passes the test. -/
theorem walk_prev {l : List α} (h : l.Nodup) (p : α → Bool) {k : ℕ} (hk : l.length < k) :
    walk (prev l) p k (prev l none) = some (l.reverse.find? p) :=
  walk_next (List.nodup_reverse.2 h) p (by simpa using hk)

/-! ### First matches -/

/-- Removing a node that fails the test does not change the first node that passes it. -/
theorem find?_erase_of_neg {p : α → Bool} {b : α} (hb : p b = false) (l : List α) :
    (l.erase b).find? p = l.find? p := by
  induction l with
  | nil => rfl
  | cons a l ih =>
    by_cases hab : a = b
    · subst hab
      simp [hb]
    · rw [List.erase_cons_tail (by simpa using hab)]
      by_cases hpa : p a
      · rw [List.find?_cons_of_pos hpa, List.find?_cons_of_pos hpa]
      · rw [List.find?_cons_of_neg hpa, List.find?_cons_of_neg hpa, ih]

omit [DecidableEq α] in
/-- The first node passing a test still comes first for a stronger test that it passes. -/
theorem find?_of_le {p q : α → Bool} {l : List α} {u : α} (hqp : ∀ x, q x → p x)
    (hp : l.find? p = some u) (hq : q u) : l.find? q = some u := by
  induction l with
  | nil => cases hp
  | cons a l ih =>
    by_cases hpa : p a
    · -- `a` is the first match of `p`, so it is `u`
      rw [List.find?_cons_of_pos hpa] at hp
      cases hp
      exact List.find?_cons_of_pos hq
    · rw [List.find?_cons_of_neg hpa] at hp
      rw [List.find?_cons_of_neg (fun hqa => hpa (hqp a hqa)), ih hp]

omit [DecidableEq α] in
/-- A node of the list that alone passes the test is the first match. -/
theorem find?_eq_some_of_unique {p : α → Bool} {l : List α} {u : α} (hu : u ∈ l) (hpu : p u)
    (h : ∀ x ∈ l, p x → x = u) : l.find? p = some u := by
  induction l with
  | nil => cases hu
  | cons a l ih =>
    by_cases hpa : p a
    · rw [List.find?_cons_of_pos hpa, h a (List.mem_cons_self ..) hpa]
    · have hau : a ≠ u := fun hau => hpa (hau ▸ hpu)
      rw [List.find?_cons_of_neg hpa]
      exact ih ((List.mem_cons.1 hu).resolve_left (Ne.symm hau))
        (fun x hx => h x (List.mem_cons_of_mem _ hx))

end LinkedCycle
