import Mathlib

/-!
# Regular expressions with single-symbol stars

Patterns that are a sequence of items, each one symbol (a literal or the wildcard) or a
symbol under a star, and the words they match (`Matches`): a starred symbol matches any number
of symbols it accepts. `matches_star_iff` reads the star as a split of the word into a run of
accepted symbols and the rest, and `MatchesPrefix` is a match of some prefix, with the match
required to reach the end when the pattern is anchored there.
-/

namespace SimpleRegex

variable {α : Type*}

/-- One symbol of a pattern. -/
inductive Atom (α : Type*)
  | lit (a : α)
  | any
  deriving DecidableEq

/-- An item: a symbol, or a symbol under a star. -/
inductive Item (α : Type*)
  | one (a : Atom α)
  | star (a : Atom α)
  deriving DecidableEq

/-- The symbol of an item. -/
def Item.atom : Item α → Atom α
  | .one a => a
  | .star a => a

/-- The symbols an atom matches. -/
def Atom.Accepts : Atom α → α → Prop
  | .lit a, b => b = a
  | .any, _ => True

/-- The words a sequence of items matches. -/
inductive Matches : List (Item α) → List α → Prop
  | nil : Matches [] []
  | one {a : Atom α} {is : List (Item α)} {b : α} {w : List α} :
      a.Accepts b → Matches is w → Matches (.one a :: is) (b :: w)
  | starNil {a : Atom α} {is : List (Item α)} {w : List α} :
      Matches is w → Matches (.star a :: is) w
  | starCons {a : Atom α} {is : List (Item α)} {b : α} {w : List α} :
      a.Accepts b → Matches (.star a :: is) w → Matches (.star a :: is) (b :: w)

@[simp] theorem matches_nil_iff {w : List α} : Matches [] w ↔ w = [] := by
  constructor
  · rintro ⟨⟩
    rfl
  · rintro rfl
    exact .nil

theorem matches_one_iff {a : Atom α} {is : List (Item α)} {w : List α} :
    Matches (.one a :: is) w ↔ ∃ b w', w = b :: w' ∧ a.Accepts b ∧ Matches is w' := by
  constructor
  · rintro ⟨⟩
    exact ⟨_, _, rfl, ‹_›, ‹_›⟩
  · rintro ⟨b, w', rfl, hb, hw⟩
    exact .one hb hw

/-- A star matches a run of accepted symbols, then the rest of the pattern matches what is
left. -/
theorem matches_star_iff {a : Atom α} {is : List (Item α)} {w : List α} :
    Matches (.star a :: is) w ↔
      ∃ n ≤ w.length, (∀ b ∈ w.take n, a.Accepts b) ∧ Matches is (w.drop n) := by
  constructor
  · intro h
    induction w with
    | nil =>
      cases h with
      | starNil h => exact ⟨0, Nat.le_refl _, by simp, h⟩
    | cons b w ih =>
      cases h with
      | starNil h => exact ⟨0, Nat.zero_le _, by simp, h⟩
      | starCons hb h =>
        -- one more accepted symbol in front of the run
        obtain ⟨n, hn, hrun, hrest⟩ := ih h
        refine ⟨n + 1, by simp; omega, ?_, hrest⟩
        intro c hc
        rw [List.take_succ_cons, List.mem_cons] at hc
        rcases hc with rfl | hc
        · exact hb
        · exact hrun c hc
  · rintro ⟨n, hn, hrun, hrest⟩
    induction w generalizing n with
    | nil =>
      rw [List.drop_nil] at hrest
      exact .starNil hrest
    | cons b w ih =>
      cases n with
      | zero => exact .starNil hrest
      | succ n =>
        exact .starCons (hrun b (by simp)) (ih n (by simp at hn; omega)
          (fun c hc => hrun c (by rw [List.take_succ_cons]; exact List.mem_cons_of_mem b hc)) hrest)

/-- Some prefix of `w` is matched, the whole of `w` if the pattern is anchored at the end. -/
def MatchesPrefix (is : List (Item α)) (anchored : Bool) (w : List α) : Prop :=
  ∃ k ≤ w.length, (anchored → k = w.length) ∧ Matches is (w.take k)

theorem matchesPrefix_nil_iff {anchored : Bool} {w : List α} :
    MatchesPrefix [] anchored w ↔ (anchored → w = []) := by
  constructor
  · rintro ⟨k, hk, hend, hm⟩ ha
    rw [matches_nil_iff, List.take_eq_nil_iff] at hm
    rcases hm with rfl | rfl
    · exact List.length_eq_zero_iff.1 (hend ha).symm
    · rfl
  · intro h
    refine ⟨0, Nat.zero_le _, fun ha => ?_, by simp⟩
    rw [h ha]
    rfl

theorem matchesPrefix_one_iff {a : Atom α} {is : List (Item α)} {anchored : Bool} {w : List α} :
    MatchesPrefix (.one a :: is) anchored w ↔
      ∃ b w', w = b :: w' ∧ a.Accepts b ∧ MatchesPrefix is anchored w' := by
  constructor
  · rintro ⟨k, hk, hend, hm⟩
    obtain ⟨b, w', hw, hb, hm'⟩ := matches_one_iff.1 hm
    -- the match took the first symbol
    cases w with
    | nil => simp at hw
    | cons c w =>
      cases k with
      | zero => simp at hw
      | succ k =>
        rw [List.take_succ_cons, List.cons.injEq] at hw
        obtain ⟨rfl, rfl⟩ := hw
        refine ⟨_, w, rfl, hb, k, by simp at hk; omega, fun ha => ?_, hm'⟩
        have := hend ha
        simp at this
        exact this
  · rintro ⟨b, w', rfl, hb, k, hk, hend, hm⟩
    refine ⟨k + 1, by simp; omega, fun ha => ?_, by
      rw [List.take_succ_cons]
      exact .one hb hm⟩
    simp [hend ha]

/-- A star followed by the rest of the pattern matches a prefix when a run of accepted symbols
is followed by a prefix the rest matches. -/
theorem matchesPrefix_star_iff {a : Atom α} {is : List (Item α)} {anchored : Bool} {w : List α} :
    MatchesPrefix (.star a :: is) anchored w ↔
      ∃ n ≤ w.length, (∀ b ∈ w.take n, a.Accepts b) ∧ MatchesPrefix is anchored (w.drop n) := by
  constructor
  · rintro ⟨k, hk, hend, hm⟩
    obtain ⟨n, hn, hrun, hrest⟩ := matches_star_iff.1 hm
    simp only [List.length_take] at hn
    refine ⟨n, by omega, ?_, k - n, by simp; omega, fun ha => by simp [hend ha], ?_⟩
    · rwa [List.take_take, Nat.min_eq_left (by omega)] at hrun
    · rw [List.drop_take] at hrest
      exact hrest
  · rintro ⟨n, hn, hrun, k, hk, hend, hm⟩
    simp only [List.length_drop] at hk
    refine ⟨n + k, by omega, fun ha => by simp [hend ha]; omega, matches_star_iff.2 ⟨n, ?_, ?_, ?_⟩⟩
    · simp
      omega
    · rwa [List.take_take, Nat.min_eq_left (by omega)]
    · rw [List.drop_take, Nat.add_sub_cancel_left]
      exact hm

end SimpleRegex
