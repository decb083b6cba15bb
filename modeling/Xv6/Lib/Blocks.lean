import Mathlib

/-!
# Free lists of address blocks

A block is a start address and a size counted in units of `u` addresses; it covers the
half-open span `[start, start + u * size)`. A free list kept in address order is a list of
blocks, *separated* when each block ends strictly before every later one starts: sorted,
pairwise disjoint and never touching, so that no two neighbours could have been merged.

In memory such a list is a chain of headers, one at each block's start, each holding the
start of the next block and the block's own size (`Path`); a circular list closes the chain
back to its first block (`Cycle`).

* `stop`, `span`, `cover`, `Separated`, with `Separated.disjoint`,
  `Separated.disjoint_span_cover` and the bound `Separated.length_mul_le` on how many blocks
  fit between two addresses;
* `join`: a block followed by a list, merged with the list's first block when it ends where
  that block starts: `cover_join`, `separated_join`, and `forall_mem_join` for the properties
  of single blocks that a merge keeps;
* `Separated.starts`, `Separated.eq_of_start` (blocks are told apart by their starts),
  `Separated.shrink`, `Separated.exists_split` (the last block that starts below an
  address);
* `Path`, `Cycle`, with `path_append`, `Path.congr`, `Path.last` and `Cycle.rotate`;
* `scan`: following the chain from a header until a test succeeds; `scan_path` says it
  stops at the first block of the path that passes (`List.find?`).
-/

namespace Blocks

section Spans

variable (u : ℕ)

/-- The first address after block `b`. -/
def stop (b : ℕ × ℕ) : ℕ := b.1 + u * b.2

/-- The addresses block `b` covers. -/
def span (b : ℕ × ℕ) : Set ℕ := Set.Ico b.1 (stop u b)

/-- The addresses the blocks of `l` cover. -/
def cover (l : List (ℕ × ℕ)) : Set ℕ := {x | ∃ b ∈ l, x ∈ span u b}

/-- Each block ends strictly before every later one starts. -/
def Separated (l : List (ℕ × ℕ)) : Prop := l.Pairwise fun a b => stop u a < b.1

/-- Block `b` followed by the blocks of `l`, merged with the first of them when `b` ends
where that one starts. -/
def join (b : ℕ × ℕ) : List (ℕ × ℕ) → List (ℕ × ℕ)
  | c :: l => if stop u b = c.1 then (b.1, b.2 + c.2) :: l else b :: c :: l
  | [] => [b]

variable {u}

theorem le_stop (b : ℕ × ℕ) : b.1 ≤ stop u b := Nat.le_add_right _ _

@[simp] theorem mem_span {b : ℕ × ℕ} {x : ℕ} : x ∈ span u b ↔ b.1 ≤ x ∧ x < stop u b :=
  Set.mem_Ico

theorem disjoint_span {a b : ℕ × ℕ} (h : stop u a ≤ b.1 ∨ stop u b ≤ a.1) :
    Disjoint (span u a) (span u b) := by
  rw [span, span, Set.Ico_disjoint_Ico]
  omega

@[simp] theorem cover_nil : cover u [] = ∅ := by
  simp [cover]

@[simp] theorem cover_cons (b : ℕ × ℕ) (l : List (ℕ × ℕ)) :
    cover u (b :: l) = span u b ∪ cover u l := by
  ext x
  simp only [cover, List.mem_cons, exists_eq_or_imp, Set.mem_union, Set.mem_ofPred_eq]

@[simp] theorem cover_append (l₁ l₂ : List (ℕ × ℕ)) :
    cover u (l₁ ++ l₂) = cover u l₁ ∪ cover u l₂ := by
  induction l₁ with
  | nil => simp
  | cons b l₁ ih => rw [List.cons_append, cover_cons, cover_cons, ih, Set.union_assoc]

theorem span_subset_cover {b : ℕ × ℕ} {l : List (ℕ × ℕ)} (hb : b ∈ l) :
    span u b ⊆ cover u l := fun _ hx => ⟨b, hb, hx⟩

theorem disjoint_cover {s : Set ℕ} {l : List (ℕ × ℕ)} :
    Disjoint s (cover u l) ↔ ∀ b ∈ l, Disjoint s (span u b) := by
  induction l with
  | nil => simp
  | cons b l ih => simp [ih]

theorem stop_merge {a c : ℕ × ℕ} (h : stop u a = c.1) : stop u (a.1, a.2 + c.2) = stop u c := by
  simp only [stop] at h ⊢
  rw [Nat.mul_add]
  omega

/-- Two blocks, the first ending where the second starts, cover what the merged block
covers. -/
theorem span_merge {a c : ℕ × ℕ} (h : stop u a = c.1) :
    span u (a.1, a.2 + c.2) = span u a ∪ span u c := by
  have hac : a.1 ≤ c.1 := h ▸ le_stop a
  rw [span, span, span, stop_merge h, h, Set.Ico_union_Ico_eq_Ico hac (le_stop c)]

/-! ### Joining a block to a list -/

theorem cover_join (b : ℕ × ℕ) (l : List (ℕ × ℕ)) :
    cover u (join u b l) = span u b ∪ cover u l := by
  cases l with
  | nil => simp [join]
  | cons c l =>
    simp only [join]
    split_ifs with h
    · rw [cover_cons, span_merge h, cover_cons, Set.union_assoc]
    · rw [cover_cons]

/-- The joined list starts with `b`, grown by the next block when they were merged. -/
theorem join_eq_cons (b : ℕ × ℕ) (l : List (ℕ × ℕ)) :
    ∃ c l', join u b l = c :: l' ∧ c.1 = b.1 ∧ b.2 ≤ c.2 := by
  cases l with
  | nil => exact ⟨b, [], rfl, rfl, le_rfl⟩
  | cons c l =>
    simp only [join]
    split_ifs
    · exact ⟨_, l, rfl, rfl, Nat.le_add_right _ _⟩
    · exact ⟨b, c :: l, rfl, rfl, le_rfl⟩

/-- A property of single blocks that survives merging two touching blocks holds of every
block of the joined list. -/
theorem join_cons_of_ne {b c : ℕ × ℕ} {l : List (ℕ × ℕ)} (h : stop u b ≠ c.1) :
    join u b (c :: l) = b :: c :: l := by
  simp [join, h]

theorem length_join_le (b : ℕ × ℕ) (l : List (ℕ × ℕ)) : (join u b l).length ≤ l.length + 1 := by
  cases l with
  | nil => simp [join]
  | cons c l =>
    simp only [join]
    split_ifs <;> simp

/-- The joined list holds a block at least as large as the first block of the list. -/
theorem exists_mem_join_ge (b c : ℕ × ℕ) (l : List (ℕ × ℕ)) : ∃ d ∈ join u b (c :: l), c.2 ≤ d.2 := by
  simp only [join]
  split_ifs
  · exact ⟨_, List.mem_cons_self .., Nat.le_add_left _ _⟩
  · exact ⟨c, by simp, le_rfl⟩

theorem forall_mem_join (P : ℕ × ℕ → Prop)
    (hP : ∀ a c, stop u a = c.1 → P a → P c → P (a.1, a.2 + c.2))
    {b : ℕ × ℕ} {l : List (ℕ × ℕ)} (hb : P b) (hl : ∀ c ∈ l, P c) :
    ∀ c ∈ join u b l, P c := by
  cases l with
  | nil => simpa [join] using hb
  | cons c l =>
    simp only [join]
    split_ifs with h
    · intro d hd
      rcases List.mem_cons.1 hd with rfl | hd
      · exact hP b c h hb (hl c (List.mem_cons_self ..))
      · exact hl d (List.mem_cons_of_mem _ hd)
    · intro d hd
      rcases List.mem_cons.1 hd with rfl | hd
      · exact hb
      · exact hl d hd

theorem separated_join {b : ℕ × ℕ} {l : List (ℕ × ℕ)} (hl : Separated u l)
    (hb : ∀ c ∈ l, stop u b ≤ c.1) : Separated u (join u b l) := by
  cases l with
  | nil => simp [join, Separated]
  | cons c l =>
    have hcl := List.pairwise_cons.1 hl
    simp only [join]
    split_ifs with h
    · -- the merged block ends where `c` did
      refine List.pairwise_cons.2 ⟨fun d hd => ?_, hcl.2⟩
      rw [stop_merge h]
      exact hcl.1 d hd
    · have hbc : stop u b < c.1 := lt_of_le_of_ne (hb c (List.mem_cons_self ..)) h
      refine List.pairwise_cons.2 ⟨fun d hd => ?_, hl⟩
      rcases List.mem_cons.1 hd with rfl | hd
      · exact hbc
      · have := hcl.1 d hd
        have := le_stop (u := u) c
        omega

/-! ### Separated lists -/

theorem Separated.disjoint {l : List (ℕ × ℕ)} (hs : Separated u l) {a b : ℕ × ℕ} (ha : a ∈ l)
    (hb : b ∈ l) (hab : a ≠ b) : Disjoint (span u a) (span u b) := by
  have hsym : l.Pairwise fun a b => Disjoint (span u a) (span u b) :=
    hs.imp fun h => disjoint_span (.inl h.le)
  exact hsym.forall ha hb hab

/-- A block of a separated list is disjoint from all the others. -/
theorem Separated.disjoint_span_cover {l₁ l₂ : List (ℕ × ℕ)} {b : ℕ × ℕ}
    (hs : Separated u (l₁ ++ b :: l₂)) : Disjoint (span u b) (cover u (l₁ ++ l₂)) := by
  rw [disjoint_cover]
  intro c hc
  obtain ⟨h₁, h₂, h₁₂⟩ := List.pairwise_append.1 hs
  rcases List.mem_append.1 hc with hc | hc
  · exact disjoint_span (.inr (h₁₂ c hc b (List.mem_cons_self ..)).le)
  · exact disjoint_span (.inl ((List.pairwise_cons.1 h₂).1 c hc).le)

/-- In a separated list the blocks before a block start below it, and those after it
above. -/
theorem Separated.starts {l₁ l₂ : List (ℕ × ℕ)} {c : ℕ × ℕ} (hs : Separated u (l₁ ++ c :: l₂)) :
    (∀ x ∈ l₁, x.1 < c.1) ∧ ∀ y ∈ l₂, c.1 < y.1 := by
  obtain ⟨-, h₂, h₁₂⟩ := List.pairwise_append.1 hs
  refine ⟨fun x hx => ?_, fun y hy => ?_⟩
  · exact lt_of_le_of_lt (le_stop x) (h₁₂ x hx c (List.mem_cons_self ..))
  · exact lt_of_le_of_lt (le_stop c) ((List.pairwise_cons.1 h₂).1 y hy)

/-- The blocks of a separated list are told apart by their starts. -/
theorem Separated.eq_of_start {l : List (ℕ × ℕ)} (hs : Separated u l) {a b : ℕ × ℕ} (ha : a ∈ l)
    (hb : b ∈ l) (h : a.1 = b.1) : a = b := by
  have hnd : (l.map Prod.fst).Nodup :=
    (List.pairwise_map.2 (hs.imp fun h => lt_of_le_of_lt (le_stop _) h)).nodup
  exact List.inj_on_of_nodup_map hnd ha hb h

/-- A block disjoint from a nonempty block that starts no earlier ends before that one
starts. -/
theorem stop_le_of_disjoint {a c : ℕ × ℕ} (h : Disjoint (span u a) (span u c)) (hac : a.1 ≤ c.1)
    (hc : 0 < u * c.2) : stop u a ≤ c.1 := by
  by_contra hlt
  have hca : c.1 ∈ span u a := mem_span.2 ⟨hac, by omega⟩
  have hcc : c.1 ∈ span u c := mem_span.2 ⟨le_rfl, by simp only [stop]; omega⟩
  exact Set.disjoint_left.1 h hca hcc

theorem Separated.sublist {l₁ l₂ : List (ℕ × ℕ)} (hs : Separated u l₂) (h : l₁.Sublist l₂) :
    Separated u l₁ :=
  List.Pairwise.sublist h hs

/-- A block may shrink from its end. -/
theorem Separated.shrink {l₁ l₂ : List (ℕ × ℕ)} {b c : ℕ × ℕ} (hs : Separated u (l₁ ++ b :: l₂))
    (hc : c.1 = b.1) (hstop : stop u c ≤ stop u b) : Separated u (l₁ ++ c :: l₂) := by
  obtain ⟨h₁, h₂, h₁₂⟩ := List.pairwise_append.1 hs
  obtain ⟨hb, h₂⟩ := List.pairwise_cons.1 h₂
  refine List.pairwise_append.2 ⟨h₁, List.pairwise_cons.2 ⟨fun d hd => ?_, h₂⟩, ?_⟩
  · exact lt_of_le_of_lt hstop (hb d hd)
  · intro a ha d hd
    rcases List.mem_cons.1 hd with rfl | hd
    · exact hc ▸ h₁₂ a ha b (List.mem_cons_self ..)
    · exact h₁₂ a ha d (List.mem_cons_of_mem _ hd)

/-- Blocks of positive size between `lo` and `hi` number at most `(hi - lo) / u`. -/
theorem Separated.length_mul_le {l : List (ℕ × ℕ)} (hs : Separated u l) {lo hi : ℕ}
    (hpos : ∀ b ∈ l, 0 < b.2) (hlo : ∀ b ∈ l, lo ≤ b.1) (hhi : ∀ b ∈ l, stop u b ≤ hi) :
    u * l.length ≤ hi - lo := by
  induction l generalizing lo with
  | nil => simp
  | cons b l ih =>
    obtain ⟨hb, hl⟩ := List.pairwise_cons.1 hs
    -- the rest of the list lies between the end of `b` and `hi`
    have hrest := ih hl (fun c hc => hpos c (List.mem_cons_of_mem _ hc))
      (fun c hc => (hb c hc).le) (fun c hc => hhi c (List.mem_cons_of_mem _ hc))
    have hu : u ≤ u * b.2 := Nat.le_mul_of_pos_right u (hpos b (List.mem_cons_self ..))
    have hlob := hlo b (List.mem_cons_self ..)
    have hhib := hhi b (List.mem_cons_self ..)
    rw [List.length_cons, Nat.mul_add, Nat.mul_one]
    simp only [stop] at hrest hhib
    omega

/-- The last block that starts below `x`, in a separated list whose first block does and
none of whose blocks starts at `x`. -/
theorem Separated.exists_split {l : List (ℕ × ℕ)} (hs : Separated u l) {x : ℕ} {b₀ : ℕ × ℕ}
    (hhead : l.head? = some b₀) (hb₀ : b₀.1 < x) (hne : ∀ b ∈ l, b.1 ≠ x) :
    ∃ pre p post, l = pre ++ p :: post ∧ p.1 < x ∧ ∀ c ∈ post, x < c.1 := by
  induction l generalizing b₀ with
  | nil => cases hhead
  | cons b l ih =>
    cases hhead
    obtain ⟨hb, hl⟩ := List.pairwise_cons.1 hs
    cases l with
    | nil => exact ⟨[], b, [], rfl, hb₀, by simp⟩
    | cons c l =>
      by_cases hc : c.1 < x
      · obtain ⟨pre, p, post, heq, hp, hpost⟩ :=
          ih hl rfl hc (fun d hd => hne d (List.mem_cons_of_mem _ hd))
        exact ⟨b :: pre, p, post, by rw [heq, List.cons_append], hp, hpost⟩
      · -- every later block starts after `c`, hence after `x`
        refine ⟨[], b, c :: l, rfl, hb₀, fun d hd => ?_⟩
        have hcx : x < c.1 := lt_of_le_of_ne (not_lt.1 hc) (hne c (by simp)).symm
        rcases List.mem_cons.1 hd with rfl | hd
        · exact hcx
        · have := (List.pairwise_cons.1 hl).1 d hd
          have := le_stop (u := u) d
          have := le_stop (u := u) c
          omega

end Spans

/-! ### Chains of headers -/

section Chains

/-- The start of the first block of `l`, or `z` when `l` is empty. -/
def first (l : List (ℕ × ℕ)) (z : ℕ) : ℕ := (l.head?.map Prod.fst).getD z

/-- The headers `hdr` hold the blocks of `l` as a chain: the header at each block's start
holds the start of the next block (`z` after the last one) and the block's size. -/
def Path (hdr : ℕ → ℕ × ℕ) : List (ℕ × ℕ) → ℕ → Prop
  | [], _ => True
  | b :: l, z => hdr b.1 = (first l z, b.2) ∧ Path hdr l z

/-- A circular chain: the header of the last block holds the start of the first. -/
def Cycle (hdr : ℕ → ℕ × ℕ) (l : List (ℕ × ℕ)) : Prop := Path hdr l (first l 0)

variable {hdr hdr' : ℕ → ℕ × ℕ}

@[simp] theorem first_nil (z : ℕ) : first [] z = z := rfl

@[simp] theorem first_cons (b : ℕ × ℕ) (l : List (ℕ × ℕ)) (z : ℕ) : first (b :: l) z = b.1 := rfl

theorem first_append (l₁ l₂ : List (ℕ × ℕ)) (z : ℕ) :
    first (l₁ ++ l₂) z = first l₁ (first l₂ z) := by
  cases l₁ <;> rfl

@[simp] theorem path_nil (z : ℕ) : Path hdr [] z := trivial

@[simp] theorem path_cons (b : ℕ × ℕ) (l : List (ℕ × ℕ)) (z : ℕ) :
    Path hdr (b :: l) z ↔ hdr b.1 = (first l z, b.2) ∧ Path hdr l z := Iff.rfl

theorem path_append (l₁ l₂ : List (ℕ × ℕ)) (z : ℕ) :
    Path hdr (l₁ ++ l₂) z ↔ Path hdr l₁ (first l₂ z) ∧ Path hdr l₂ z := by
  induction l₁ with
  | nil => simp
  | cons b l₁ ih => rw [List.cons_append, path_cons, path_cons, ih, first_append, and_assoc]

/-- A chain only reads the headers at the starts of its blocks. -/
theorem Path.congr {l : List (ℕ × ℕ)} {z : ℕ} (hp : Path hdr l z)
    (h : ∀ b ∈ l, hdr' b.1 = hdr b.1) : Path hdr' l z := by
  induction l with
  | nil => trivial
  | cons b l ih =>
    refine ⟨(h b (List.mem_cons_self ..)).trans hp.1, ih hp.2 ?_⟩
    exact fun c hc => h c (List.mem_cons_of_mem _ hc)

/-- Every block's header holds its size. -/
theorem Path.size {l : List (ℕ × ℕ)} {z : ℕ} (hp : Path hdr l z) {b : ℕ × ℕ} (hb : b ∈ l) :
    (hdr b.1).2 = b.2 := by
  induction l with
  | nil => cases hb
  | cons c l ih =>
    rcases List.mem_cons.1 hb with rfl | hb
    · rw [hp.1]
    · exact ih hp.2 hb

/-- The header of a chain's last block holds where the chain leads; `x` stands for the last
block when the chain is empty. -/
theorem Path.last {l : List (ℕ × ℕ)} {z x : ℕ} (hp : Path hdr l z) (hx : l = [] → (hdr x).1 = z) :
    (hdr (first l.reverse x)).1 = z := by
  rcases List.eq_nil_or_concat l with rfl | ⟨l', b, rfl⟩
  · exact hx rfl
  · rw [List.concat_eq_append] at hp ⊢
    rw [List.reverse_append, List.reverse_singleton, List.singleton_append, first_cons]
    rw [path_append, path_cons] at hp
    rw [hp.2.1, first_nil]

/-- A circular chain read from any of its blocks. -/
theorem Cycle.rotate {l₁ l₂ : List (ℕ × ℕ)} (hc : Cycle hdr (l₁ ++ l₂)) : Cycle hdr (l₂ ++ l₁) := by
  cases l₁ with
  | nil => simpa [Cycle] using hc
  | cons a l₁ =>
    cases l₂ with
    | nil => simpa [Cycle] using hc
    | cons b l₂ =>
      rw [Cycle, path_append] at hc ⊢
      simp only [first_cons, List.cons_append] at hc ⊢
      exact ⟨hc.2, hc.1⟩

/-- Follow the chain from `x`, through at most `fuel` headers, to the first start that passes
`test`. -/
def scan (next : ℕ → ℕ) (test : ℕ → Bool) : ℕ → ℕ → Option ℕ
  | 0, _ => none
  | fuel + 1, x => if test x then some x else scan next test fuel (next x)

/-- Along a chain, `scan` stops at the first block that passes the test, and otherwise goes on
from where the chain leads. -/
theorem scan_path {l : List (ℕ × ℕ)} {z : ℕ} (hp : Path hdr l z) (test : ℕ → Bool) (fuel : ℕ) :
    scan (fun x => (hdr x).1) test (l.length + fuel) (first l z) =
      match l.find? (fun b => test b.1) with
      | some b => some b.1
      | none => scan (fun x => (hdr x).1) test fuel z := by
  induction l with
  | nil => simp
  | cons b l ih =>
    rw [List.length_cons, show l.length + 1 + fuel = l.length + fuel + 1 by omega, first_cons,
      scan, List.find?_cons]
    cases htest : test b.1 with
    | true => rfl
    | false =>
      -- the header of `b` leads to the next block of the chain
      simp only [Bool.false_eq_true, if_false, hp.1]
      exact ih hp.2

end Chains

end Blocks
