import Mathlib

/-!
# Radix tables

A radix table is a tree of tables kept in a store: `tbl t i` is the entry at index `i` of the
table named `t`, and an entry may name a child table (`child`). `node tbl t p` is the table
reached from `t` through the indices `p`, one per level, and `lookup` reads, at the last index of
a key, the entry of the table the key's other indices reach, or `zero` when a table on the way is
missing.

A store in which no two paths of at most `d` indices reach one table (`Tree`) is a map from the
keys of `d + 1` indices to entries, and each way of changing the store is a change of that map:

* `node_congr`, `lookup_congr`: the tables outside the tree do not matter;
* `Tree.node_set`, `Tree.lookup_set`: writing an entry of a leaf table changes the entry of that
  one key;
* `Tree.node_graft`, `Tree.lookup_graft`, `Tree.graft`: linking a fresh table of empty entries
  under an entry that names no table adds one table to the tree and changes no key's entry.
-/

namespace Radix

variable {τ ι E : Type*} (child : E → Option τ)

/-- The table reached from `t` through the indices `p`, one per level. -/
def node (tbl : τ → ι → E) (t : τ) : List ι → Option τ
  | [] => some t
  | i :: p => (child (tbl t i)).bind fun t' => node tbl t' p

/-- The entry at index `i` of the table that `p` reaches, `zero` if there is none. -/
def lookup (zero : E) (tbl : τ → ι → E) (t : τ) (p : List ι) (i : ι) : E :=
  match node child tbl t p with
  | some u => tbl u i
  | none => zero

/-- `u` is one of the tables of the tree of depth `d` at `t`. -/
def Mem (tbl : τ → ι → E) (t : τ) (d : ℕ) (u : τ) : Prop :=
  ∃ p : List ι, p.length ≤ d ∧ node child tbl t p = some u

/-- No two paths of at most `d` indices reach one table. -/
def Tree (tbl : τ → ι → E) (t : τ) (d : ℕ) : Prop :=
  ∀ (p q : List ι) (u : τ), p.length ≤ d → q.length ≤ d →
    node child tbl t p = some u → node child tbl t q = some u → p = q

/-- Every entry of a table that fewer than `d` indices reach satisfies `P`: what the tables
above the leaves hold. -/
def Inner (P : E → Prop) (tbl : τ → ι → E) (t : τ) (d : ℕ) : Prop :=
  ∀ (p : List ι) (u : τ), p.length < d → node child tbl t p = some u → ∀ i, P (tbl u i)

/-- Every entry of a table that `d` indices reach satisfies `Q`: what the leaves hold. -/
def Leaves (Q : E → Prop) (tbl : τ → ι → E) (t : τ) (d : ℕ) : Prop :=
  ∀ (p : List ι) (u : τ), p.length = d → node child tbl t p = some u → ∀ i, Q (tbl u i)

/-- `x` is one of the tables of the tree of depth `d` below the entry `i` of `t`. -/
def Below (tbl : τ → ι → E) (t : τ) (d : ℕ) (i : ι) (x : τ) : Prop :=
  ∃ c, child (tbl t i) = some c ∧ Mem child tbl c d x

variable {child} {tbl tbl' : τ → ι → E} {t : τ} {d : ℕ}

@[simp] theorem node_nil : node child tbl t [] = some t := rfl

@[simp] theorem node_cons (i : ι) (p : List ι) :
    node child tbl t (i :: p) = (child (tbl t i)).bind fun t' => node child tbl t' p := rfl

/-- The walk goes one level further down. -/
theorem node_concat (p : List ι) (i : ι) :
    node child tbl t (p ++ [i]) = (node child tbl t p).bind fun u => child (tbl u i) := by
  induction p generalizing t with
  | nil => simp
  | cons j p ih =>
    rw [List.cons_append, node_cons, node_cons, Option.bind_assoc]
    simp only [ih]

theorem lookup_of_node {zero : E} {p : List ι} {u : τ} (h : node child tbl t p = some u) (i : ι) :
    lookup child zero tbl t p i = tbl u i := by
  rw [lookup, h]

theorem lookup_of_node_none {zero : E} {p : List ι} (h : node child tbl t p = none) (i : ι) :
    lookup child zero tbl t p i = zero := by
  rw [lookup, h]

/-! ## Frames -/

/-- The tables that fewer than `d` indices reach decide the nodes of the tree. -/
theorem node_congr (h : ∀ p u, p.length < d → node child tbl t p = some u → tbl' u = tbl u) :
    ∀ p : List ι, p.length ≤ d → node child tbl' t p = node child tbl t p := by
  intro p
  induction p using List.reverseRecOn with
  | nil => intro _; rfl
  | append_singleton p i ih =>
    intro hp
    rw [List.length_append, List.length_singleton] at hp
    rw [node_concat, node_concat, ih (by omega)]
    -- the last table on the way is one the two stores agree on
    cases hn : node child tbl t p with
    | none => rfl
    | some u => simp only [Option.bind_some, h p u (by omega) hn]

/-- Two stores that agree on the tables of the tree have the same tree and the same entries. -/
theorem lookup_congr {zero : E} (h : ∀ p u, p.length ≤ d → node child tbl t p = some u → tbl' u = tbl u)
    {p : List ι} (hp : p.length ≤ d) (i : ι) :
    lookup child zero tbl' t p i = lookup child zero tbl t p i := by
  have hnode := node_congr (fun q u hq hu => h q u (Nat.le_of_lt hq) hu) p hp
  cases hn : node child tbl t p with
  | none => rw [lookup_of_node_none (hnode.trans hn), lookup_of_node_none hn]
  | some u => rw [lookup_of_node (hnode.trans hn), lookup_of_node hn, h p u hp hn]

theorem mem_congr (h : ∀ p u, p.length < d → node child tbl t p = some u → tbl' u = tbl u) (u : τ) :
    Mem child tbl' t d u ↔ Mem child tbl t d u := by
  constructor
  · rintro ⟨p, hp, hu⟩
    exact ⟨p, hp, (node_congr h p hp).symm.trans hu⟩
  · rintro ⟨p, hp, hu⟩
    exact ⟨p, hp, (node_congr h p hp).trans hu⟩

theorem tree_congr (h : ∀ p u, p.length < d → node child tbl t p = some u → tbl' u = tbl u) :
    Tree child tbl' t d ↔ Tree child tbl t d := by
  constructor
  · intro htree p q u hp hq hpu hqu
    exact htree p q u hp hq ((node_congr h p hp).trans hpu) ((node_congr h q hq).trans hqu)
  · intro htree p q u hp hq hpu hqu
    exact htree p q u hp hq ((node_congr h p hp).symm.trans hpu) ((node_congr h q hq).symm.trans hqu)

theorem inner_congr {P : E → Prop}
    (h : ∀ p u, p.length < d → node child tbl t p = some u → tbl' u = tbl u) :
    Inner child P tbl' t d ↔ Inner child P tbl t d := by
  have hnode := node_congr h
  constructor
  · intro hin p u hp hu i
    rw [← h p u hp hu]
    exact hin p u hp ((hnode p (Nat.le_of_lt hp)).trans hu) i
  · intro hin p u hp hu i
    rw [h p u hp ((hnode p (Nat.le_of_lt hp)).symm.trans hu)]
    exact hin p u hp ((hnode p (Nat.le_of_lt hp)).symm.trans hu) i

theorem leaves_congr {Q : E → Prop}
    (h : ∀ p u, p.length ≤ d → node child tbl t p = some u → tbl' u = tbl u) :
    Leaves child Q tbl' t d ↔ Leaves child Q tbl t d := by
  have hnode := node_congr fun p u hp hu => h p u (Nat.le_of_lt hp) hu
  constructor
  · intro hl p u hp hu i
    rw [← h p u (Nat.le_of_eq hp) hu]
    exact hl p u hp ((hnode p (Nat.le_of_eq hp)).trans hu) i
  · intro hl p u hp hu i
    have hu' := (hnode p (Nat.le_of_eq hp)).symm.trans hu
    rw [h p u (Nat.le_of_eq hp) hu']
    exact hl p u hp hu' i

/-! ## Subtrees

The tables of a tree of depth `d + 1` are its root and the tables of the trees of depth `d` below
its entries, and in a `Tree` these are apart. -/

theorem below_of_child {i : ι} {c x : τ} (hc : child (tbl t i) = some c) :
    Below child tbl t d i x ↔ Mem child tbl c d x := by
  rw [Below, hc]
  simp

theorem not_below_of_child {i : ι} {x : τ} (hc : child (tbl t i) = none) : ¬ Below child tbl t d i x := by
  rintro ⟨c, hc', -⟩
  rw [hc] at hc'
  cases hc'

theorem mem_succ {x : τ} : Mem child tbl t (d + 1) x ↔ x = t ∨ ∃ i, Below child tbl t d i x := by
  constructor
  · rintro ⟨p, hp, hx⟩
    cases p with
    | nil => exact .inl (Option.some.inj hx).symm
    | cons i p =>
      rw [node_cons, Option.bind_eq_some_iff] at hx
      obtain ⟨c, hc, hx⟩ := hx
      exact .inr ⟨i, c, hc, p, by simp at hp; omega, hx⟩
  · rintro (rfl | ⟨i, c, hc, p, hp, hx⟩)
    · exact ⟨[], by simp, rfl⟩
    · exact ⟨i :: p, by simp; omega, by rw [node_cons, hc, Option.bind_some, hx]⟩

theorem mem_zero {x : τ} : Mem child tbl t 0 x ↔ x = t := by
  constructor
  · rintro ⟨p, hp, hx⟩
    rw [List.length_eq_zero_iff.1 (Nat.le_zero.1 hp)] at hx
    exact (Option.some.inj hx).symm
  · rintro rfl
    exact ⟨[], le_rfl, rfl⟩

section Child

variable (htree : Tree child tbl t (d + 1))
include htree

/-- The tree below an entry is a tree. -/
theorem Tree.of_child {i : ι} {c : τ} (hc : child (tbl t i) = some c) : Tree child tbl c d := by
  intro p q u hp hq hpu hqu
  have h := htree (i :: p) (i :: q) u (by simp; omega) (by simp; omega)
    (by rw [node_cons, hc, Option.bind_some, hpu]) (by rw [node_cons, hc, Option.bind_some, hqu])
  exact List.cons_injective h

/-- The root is in none of the trees below its entries. -/
theorem Tree.not_below_root (i : ι) : ¬ Below child tbl t d i t := by
  rintro ⟨c, hc, p, hp, hu⟩
  have h := htree (i :: p) [] t (by simp; omega) (by simp)
    (by rw [node_cons, hc, Option.bind_some, hu]) rfl
  exact List.cons_ne_nil _ _ h

/-- The trees below two entries share a table only when the entries are one. -/
theorem Tree.eq_of_below {i j : ι} {x : τ} (hx : Below child tbl t d i x)
    (hx' : Below child tbl t d j x) : i = j := by
  obtain ⟨c, hc, p, hp, hpx⟩ := hx
  obtain ⟨c', hc', q, hq, hqx⟩ := hx'
  have h := htree (i :: p) (j :: q) x (by simp; omega) (by simp; omega)
    (by rw [node_cons, hc, Option.bind_some, hpx]) (by rw [node_cons, hc', Option.bind_some, hqx])
  exact (List.cons_eq_cons.1 h).1

end Child

theorem Inner.root {P : E → Prop} (h : Inner child P tbl t (d + 1)) (i : ι) : P (tbl t i) :=
  h [] t (by simp) rfl i

theorem Inner.of_child {P : E → Prop} (h : Inner child P tbl t (d + 1)) {i : ι} {c : τ}
    (hc : child (tbl t i) = some c) : Inner child P tbl c d := by
  intro p u hp hu j
  exact h (i :: p) u (by simp; omega) (by rw [node_cons, hc, Option.bind_some, hu]) j

theorem Leaves.of_child {Q : E → Prop} (h : Leaves child Q tbl t (d + 1)) {i : ι} {c : τ}
    (hc : child (tbl t i) = some c) : Leaves child Q tbl c d := by
  intro p u hp hu j
  exact h (i :: p) u (by simp; omega) (by rw [node_cons, hc, Option.bind_some, hu]) j

theorem Leaves.root {Q : E → Prop} (h : Leaves child Q tbl t 0) (i : ι) : Q (tbl t i) :=
  h [] t rfl rfl i

/-! ## Writing an entry of a leaf table -/

/-- A table that `d` indices reach is reached by no shorter path. -/
theorem Tree.ne_leaf (htree : Tree child tbl t d) {p₀ p : List ι} {u v : τ}
    (hu : node child tbl t p₀ = some u) (hp₀ : p₀.length = d)
    (hv : node child tbl t p = some v) (hp : p.length < d) : v ≠ u := by
  rintro rfl
  have := htree p p₀ v (Nat.le_of_lt hp) (Nat.le_of_eq hp₀) hv hu
  subst this
  omega

section Set

variable (htree : Tree child tbl t d) {p₀ : List ι} {u : τ} (hu : node child tbl t p₀ = some u)
  (hp₀ : p₀.length = d) {i : ι}
  (hother : ∀ p v, p.length ≤ d → node child tbl t p = some v → v ≠ u → tbl' v = tbl v)
  (hrow : ∀ j, j ≠ i → tbl' u j = tbl u j)
include htree hu hp₀ hother

theorem Tree.node_set : ∀ p : List ι, p.length ≤ d → node child tbl' t p = node child tbl t p :=
  node_congr fun p v hp hv => hother p v (Nat.le_of_lt hp) hv (htree.ne_leaf hu hp₀ hv hp)

theorem Tree.tree_set : Tree child tbl' t d :=
  (tree_congr fun p v hp hv => hother p v (Nat.le_of_lt hp) hv (htree.ne_leaf hu hp₀ hv hp)).2 htree

/-- The tables above the leaves keep their entries. -/
theorem Tree.inner_set {P : E → Prop} (hin : Inner child P tbl t d) : Inner child P tbl' t d :=
  (inner_congr fun p v hp hv => hother p v (Nat.le_of_lt hp) hv (htree.ne_leaf hu hp₀ hv hp)).2 hin

include hrow in
/-- Only the entry written changes. -/
theorem Tree.lookup_set [DecidableEq ι] {zero : E} {p : List ι} (hp : p.length ≤ d) (j : ι) :
    lookup child zero tbl' t p j =
      if p = p₀ ∧ j = i then tbl' u i else lookup child zero tbl t p j := by
  have hnode := htree.node_set hu hp₀ hother p hp
  cases hn : node child tbl t p with
  | none =>
    -- no table: the path is not `p₀`
    have hne : p ≠ p₀ := by
      rintro rfl
      rw [hu] at hn
      cases hn
    rw [lookup_of_node_none (hnode.trans hn), lookup_of_node_none hn, if_neg fun h => hne h.1]
  | some v =>
    rw [lookup_of_node (hnode.trans hn), lookup_of_node hn]
    by_cases hvu : v = u
    · -- the leaf written: `p` is `p₀`
      subst hvu
      have hpp := htree p p₀ v hp (Nat.le_of_eq hp₀) hn hu
      by_cases hj : j = i
      · rw [if_pos ⟨hpp, hj⟩, hj]
      · rw [if_neg fun h => hj h.2, hrow j hj]
    · rw [if_neg fun h => hvu (by rw [h.1, hu] at hn; exact (Option.some.inj hn).symm),
        hother p v hp hn hvu]

end Set

/-! ## Linking a fresh table -/

section Graft

variable [DecidableEq ι] {zero : E} (hzero : child zero = none)
  (htree : Tree child tbl t d) {p₀ : List ι} {u t' : τ} (hu : node child tbl t p₀ = some u)
  (hp₀ : p₀.length < d) {i : ι} (hi : child (tbl u i) = none)
  (hlink : child (tbl' u i) = some t') (hrow : ∀ j, j ≠ i → tbl' u j = tbl u j)
  (hempty : ∀ j, tbl' t' j = zero)
  (hother : ∀ p v, p.length ≤ d → node child tbl t p = some v → v ≠ u → tbl' v = tbl v)
include hzero htree hu hp₀ hi hlink hrow hempty hother

/-- The tree gains the node `p₀ ++ [i]`, which is `t'`; no other node changes. -/
theorem Tree.node_graft : ∀ p : List ι, p.length ≤ d →
    node child tbl' t p = if p = p₀ ++ [i] then some t' else node child tbl t p := by
  intro p
  induction p using List.reverseRecOn with
  | nil =>
    intro _
    rw [if_neg (by simp)]
    rfl
  | append_singleton p j ih =>
    intro hp
    rw [List.length_append, List.length_singleton] at hp
    rw [node_concat, node_concat, ih (by omega)]
    by_cases hpi : p = p₀ ++ [i]
    · -- below the new table every entry is empty; before, there was no table there
      have hlen : (p ++ [j]).length ≠ (p₀ ++ [i]).length := by simp [hpi]
      rw [if_pos hpi, if_neg fun h => hlen (congrArg List.length h), hpi, node_concat, hu]
      simp [hempty, hzero, hi]
    · rw [if_neg hpi]
      cases hn : node child tbl t p with
      | none =>
        -- no table on the way, and `p` is not `p₀`
        have hne : p ≠ p₀ := by
          rintro rfl
          rw [hu] at hn
          cases hn
        rw [if_neg fun h => hne (List.append_singleton_inj.mp h).1]
        rfl
      | some v =>
        simp only [Option.bind_some]
        by_cases hvu : v = u
        · -- the table linked from
          subst hvu
          have hpp := htree p p₀ v (by omega) (by omega) hn hu
          subst hpp
          by_cases hj : j = i
          · subst hj
            rw [if_pos rfl, hlink]
          · rw [if_neg fun h => hj (List.append_singleton_inj.mp h).2, hrow j hj]
        · have hne : p ≠ p₀ := by
            rintro rfl
            rw [hu] at hn
            exact hvu (Option.some.inj hn).symm
          rw [if_neg fun h => hne (List.append_singleton_inj.mp h).1,
            hother p v (by omega) hn hvu]

theorem Tree.mem_graft (v : τ) : Mem child tbl' t d v ↔ Mem child tbl t d v ∨ v = t' := by
  have hnode := htree.node_graft hzero hu hp₀ hi hlink hrow hempty hother
  constructor
  · rintro ⟨p, hp, hv⟩
    rw [hnode p hp] at hv
    split_ifs at hv with hpi
    · exact .inr (Option.some.inj hv).symm
    · exact .inl ⟨p, hp, hv⟩
  · rintro (⟨p, hp, hv⟩ | rfl)
    · have hne : p ≠ p₀ ++ [i] := by
        rintro rfl
        rw [node_concat, hu] at hv
        simp [hi] at hv
      exact ⟨p, hp, by rw [hnode p hp, if_neg hne, hv]⟩
    · exact ⟨p₀ ++ [i], by simp; omega, by rw [hnode _ (by simp; omega), if_pos rfl]⟩

/-- A fresh table keeps the tree a tree. -/
theorem Tree.graft (hfresh : ¬ Mem child tbl t d t') : Tree child tbl' t d := by
  have hnode := htree.node_graft hzero hu hp₀ hi hlink hrow hempty hother
  intro p q v hp hq hpv hqv
  rw [hnode p hp] at hpv
  rw [hnode q hq] at hqv
  split_ifs at hpv hqv with hpi hqi hqi
  · rw [hpi, hqi]
  · -- `q` reaches the fresh table in the old tree
    exact absurd ⟨q, hq, (Option.some.inj hpv).symm ▸ hqv⟩ hfresh
  · exact absurd ⟨p, hp, (Option.some.inj hqv).symm ▸ hpv⟩ hfresh
  · exact htree p q v hp hq hpv hqv

/-- The link and the fresh table's empty entries keep a property of the tables above the
leaves. -/
theorem Tree.inner_graft {P : E → Prop} (hP : P (tbl' u i)) (hPz : P zero)
    (hin : Inner child P tbl t d) : Inner child P tbl' t d := by
  have hnode := htree.node_graft hzero hu hp₀ hi hlink hrow hempty hother
  intro p v hp hv j
  rw [hnode p (Nat.le_of_lt hp)] at hv
  split_ifs at hv with hpi
  · -- the fresh table
    rw [← Option.some.inj hv, hempty]
    exact hPz
  · by_cases hvu : v = u
    · -- the table linked from: the link, or an entry it had
      subst hvu
      by_cases hj : j = i
      · exact hj ▸ hP
      · rw [hrow j hj]
        exact hin p v hp hv j
    · rw [hother p v (Nat.le_of_lt hp) hv hvu]
      exact hin p v hp hv j

/-- No key of `d + 1` indices changes its entry: the fresh table's entries are empty. -/
theorem Tree.lookup_graft {p : List ι} (hp : p.length = d) (j : ι) :
    lookup child zero tbl' t p j = lookup child zero tbl t p j := by
  have hnode := htree.node_graft hzero hu hp₀ hi hlink hrow hempty hother p (Nat.le_of_eq hp)
  by_cases hpi : p = p₀ ++ [i]
  · rw [if_pos hpi] at hnode
    have hold : node child tbl t p = none := by
      rw [hpi, node_concat, hu]
      simp [hi]
    rw [lookup_of_node hnode, lookup_of_node_none hold, hempty]
  · rw [if_neg hpi] at hnode
    cases hn : node child tbl t p with
    | none => rw [lookup_of_node_none (hnode.trans hn), lookup_of_node_none hn]
    | some v =>
      -- a leaf, so neither the table linked from nor the fresh one
      have hvu : v ≠ u := (htree.ne_leaf hn hp hu hp₀).symm
      rw [lookup_of_node (hnode.trans hn), lookup_of_node hn,
        hother p v (Nat.le_of_eq hp) hn hvu]

end Graft

end Radix
