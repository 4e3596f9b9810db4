/- Module: Mewa/Lib/Paths
   digest: Weighted paths with counted edges, their simple parts and the tree of simple paths. -/

import Mathlib.Algebra.Order.Ring.Rat
import Mathlib.Algebra.BigOperators.Group.List.Basic
import Mathlib.Algebra.Order.BigOperators.Group.List
import Mathlib.Data.List.Induction
import Mathlib.Data.List.Nodup
import Mathlib.Data.List.Perm.Subperm
import Mathlib.Tactic.Common
import Mathlib.Tactic.Linarith
import Mewa.Lib.BestFirst

set_option autoImplicit false
set_option relaxedAutoImplicit false

namespace Mewa.Lib.Paths

variable {α γ : Type}

/-- An edge out of a node: where it leads, its label, its weight and if it counts. -/
structure Edge (α γ : Type) where
  target : α
  label : γ
  weight : ℚ
  counted : Bool
  deriving DecidableEq

abbrev Path (α γ : Type) := List (Edge α γ)

/-- The edges follow one another from a node. -/
def IsPath (edges : α → List (Edge α γ)) : α → Path α γ → Prop
  | _, [] => True
  | a, e :: p => e ∈ edges a ∧ IsPath edges e.target p

def endOf : α → Path α γ → α
  | a, [] => a
  | _, e :: p => endOf e.target p

def nodes (a : α) (p : Path α γ) : List α := a :: p.map Edge.target

def weightOf (p : Path α γ) : ℚ := (p.map Edge.weight).sum

def countOf (p : Path α γ) : Nat := p.countP Edge.counted

/-- No node occurs twice. -/
def Simple (a : α) (p : Path α γ) : Prop := (nodes a p).Nodup

instance [DecidableEq α] (a : α) (p : Path α γ) : Decidable (Simple a p) :=
  inferInstanceAs (Decidable (nodes a p).Nodup)

section Laws

variable {edges : α → List (Edge α γ)}

theorem isPath_append {a : α} {p q : Path α γ} :
    IsPath edges a (p ++ q) ↔ IsPath edges a p ∧ IsPath edges (endOf a p) q := by
  induction p generalizing a with
  | nil => simp [IsPath, endOf]
  | cons e p ih => simp [IsPath, endOf, ih, and_assoc]

theorem endOf_append {a : α} {p q : Path α γ} : endOf a (p ++ q) = endOf (endOf a p) q := by
  induction p generalizing a with
  | nil => rfl
  | cons e p ih => exact ih

theorem endOf_mem_nodes (a : α) (p : Path α γ) : endOf a p ∈ nodes a p := by
  induction p generalizing a with
  | nil => simp [endOf, nodes]
  | cons e p ih => exact List.mem_cons_of_mem a (ih e.target)

theorem nodes_append (a : α) (p q : Path α γ) :
    nodes a (p ++ q) = nodes a p ++ q.map Edge.target := by
  simp [nodes]

theorem weightOf_append (p q : Path α γ) : weightOf (p ++ q) = weightOf p + weightOf q := by
  simp [weightOf]

theorem countOf_append (p q : Path α γ) : countOf (p ++ q) = countOf p + countOf q := by
  simp [countOf]

theorem weightOf_nonneg {a : α} {p : Path α γ} (nonneg : ∀ a, ∀ e ∈ edges a, 0 ≤ e.weight)
    (path : IsPath edges a p) : 0 ≤ weightOf p := by
  induction p generalizing a with
  | nil => simp [weightOf]
  | cons e p ih =>
    have he := nonneg a e path.1
    have hp := ih path.2
    simp only [weightOf, List.map_cons, List.sum_cons] at hp ⊢
    linarith

theorem exists_split_of_mem {a b : α} {p : Path α γ} (h : b ∈ nodes a p) :
    ∃ q r, p = q ++ r ∧ endOf a q = b := by
  induction p generalizing a with
  | nil =>
    obtain rfl : b = a := by simpa [nodes] using h
    exact ⟨[], [], rfl, rfl⟩
  | cons e p ih =>
    rcases List.mem_cons.mp h with rfl | h
    · exact ⟨[], e :: p, rfl, rfl⟩
    · obtain ⟨q, r, rfl, hq⟩ := ih h
      exact ⟨e :: q, r, rfl, hq⟩

/-- Cutting the cycles out of a path makes it simple and neither heavier nor longer. -/
theorem exists_simple [DecidableEq α] (nonneg : ∀ a, ∀ e ∈ edges a, 0 ≤ e.weight) {a : α}
    {p : Path α γ} (path : IsPath edges a p) :
    ∃ q, IsPath edges a q ∧ Simple a q ∧ endOf a q = endOf a p ∧ weightOf q ≤ weightOf p ∧
      countOf q ≤ countOf p := by
  induction p generalizing a with
  | nil => exact ⟨[], trivial, by simp [Simple, nodes], rfl, le_rfl, le_rfl⟩
  | cons e p ih =>
    obtain ⟨q, hpath, hsimple, hend, hweight, hcount⟩ := ih path.2
    have he := nonneg a e path.1
    have weight_cons (r : Path α γ) : weightOf (e :: r) = e.weight + weightOf r := by
      simp [weightOf]
    have count_cons (r : Path α γ) : countOf r ≤ countOf (e :: r) := by
      simp only [countOf, List.countP_cons]
      omega
    by_cases hmem : a ∈ nodes e.target q
    · -- the path comes back to its start, and its rest is enough
      obtain ⟨q₁, q₂, rfl, hq⟩ := exists_split_of_mem hmem
      obtain ⟨hpath₁, hpath₂⟩ := isPath_append.mp hpath
      rw [hq] at hpath₂
      have hnonneg := weightOf_nonneg nonneg hpath₁
      rw [weightOf_append] at hweight
      rw [countOf_append] at hcount
      refine ⟨q₂, hpath₂, ?_, ?_, ?_, ?_⟩
      · have hnodes : nodes e.target (q₁ ++ q₂) = nodes e.target q₁ ++ q₂.map Edge.target :=
          nodes_append _ _ _
        rw [Simple, hnodes] at hsimple
        refine List.nodup_cons.mpr ⟨fun h => ?_, (List.nodup_append.mp hsimple).2.1⟩
        exact (List.nodup_append.mp hsimple).2.2 a (hq ▸ endOf_mem_nodes _ _) a h rfl
      · rw [endOf_append, hq] at hend
        exact hend
      · rw [weight_cons]
        linarith
      · have := count_cons p
        omega
    · refine ⟨e :: q, ⟨path.1, hpath⟩, List.nodup_cons.mpr ⟨hmem, hsimple⟩, hend, ?_, ?_⟩
      · rw [weight_cons, weight_cons]
        linarith
      · simp only [countOf, List.countP_cons] at hcount ⊢
        omega

end Laws

/-- A path with the node it starts from. -/
abbrev Rooted (α γ : Type) := α × Path α γ

def Rooted.last (r : Rooted α γ) : α := endOf r.1 r.2

/-! The admissible paths from some nodes form a tree below the empty ones, where a path is followed
    by its extensions with one more edge. -/

section Tree

variable (edges : α → List (Edge α γ)) (limit : Nat)

structure Admissible (r : Rooted α γ) : Prop where
  path : IsPath edges r.1 r.2
  simple : Simple r.1 r.2
  count : countOf r.2 ≤ limit

variable [DecidableEq α]

def extensions (r : Rooted α γ) : List (Edge α γ) :=
  (edges r.last).filter fun e =>
    decide (countOf (r.2 ++ [e]) ≤ limit) && decide (e.target ∉ nodes r.1 r.2)

def children (r : Rooted α γ) : List (Rooted α γ) :=
  (extensions edges limit r).map fun e => (r.1, r.2 ++ [e])

def emptyPaths (starts : List α) : List (Rooted α γ) := starts.map fun a => (a, [])

variable {edges limit} {a : α} {p : Path α γ}

omit [DecidableEq α] in
theorem admissible_nil : Admissible edges limit (a, []) :=
  ⟨trivial, by simp [Simple, nodes], Nat.zero_le _⟩

theorem admissible_append {e : Edge α γ} :
    Admissible edges limit (a, p ++ [e]) ↔
      Admissible edges limit (a, p) ∧ e ∈ extensions edges limit (a, p) := by
  simp only [extensions, List.mem_filter, Bool.and_eq_true, decide_eq_true_eq]
  constructor
  · rintro ⟨path, simple, count⟩
    obtain ⟨hp, he, -⟩ := isPath_append.mp path
    rw [Simple, nodes_append] at simple
    obtain ⟨hnodup, -, hdisjoint⟩ := List.nodup_append.mp simple
    have hcount := count
    rw [countOf_append] at hcount
    exact ⟨⟨hp, hnodup, Nat.le_of_add_right_le hcount⟩, he, count,
      fun h => hdisjoint e.target h e.target (by simp) rfl⟩
  · rintro ⟨⟨path, simple, -⟩, he, count, fresh⟩
    refine ⟨isPath_append.mpr ⟨path, he, trivial⟩, ?_, count⟩
    rw [Simple, nodes_append]
    refine List.nodup_append.mpr ⟨simple, by simp, fun b hb c hc hbc => fresh ?_⟩
    obtain rfl : c = e.target := by simpa using hc
    exact hbc ▸ hb

theorem mem_children {r q : Rooted α γ} :
    q ∈ children edges limit r ↔ ∃ e ∈ extensions edges limit r, q = (r.1, r.2 ++ [e]) := by
  simp only [children, List.mem_map]
  constructor
  · rintro ⟨e, he, rfl⟩; exact ⟨e, he, rfl⟩
  · rintro ⟨e, he, rfl⟩; exact ⟨e, he, rfl⟩

theorem children_nodup (distinct : ∀ a, ((edges a).map Edge.target).Nodup) (r : Rooted α γ) :
    (children edges limit r).Nodup := by
  have edges_nodup : (edges r.last).Nodup := List.Nodup.of_map _ (distinct _)
  refine List.Nodup.map (fun e f h => ?_) (edges_nodup.filter _)
  simpa using h

omit [DecidableEq α] in
theorem length_le_of_targets {targets : List α} (inTargets : ∀ a, ∀ e ∈ edges a, e.target ∈ targets)
    (admissible : Admissible edges limit (a, p)) : p.length ≤ targets.length := by
  have sub : ∀ {b : α} {q : Path α γ}, IsPath edges b q → ∀ x ∈ q.map Edge.target, x ∈ targets := by
    intro b q
    induction q generalizing b with
    | nil => simp
    | cons e q ih =>
      rintro ⟨he, hq⟩ x hx
      rcases List.mem_cons.mp hx with rfl | hx
      · exact inTargets b e he
      · exact ih hq x hx
  have nodup : (p.map Edge.target).Nodup := (List.nodup_cons.mp admissible.simple).2
  simpa using (nodup.subperm fun x hx => sub admissible.path x hx).length_le

theorem isTree (distinct : ∀ a, ((edges a).map Edge.target).Nodup) (starts : List α) :
    BestFirst.IsTree (children edges limit) (emptyPaths starts) where
  nodup := children_nodup distinct
  parent r r' q hr hr' := by
    obtain ⟨e, -, rfl⟩ := mem_children.mp hr
    obtain ⟨f, -, h⟩ := mem_children.mp hr'
    obtain ⟨root, path⟩ := Prod.mk.inj h
    exact Prod.ext root (List.append_inj' path rfl).1
  root r s hs hr := by
    obtain ⟨a, -, rfl⟩ := List.mem_map.mp hs
    obtain ⟨e, -, h⟩ := mem_children.mp hr
    simp at h

omit [DecidableEq α] in
theorem emptyPaths_nodup {starts : List α} (nodup : starts.Nodup) :
    (emptyPaths starts : List (Rooted α γ)).Nodup :=
  nodup.map fun _ _ h => (Prod.mk.inj h).1

theorem under_emptyPaths_iff {starts : List α} :
    BestFirst.Under (children edges limit) (emptyPaths starts) (a, p) ↔
      a ∈ starts ∧ Admissible edges limit (a, p) := by
  constructor
  · rintro ⟨s, hs, h⟩
    obtain ⟨b, hb, rfl⟩ := List.mem_map.mp hs
    have all : ∀ {r : Rooted α γ}, BestFirst.Below (children edges limit) (b, []) r →
        r.1 = b ∧ Admissible edges limit r := by
      intro r h
      induction h with
      | refl => exact ⟨rfl, admissible_nil⟩
      | tail _ hstep ih =>
        obtain ⟨e, he, rfl⟩ := mem_children.mp hstep
        exact ⟨ih.1, admissible_append.mpr ⟨ih.2, he⟩⟩
    obtain ⟨rfl, admissible⟩ := all h
    exact ⟨hb, admissible⟩
  · rintro ⟨ha, admissible⟩
    induction p using List.reverseRecOn with
    | nil => exact ⟨(a, []), List.mem_map.mpr ⟨a, ha, rfl⟩, Relation.ReflTransGen.refl⟩
    | append_singleton p e ih =>
      obtain ⟨hp, he⟩ := admissible_append.mp admissible
      exact (ih hp).tail (mem_children.mpr ⟨e, he, rfl⟩)

theorem weightOf_children (nonneg : ∀ a, ∀ e ∈ edges a, 0 ≤ e.weight) :
    ∀ r, ∀ q ∈ children edges limit r, weightOf r.2 ≤ weightOf q.2 := by
  intro r q hq
  obtain ⟨e, he, rfl⟩ := mem_children.mp hq
  have := nonneg _ e (List.mem_filter.mp he).1
  simp only [weightOf_append]
  simpa [weightOf] using this

end Tree

end Mewa.Lib.Paths
