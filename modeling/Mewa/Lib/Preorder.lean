/- Module: Mewa/Lib/Preorder
   digest: The nodes of a forest with their depths, every node before its children. -/

import Mathlib.Data.List.Basic
import Mathlib.Data.List.Count
import Mathlib.Data.List.Perm.Basic

set_option autoImplicit false
set_option relaxedAutoImplicit false

namespace Mewa.Lib

universe u v

section Preorder

variable {ν : Type u} {μ : Type v} {children : ν → List ν} {d : Nat} {roots : List ν}
  {visits : List (ν × Nat)}

/-- The visits of some nodes of a depth, each of them followed by what is below it. -/
inductive VisitsFrom (children : ν → List ν) : Nat → List ν → List (ν × Nat) → Prop
  | nil (d : Nat) : VisitsFrom children d [] []
  | cons {d : Nat} {c : ν} {cs : List ν} {inner rest : List (ν × Nat)} :
      VisitsFrom children (d + 1) (children c) inner → VisitsFrom children d cs rest →
      VisitsFrom children d (c :: cs) ((c, d) :: (inner ++ rest))

namespace VisitsFrom

theorem unique {visits' : List (ν × Nat)} (here : VisitsFrom children d roots visits)
    (other : VisitsFrom children d roots visits') : visits = visits' := by
  induction here generalizing visits' with
  | nil => cases other; rfl
  | cons _ _ ih_inner ih_rest =>
    cases other with
    | cons inner rest => rw [ih_inner inner, ih_rest rest]

theorem exists_of_rank (rank : ν → Nat) (below : ∀ p, ∀ c ∈ children p, rank c < rank p)
    (d : Nat) (roots : List ν) : ∃ visits, VisitsFrom children d roots visits := by
  have bounded : ∀ n d, ∀ roots : List ν, (∀ c ∈ roots, rank c < n) →
      ∃ visits, VisitsFrom children d roots visits := by
    intro n
    induction n with
    | zero =>
      intro d roots small
      cases roots with
      | nil => exact ⟨[], .nil d⟩
      | cons c cs => exact absurd (small c List.mem_cons_self) (Nat.not_lt_zero _)
    | succ n ih =>
      intro d roots small
      induction roots with
      | nil => exact ⟨[], .nil d⟩
      | cons c cs ih_cs =>
        obtain ⟨rest, visits_rest⟩ := ih_cs fun e mem => small e (List.mem_cons_of_mem _ mem)
        obtain ⟨inner, visits_inner⟩ := ih (d + 1) (children c) fun e mem =>
          Nat.lt_of_lt_of_le (below c e mem) (Nat.le_of_lt_succ (small c List.mem_cons_self))
        exact ⟨_, .cons visits_inner visits_rest⟩
  induction roots with
  | nil => exact ⟨[], .nil d⟩
  | cons c cs ih =>
    obtain ⟨rest, visits_rest⟩ := ih
    obtain ⟨inner, visits_inner⟩ := bounded (rank c) (d + 1) (children c) (below c)
    exact ⟨_, .cons visits_inner visits_rest⟩

theorem count_child [DecidableEq ν] (here : VisitsFrom children d roots visits) {p x : ν}
    (parent : ∀ c, (children c).count x = if c = p then 1 else 0) :
    (visits.map Prod.fst).count x = roots.count x + (visits.map Prod.fst).count p := by
  induction here with
  | nil => simp
  | @cons d c cs inner rest _ _ ih_inner ih_rest =>
    simp only [List.map_cons, List.map_append, List.count_cons, List.count_append, ih_inner,
      ih_rest, parent, beq_iff_eq]
    omega

theorem count_root [DecidableEq ν] (here : VisitsFrom children d roots visits) {x : ν}
    (no_child : ∀ c, x ∉ children c) : (visits.map Prod.fst).count x = roots.count x := by
  induction here with
  | nil => simp
  | @cons d c cs inner rest _ _ ih_inner ih_rest =>
    have absent : (children c).count x = 0 := List.count_eq_zero.mpr (no_child c)
    simp only [List.map_cons, List.map_append, List.count_cons, List.count_append, ih_inner,
      ih_rest, absent]
    omega

/-- What holds at the roots and goes from parents to children holds at every visit. -/
theorem invariant {P : ν → Nat → Prop} (here : VisitsFrom children d roots visits)
    (start : ∀ c ∈ roots, P c d) (step : ∀ p e, P p e → ∀ c ∈ children p, P c (e + 1)) :
    ∀ v ∈ visits, P v.1 v.2 := by
  induction here with
  | nil => simp
  | @cons d c cs inner rest _ _ ih_inner ih_rest =>
    intro v mem
    rcases List.mem_cons.mp mem with rfl | mem
    · exact start c List.mem_cons_self
    · rcases List.mem_append.mp mem with below | after
      · exact ih_inner (step c d (start c List.mem_cons_self)) v below
      · exact ih_rest (fun e mem => start e (List.mem_cons_of_mem _ mem)) v after

theorem map {children' : μ → List μ} {f : ν → μ} {P : ν → Prop}
    (here : VisitsFrom children d roots visits) (start : ∀ c ∈ roots, P c)
    (step : ∀ p, P p → ∀ c ∈ children p, P c)
    (commutes : ∀ p, P p → (children p).map f = children' (f p)) :
    VisitsFrom children' d (roots.map f) (visits.map fun v => (f v.1, v.2)) := by
  induction here with
  | nil => exact .nil _
  | @cons d c cs inner rest _ _ ih_inner ih_rest =>
    have at_c := start c List.mem_cons_self
    have below := ih_inner (step c at_c)
    rw [commutes c at_c] at below
    have after := ih_rest fun e mem => start e (List.mem_cons_of_mem _ mem)
    simp only [List.map_cons, List.map_append]
    exact .cons below after

end VisitsFrom

end Preorder

end Mewa.Lib
