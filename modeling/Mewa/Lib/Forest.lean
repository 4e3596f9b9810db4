/- Module: Mewa/Lib/Forest
   digest: Parents in a finite order whose up-sets are chains, and how one insertion moves them. -/

import Mathlib.Order.Basic
import Mathlib.Data.Set.Insert

set_option autoImplicit false
set_option relaxedAutoImplicit false

namespace Mewa.Lib.Forest

universe u

variable {α : Type u} [PartialOrder α]

/-- The parent of an element is the least element of the set strictly above it, if there is one. -/
def IsParent (S : Set α) (a : α) : Option α → Prop
  | none => ∀ b ∈ S, ¬ a < b
  | some p => p ∈ S ∧ a < p ∧ ∀ b ∈ S, a < b → p ≤ b

/-- Two elements above a common one are comparable. -/
def IsForest (S : Set α) : Prop :=
  ∀ a ∈ S, ∀ b ∈ S, ∀ c ∈ S, a ≤ b → a ≤ c → b ≤ c ∨ c ≤ b

theorem IsForest.mono {S T : Set α} (forest : IsForest T) (sub : S ⊆ T) : IsForest S :=
  fun a ha b hb c hc => forest a (sub ha) b (sub hb) c (sub hc)

theorem IsParent.mem {S : Set α} {a p : α} (h : IsParent S a (some p)) : p ∈ S := h.1

theorem IsParent.lt {S : Set α} {a p : α} (h : IsParent S a (some p)) : a < p := h.2.1

theorem IsParent.le_of_lt {S : Set α} {a p b : α} (h : IsParent S a (some p)) (hb : b ∈ S)
    (hab : a < b) : p ≤ b := h.2.2 b hb hab

theorem IsParent.unique {S : Set α} {a : α} {p q : Option α}
    (hp : IsParent S a p) (hq : IsParent S a q) : p = q := by
  cases p with
  | none =>
    cases q with
    | none => rfl
    | some q => exact absurd hq.2.1 (hp q hq.1)
  | some p =>
    cases q with
    | none => exact absurd hp.2.1 (hq p hp.1)
    | some q => exact congrArg some (le_antisymm (hp.2.2 q hq.1 hq.2.1) (hq.2.2 p hp.1 hp.2.1))

/-- An inserted element does not become the parent of an element that is not below it, nor of one
    whose parent stays below it. -/
theorem IsParent.insert_stays {S : Set α} {s a : α} {p : Option α} (h : IsParent S a p)
    (stays : a < s → ∃ q, p = some q ∧ q ≤ s) : IsParent (insert s S) a p := by
  cases p with
  | none =>
    rintro b (rfl | hb) hab
    · obtain ⟨q, hq, -⟩ := stays hab
      exact Option.some_ne_none q hq.symm
    · exact h b hb hab
  | some p =>
    refine ⟨Set.mem_insert_of_mem s h.1, h.2.1, ?_⟩
    rintro b (rfl | hb) hab
    · obtain ⟨q, hq, hle⟩ := stays hab
      exact Option.some.inj hq ▸ hle
    · exact h.2.2 b hb hab

theorem IsParent.insert_becomes {S : Set α} {s a : α} {p : Option α}
    (forest : IsForest (insert s S)) (ha : a ∈ S) (h : IsParent S a p) (below : a < s)
    (maximal : ∀ q, p = some q → ¬ q ≤ s) : IsParent (insert s S) a (some s) := by
  refine ⟨Set.mem_insert s S, below, ?_⟩
  rintro b (rfl | hb) hab
  · exact le_rfl
  · cases p with
    | none => exact absurd hab (h b hb)
    | some p =>
      have hpb : p ≤ b := h.2.2 b hb hab
      rcases forest a (Set.mem_insert_of_mem s ha) b (Set.mem_insert_of_mem s hb) s
        (Set.mem_insert s S) hab.le below.le with hle | hle
      · exact absurd (hpb.trans hle) (maximal p rfl)
      · exact hle

theorem IsParent.insert_self {S : Set α} {s : α} {p : Option α} (h : IsParent S s p) :
    IsParent (insert s S) s p :=
  h.insert_stays fun hlt => absurd hlt (lt_irrefl s)

end Mewa.Lib.Forest
