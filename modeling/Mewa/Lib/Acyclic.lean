/- Module: Mewa/Lib/Acyclic
   digest: Relations without cycles, and how one stays so when edges are added. -/

import Mathlib.Data.Fintype.EquivFin
import Mathlib.Data.Set.Finite.Basic
import Mathlib.Logic.Relation
import Mathlib.Order.WellFounded

set_option autoImplicit false
set_option relaxedAutoImplicit false

universe u

namespace Mewa.Lib

open Relation

variable {α : Type u} {R : α → α → Prop} {v : α} {out : Set α}

/-- No path leads back to its start. -/
def Acyclic (R : α → α → Prop) : Prop := ∀ a, ¬ TransGen R a a

theorem Acyclic.mono {S : α → α → Prop} (acyclic : Acyclic R) (sub : ∀ a b, S a b → R a b) :
    Acyclic S := by
  intro a cycle
  exact acyclic a (TransGen.mono (fun a b step => sub a b step) a a cycle)

/-- The relation with edges from one element to others. -/
def WithEdges (R : α → α → Prop) (v : α) (out : Set α) (a b : α) : Prop :=
  R a b ∨ a = v ∧ b ∈ out

namespace WithEdges

theorem path_to {a : α} (path : ReflTransGen (WithEdges R v out) a v) : ReflTransGen R a v := by
  induction path using ReflTransGen.head_induction_on with
  | refl => exact .refl
  | head step _ ih =>
    rcases step with old | ⟨rfl, -⟩
    · exact .head old ih
    · exact .refl

theorem path_cases {a b : α} (path : TransGen (WithEdges R v out) a b) :
    TransGen R a b ∨
      ReflTransGen (WithEdges R v out) a v ∧ TransGen (WithEdges R v out) v b := by
  induction path with
  | single step =>
    rcases step with old | ⟨rfl, new⟩
    · exact Or.inl (.single old)
    · exact Or.inr ⟨.refl, .single (Or.inr ⟨rfl, new⟩)⟩
  | tail before step ih =>
    rcases ih with old | ⟨there, back⟩
    · rcases step with here | ⟨rfl, new⟩
      · exact Or.inl (old.tail here)
      · exact Or.inr ⟨before.to_reflTransGen, .single (Or.inr ⟨rfl, new⟩)⟩
    · exact Or.inr ⟨there, back.tail step⟩

theorem acyclic_iff (source : ∀ b, ¬ R v b) :
    Acyclic (WithEdges R v out) ↔ Acyclic R ∧ ∀ x ∈ out, ¬ ReflTransGen R x v := by
  constructor
  · intro acyclic
    refine ⟨acyclic.mono fun a b old => Or.inl old, fun x new path => ?_⟩
    refine acyclic v (TransGen.head' (Or.inr ⟨rfl, new⟩) ?_)
    exact ReflTransGen.mono (fun a b old => Or.inl old) x v path
  · rintro ⟨acyclic, apart⟩ a cycle
    rcases path_cases cycle with old | ⟨there, back⟩
    · exact acyclic a old
    · have around : TransGen (WithEdges R v out) v v := back.trans_left there
      obtain ⟨x, first, rest⟩ := TransGen.head'_iff.mp around
      rcases first with old | ⟨-, new⟩
      · exact source x old
      · exact apart x new (path_to rest)

end WithEdges

theorem Acyclic.wellFounded (acyclic : Acyclic R) (finite : {a | ∃ b, R a b}.Finite) :
    WellFounded (flip R) := by
  have := finite.to_subtype
  let inner (a b : {a | ∃ b, R a b}) : Prop := TransGen R b a
  have wf : WellFounded inner := by
    have : IsTrans _ inner := ⟨fun a b c first second => TransGen.trans second first⟩
    have : Std.Irrefl inner := ⟨fun a cycle => acyclic a cycle⟩
    exact Finite.wellFounded_of_trans_of_irrefl inner
  have inside : ∀ a : {a | ∃ b, R a b}, Acc (flip R) a := by
    intro a
    induction a using wf.induction with
    | h a ih =>
      refine Acc.intro _ fun b edge => ?_
      by_cases more : ∃ c, R b c
      · exact ih ⟨b, more⟩ (.single edge)
      · exact Acc.intro _ fun c next => absurd ⟨c, next⟩ more
  refine ⟨fun a => ?_⟩
  by_cases more : ∃ b, R a b
  · exact inside ⟨a, more⟩
  · exact Acc.intro _ fun c next => absurd ⟨c, next⟩ more

end Mewa.Lib
