/- Module: Mewa/Lib/BestFirst
   digest: The search of a tree by a frontier: what is left to visit, order and termination. -/

import Mathlib.Algebra.BigOperators.Group.List.Basic
import Mathlib.Logic.Relation
import Mathlib.Tactic.Common
import Mathlib.Tactic.Ring
import Mathlib.Tactic.Linarith

set_option autoImplicit false
set_option relaxedAutoImplicit false

namespace Mewa.Lib.BestFirst

open Relation

variable {ν : Type} (children : ν → List ν)

/-- A node lies below another one in the tree, or is it. -/
def Below (m n : ν) : Prop := ReflTransGen (fun m n => n ∈ children m) m n

def Under (roots : List ν) (n : ν) : Prop := ∃ r ∈ roots, Below children r n

/-- The nodes have distinct children and at most one parent, and the roots have none. -/
structure IsTree (roots : List ν) : Prop where
  nodup : ∀ m, (children m).Nodup
  parent : ∀ m m' n, n ∈ children m → n ∈ children m' → m = m'
  root : ∀ m, ∀ r ∈ roots, r ∉ children m

/-- A search has visited some nodes and holds a frontier below which all the others are. -/
structure Search (roots visited frontier : List ν) : Prop where
  covers : ∀ n, Under children roots n → n ∈ visited ∨ ∃ f ∈ frontier, Below children f n
  reached : ∀ n ∈ visited ++ frontier, n ∈ roots ∨ ∃ m ∈ visited, n ∈ children m
  below : ∀ n ∈ visited ++ frontier, Under children roots n
  nodup : (visited ++ frontier).Nodup

variable {children} {roots : List ν}

theorem Under.tail {m n : ν} (h : Under children roots m) (child : n ∈ children m) :
    Under children roots n := by
  obtain ⟨r, hr, below⟩ := h
  exact ⟨r, hr, ReflTransGen.tail below child⟩

theorem Search.start (nodup : roots.Nodup) : Search children roots [] roots where
  covers _ h := Or.inr h
  reached _ h := Or.inl h
  below n h := ⟨n, h, ReflTransGen.refl⟩
  nodup := nodup

theorem Search.perm {visited frontier frontier' : List ν}
    (s : Search children roots visited frontier) (perm : frontier.Perm frontier') :
    Search children roots visited frontier' where
  covers n h := (s.covers n h).imp_right fun ⟨f, hf, hn⟩ => ⟨f, perm.mem_iff.mp hf, hn⟩
  reached n h := s.reached n ((List.Perm.append_left visited perm).mem_iff.mpr h)
  below n h := s.below n ((List.Perm.append_left visited perm).mem_iff.mpr h)
  nodup := (List.Perm.append_left visited perm).nodup_iff.mp s.nodup

/-- Visiting a node of the frontier puts its children there instead. -/
theorem Search.expand (tree : IsTree children roots) {visited frontier : List ν} {f : ν}
    (s : Search children roots visited (f :: frontier)) :
    Search children roots (f :: visited) (children f ++ frontier) := by
  have fresh : ∀ c ∈ children f, c ∉ visited ++ f :: frontier := by
    intro c hc hmem
    have hf : f ∉ visited := fun hf =>
      (List.nodup_append.mp s.nodup).2.2 f hf f (by simp) rfl
    rcases s.reached c hmem with hroot | ⟨m, hm, hcm⟩
    · exact tree.root f c hroot hc
    · exact hf (tree.parent m f c hcm hc ▸ hm)
  refine ⟨fun n h => ?_, fun n h => ?_, fun n h => ?_, ?_⟩
  · rcases s.covers n h with hv | ⟨g, hg, hn⟩
    · exact Or.inl (List.mem_cons_of_mem f hv)
    · rcases List.mem_cons.mp hg with rfl | hg
      · rcases ReflTransGen.cases_head hn with rfl | ⟨c, hc, hcn⟩
        · exact Or.inl List.mem_cons_self
        · exact Or.inr ⟨c, List.mem_append_left _ hc, hcn⟩
      · exact Or.inr ⟨g, List.mem_append_right _ hg, hn⟩
  · have old (h : n ∈ visited ++ f :: frontier) :
        n ∈ roots ∨ ∃ m ∈ f :: visited, n ∈ children m :=
      (s.reached n h).imp_right fun ⟨m, hm, hn⟩ => ⟨m, List.mem_cons_of_mem f hm, hn⟩
    simp only [List.cons_append, List.mem_cons, List.mem_append] at h
    rcases h with rfl | h | h | h
    · exact old (by simp)
    · exact old (by simp [h])
    · exact Or.inr ⟨f, List.mem_cons_self, h⟩
    · exact old (by simp [h])
  · simp only [List.cons_append, List.mem_cons, List.mem_append] at h
    rcases h with rfl | h | h | h
    · exact s.below n (by simp)
    · exact s.below n (by simp [h])
    · exact (s.below f (by simp)).tail h
    · exact s.below n (by simp [h])
  · have shuffled : ((f :: visited) ++ (children f ++ frontier)).Perm
        (children f ++ (visited ++ f :: frontier)) := by
      rw [← List.append_assoc]
      refine (List.perm_append_comm.append_right frontier).trans ?_
      rw [List.append_assoc]
      exact List.Perm.append_left _ List.perm_middle.symm
    refine shuffled.nodup_iff.mpr (List.nodup_append.mpr ⟨tree.nodup f, s.nodup, ?_⟩)
    exact fun c hc d hd hcd => fresh c hc (hcd ▸ hd)

theorem Search.mem_visited {visited : List ν} (s : Search children roots visited []) {n : ν}
    (h : Under children roots n) : n ∈ visited :=
  (s.covers n h).resolve_right fun ⟨f, hf, _⟩ => by simp at hf

section Weight

variable {weight : ν → ℚ}

theorem weight_le_of_below (mono : ∀ m, ∀ n ∈ children m, weight m ≤ weight n) {m n : ν}
    (h : Below children m n) : weight m ≤ weight n := by
  induction h with
  | refl => exact le_rfl
  | tail _ hstep ih => exact ih.trans (mono _ _ hstep)

theorem Search.le_weight (mono : ∀ m, ∀ n ∈ children m, weight m ≤ weight n)
    {visited frontier : List ν} (s : Search children roots visited frontier) {bound : ℚ}
    (low : ∀ f ∈ frontier, bound ≤ weight f) {n : ν} (h : Under children roots n)
    (unvisited : n ∉ visited) : bound ≤ weight n := by
  obtain ⟨f, hf, hn⟩ := (s.covers n h).resolve_left unvisited
  exact (low f hf).trans (weight_le_of_below mono hn)

end Weight

section Potential

/-- The potential of a node at a depth, in a tree of bounded depth and branching. -/
def potential (branching depth : Nat) (rank : ν → Nat) (n : ν) : Nat :=
  (branching + 1) ^ (depth + 1 - rank n)

theorem potential_children {branching depth : Nat} (rank : ν → Nat) {f : ν}
    (bounded : rank f ≤ depth) (few : (children f).length ≤ branching)
    (deeper : ∀ c ∈ children f, rank c = rank f + 1) :
    ((children f).map (potential branching depth rank)).sum <
      potential branching depth rank f := by
  have each : (children f).map (potential branching depth rank) =
      (children f).map fun _ => (branching + 1) ^ (depth - rank f) := by
    refine List.map_congr_left fun c hc => ?_
    simp only [potential, deeper c hc]
    congr 1
    omega
  have rank_eq : depth + 1 - rank f = depth - rank f + 1 := by omega
  rw [each, List.map_const', List.sum_replicate, potential, rank_eq, pow_succ, nsmul_eq_mul,
    Nat.cast_id]
  have positive : 0 < (branching + 1) ^ (depth - rank f) := Nat.pow_pos (Nat.succ_pos _)
  nlinarith

end Potential

end Mewa.Lib.BestFirst
