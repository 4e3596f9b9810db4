/- Module: Mewa/Lib/BinarySearch
   digest: The binary search for the first element that is not smaller, on increasing lists. -/

import Mathlib

set_option autoImplicit false
set_option relaxedAutoImplicit false

namespace Mewa.Lib

section BinarySearch

variable {α : Type} [LinearOrder α] {l : List α} {elem : α}

/-- The search in `len` elements from the position `first` on. -/
def lowerBoundFrom (l : List α) (elem : α) (first len : Nat) : Nat :=
  if len = 0 then first
  else
    let half := len / 2
    match l[first + half]? with
    | none => first
    | some middle =>
      if middle < elem then lowerBoundFrom l elem (first + half + 1) (len - half - 1)
      else lowerBoundFrom l elem first half
termination_by len
decreasing_by all_goals omega

def lowerBound (l : List α) (elem : α) : Nat := lowerBoundFrom l elem 0 l.length

/-- Elements before the position are smaller and the ones from it on are not. -/
structure Splits (l : List α) (elem : α) (pos : Nat) : Prop where
  bound : pos ≤ l.length
  below : ∀ a ∈ l.take pos, a < elem
  above : ∀ a ∈ l.drop pos, elem ≤ a

theorem lowerBoundFrom_splits (sorted : l.Pairwise (· < ·)) {first len : Nat}
    (bound : first + len ≤ l.length) (below : ∀ a ∈ l.take first, a < elem)
    (above : ∀ a ∈ l.drop (first + len), elem ≤ a) :
    Splits l elem (lowerBoundFrom l elem first len) := by
  fun_induction lowerBoundFrom l elem first len with
  | case1 first => exact ⟨by omega, below, above⟩
  | case2 first len some_left half outside =>
    have inside : first + half < l.length := by omega
    rw [List.getElem?_eq_getElem inside] at outside
    cases outside
  | case3 first len some_left half middle found smaller ih =>
    obtain ⟨inside, here⟩ := List.getElem?_eq_some_iff.mp found
    apply ih (by omega)
    · intro a mem
      obtain ⟨i, bound_i, at_i⟩ := List.getElem_of_mem mem
      simp only [List.length_take] at bound_i
      rw [List.getElem_take] at at_i
      rcases Nat.lt_or_eq_of_le (show i ≤ first + half by omega) with before | same
      · have ordered := List.pairwise_iff_getElem.mp sorted i (first + half) (by omega) inside before
        rw [at_i, here] at ordered
        exact lt_trans ordered smaller
      · subst same
        rw [← at_i, here]
        exact smaller
    · have same : first + half + 1 + (len - half - 1) = first + len := by omega
      rwa [same]
  | case4 first len some_left half middle found not_smaller ih =>
    obtain ⟨inside, here⟩ := List.getElem?_eq_some_iff.mp found
    apply ih (by omega) below
    intro a mem
    obtain ⟨i, bound_i, at_i⟩ := List.getElem_of_mem mem
    rw [List.getElem_drop] at at_i
    simp only [List.length_drop] at bound_i
    have not_below : elem ≤ middle := not_lt.mp not_smaller
    rcases Nat.eq_or_lt_of_le (Nat.zero_le i) with same | after
    · subst same
      rw [← at_i]
      simpa [here] using not_below
    · have ordered := List.pairwise_iff_getElem.mp sorted (first + half) (first + half + i) inside
        (by omega) (by omega)
      rw [at_i, here] at ordered
      exact le_trans not_below (le_of_lt ordered)

theorem lowerBound_splits (sorted : l.Pairwise (· < ·)) : Splits l elem (lowerBound l elem) := by
  apply lowerBoundFrom_splits sorted (by omega)
  · intro a mem
    simp at mem
  · intro a mem
    simp at mem

theorem mem_iff_lowerBound (sorted : l.Pairwise (· < ·)) :
    elem ∈ l ↔ l[lowerBound l elem]? = some elem := by
  obtain ⟨bound, below, above⟩ : Splits l elem (lowerBound l elem) := lowerBound_splits sorted
  constructor
  · intro mem
    rw [← List.take_append_drop (lowerBound l elem) l] at mem
    rcases List.mem_append.mp mem with before | after
    · exact absurd (below elem before) (lt_irrefl elem)
    · cases rest : l.drop (lowerBound l elem) with
      | nil =>
        rw [rest] at after
        cases after
      | cons b tail =>
        have first : l[lowerBound l elem]? = some b := by
          have head := congrArg List.head? rest
          rwa [List.head?_drop] at head
        rw [first]
        have sorted_rest := sorted.sublist (List.drop_sublist (lowerBound l elem) l)
        rw [rest] at sorted_rest after above
        rcases List.mem_cons.mp after with same | later
        · rw [same]
        · have smaller := (List.pairwise_cons.mp sorted_rest).1 elem later
          exact absurd (above b List.mem_cons_self) (not_le.mpr smaller)
  · intro found
    exact List.mem_of_getElem? found

end BinarySearch

end Mewa.Lib
