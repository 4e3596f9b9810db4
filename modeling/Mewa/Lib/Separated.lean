/- Module: Mewa/Lib/Separated
   digest: A separator of two elements in a list, and the part behind its first occurrence. -/

import Mathlib.Data.List.Infix

set_option autoImplicit false
set_option relaxedAutoImplicit false

universe u

namespace Mewa.Lib

variable {α : Type u} {a b c : α} {l l' : List α}

/-- The two elements follow each other somewhere in the list. -/
def Separated (a b : α) (l : List α) : Prop := ∃ before after, l = before ++ a :: b :: after

theorem not_separated_of_not_mem (absent : a ∉ l) : ¬ Separated a b l := by
  rintro ⟨before, after, rfl⟩
  simp at absent

theorem Separated.append_left (separated : Separated a b l') : Separated a b (l ++ l') := by
  obtain ⟨before, after, rfl⟩ := separated
  exact ⟨l ++ before, after, by simp⟩

theorem Separated.append_right (separated : Separated a b l) : Separated a b (l ++ l') := by
  obtain ⟨before, after, rfl⟩ := separated
  exact ⟨before, after ++ l', by simp⟩

theorem separated_cons : Separated a b (c :: l) ↔
    (c = a ∧ ∃ rest, l = b :: rest) ∨ Separated a b l := by
  constructor
  · rintro ⟨before, after, same⟩
    cases before with
    | nil =>
      obtain ⟨rfl, rfl⟩ := List.cons.inj same
      exact Or.inl ⟨rfl, after, rfl⟩
    | cons d before =>
      obtain ⟨rfl, rfl⟩ := List.cons.inj same
      exact Or.inr ⟨before, after, rfl⟩
  · rintro (⟨rfl, rest, rfl⟩ | ⟨before, after, rfl⟩)
    · exact ⟨[], rest, rfl⟩
    · exact ⟨c :: before, after, rfl⟩

theorem separated_append_of_not_mem (absent : a ∉ l) :
    Separated a b (l ++ l') ↔ Separated a b l' := by
  induction l with
  | nil => rfl
  | cons c l ih =>
    rw [List.mem_cons, not_or] at absent
    obtain ⟨other, absent⟩ := absent
    rw [List.cons_append, separated_cons, ih absent]
    constructor
    · rintro (⟨rfl, -⟩ | rest)
      · exact absurd rfl other
      · exact rest
    · exact Or.inr

theorem separated_append_cons (not_a : c ≠ a) (not_b : c ≠ b) :
    Separated a b (l ++ c :: l') ↔ Separated a b l ∨ Separated a b l' := by
  constructor
  · intro separated
    induction l with
    | nil =>
      rcases separated_cons.mp separated with ⟨same, -⟩ | rest
      · exact absurd same not_a
      · exact Or.inr rest
    | cons d l ih =>
      rcases separated_cons.mp separated with ⟨rfl, rest, next⟩ | rest
      · cases l with
        | nil => exact absurd (List.cons.inj next).1 not_b
        | cons e l =>
          obtain ⟨rfl, -⟩ := List.cons.inj next
          exact Or.inl ⟨[], l, rfl⟩
      · rcases ih rest with left | right
        · exact Or.inl (separated_cons.mpr (Or.inr left))
        · exact Or.inr right
  · rintro (left | right)
    · exact left.append_right
    · exact (separated_cons.mpr (Or.inr right)).append_left

section Behind

variable [DecidableEq α]

/-- What is behind the first separator. -/
def behind (a b : α) : List α → Option (List α)
  | c :: d :: rest => if c = a ∧ d = b then some rest else behind a b (d :: rest)
  | _ => none

theorem behind_cons_cons {d : α} :
    behind a b (c :: d :: l) = if c = a ∧ d = b then some l else behind a b (d :: l) := by
  rw [behind]

theorem behind_cons (other : ¬ (c = a ∧ ∃ rest, l = b :: rest)) :
    behind a b (c :: l) = behind a b l := by
  cases l with
  | nil => rfl
  | cons d l =>
    rw [behind_cons_cons, if_neg]
    rintro ⟨rfl, rfl⟩
    exact other ⟨rfl, l, rfl⟩

theorem behind_none (apart : ¬ Separated a b l) : behind a b l = none := by
  induction l with
  | nil => rfl
  | cons c l ih =>
    rw [separated_cons, not_or] at apart
    rw [behind_cons apart.1, ih apart.2]

theorem behind_suffix {rest : List α} (found : behind a b l = some rest) : rest <:+ l := by
  induction l with
  | nil => simp [behind] at found
  | cons c l ih =>
    cases l with
    | nil => simp [behind] at found
    | cons d l =>
      rw [behind_cons_cons] at found
      split at found
      · obtain rfl := Option.some.inj found
        exact (List.suffix_cons d l).trans (List.suffix_cons c _)
      · exact (ih found).trans (List.suffix_cons c _)

/-- A separator behind a list without one is the first if the list does not end with its begin. -/
theorem behind_append (apart : ¬ Separated a b l) (ends : l.getLast? ≠ some a) (rest : List α) :
    behind a b (l ++ a :: b :: rest) = some rest := by
  induction l with
  | nil =>
    rw [List.nil_append, behind_cons_cons, if_pos ⟨rfl, rfl⟩]
  | cons c l ih =>
    rw [separated_cons, not_or] at apart
    rw [List.cons_append, behind_cons]
    · cases l with
      | nil => rw [List.nil_append, behind_cons_cons, if_pos ⟨rfl, rfl⟩]
      | cons d l => exact ih apart.2 (by simpa using ends)
    · rintro ⟨rfl, rest', next⟩
      cases l with
      | nil => simp at ends
      | cons d l =>
        obtain ⟨rfl, -⟩ := List.cons.inj next
        exact apart.1 ⟨rfl, l, rfl⟩

theorem behind_of_separated (separated : Separated a b l) :
    ∃ before after, l = before ++ a :: b :: after ∧
      ∀ rest, behind a b (l ++ rest) = some (after ++ rest) := by
  induction l with
  | nil =>
    obtain ⟨before, after, same⟩ := separated
    simp at same
  | cons c l ih =>
    by_cases here : c = a ∧ ∃ rest, l = b :: rest
    · obtain ⟨rfl, after, rfl⟩ := here
      exact ⟨[], after, rfl, fun rest => if_pos ⟨rfl, rfl⟩⟩
    · rcases separated_cons.mp separated with first | later
      · exact absurd first here
      · obtain ⟨before, after, same, ends⟩ := ih later
        refine ⟨c :: before, after, by rw [same]; rfl, fun rest => ?_⟩
        rw [List.cons_append, behind_cons, ends rest]
        rintro ⟨rfl, rest', next⟩
        cases l with
        | nil => simp at same
        | cons d l =>
          obtain ⟨rfl, -⟩ := List.cons.inj next
          exact here ⟨rfl, l, rfl⟩

theorem separated_iff : Separated a b l ↔ (behind a b l).isSome = true := by
  constructor
  · intro separated
    obtain ⟨before, after, -, found⟩ := behind_of_separated separated
    have here := found []
    rw [List.append_nil] at here
    simp [here]
  · intro found
    by_contra apart
    simp [behind_none apart] at found

instance : Decidable (Separated a b l) := decidable_of_iff _ separated_iff.symm

end Behind

end Mewa.Lib
