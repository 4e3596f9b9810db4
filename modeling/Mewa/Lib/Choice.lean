/- Module: Mewa/Lib/Choice
   digest: The longest of a list of candidates by a running maximum, where some are preferred. -/

import Mathlib.Data.List.Basic
import Mathlib.Order.Nat

set_option autoImplicit false
set_option relaxedAutoImplicit false

namespace Mewa.Lib

universe u

variable {α : Type u} (len : α → Nat) (favoured : α → Bool)

/-- The choice between the best candidate so far with its length and the next one. -/
def choose (best : Nat × Option α) (a : α) : Nat × Option α :=
  if best.1 ≤ len a ∧ (best.1 < len a ∨ favoured a) then (len a, some a) else best

/-- A candidate is the longest one; it is a favoured one if one of them has its length and else the
    first one of its length. -/
structure Preferred (l : List α) (a : α) : Prop where
  mem : a ∈ l
  positive : 0 < len a
  longest : ∀ b ∈ l, len b ≤ len a
  favourite : favoured a = false → ∀ b ∈ l, len b = len a → favoured b = false
  first : favoured a = false → ∃ before after, l = before ++ a :: after ∧
    ∀ b ∈ before, len b < len a

/-- The state of the running maximum after some candidates. -/
inductive Chosen (l : List α) : Nat × Option α → Prop
  | nothing : (∀ b ∈ l, len b = 0 ∧ favoured b = false) → Chosen l (0, none)
  | empty (a : α) : a ∈ l → favoured a = true → (∀ b ∈ l, len b = 0) → Chosen l (0, some a)
  | best (a : α) : Preferred len favoured l a → Chosen l (len a, some a)

section

variable {len : α → Nat} {favoured : α → Bool} {l : List α}

theorem Preferred.unique_len {a b : α} (ha : Preferred len favoured l a)
    (hb : Preferred len favoured l b) : len a = len b :=
  Nat.le_antisymm (hb.longest a ha.mem) (ha.longest b hb.mem)

theorem Chosen.longest {best : Nat × Option α} (h : Chosen len favoured l best) :
    ∀ b ∈ l, len b ≤ best.1 := by
  cases h with
  | nothing none => exact fun b mem => (none b mem).1.le
  | empty a _ _ zero => exact fun b mem => (zero b mem).le
  | best a preferred => exact preferred.longest

theorem Chosen.le {best best' : Nat × Option α} (h : Chosen len favoured l best)
    (h' : Chosen len favoured l best') : best.1 ≤ best'.1 := by
  cases h with
  | nothing _ => exact Nat.zero_le _
  | empty a _ _ _ => exact Nat.zero_le _
  | best a preferred => exact h'.longest a preferred.mem

theorem Chosen.of_none {m : Nat} (h : Chosen len favoured l (m, none)) :
    m = 0 ∧ ∀ b ∈ l, len b = 0 ∧ favoured b = false := by
  cases h with
  | nothing none => exact ⟨rfl, none⟩

theorem Chosen.of_some {m : Nat} {a : α} (h : Chosen len favoured l (m, some a)) :
    m = 0 ∧ a ∈ l ∧ favoured a = true ∧ (∀ b ∈ l, len b = 0) ∨
      m = len a ∧ Preferred len favoured l a := by
  cases h with
  | empty _ mem fav zero => exact Or.inl ⟨rfl, mem, fav, zero⟩
  | best _ preferred => exact Or.inr ⟨rfl, preferred⟩

theorem Chosen.not_none {m : Nat} {a : α} (h : Chosen len favoured l (m, some a)) :
    ¬ Chosen len favoured l (0, none) := by
  intro none
  obtain ⟨-, none⟩ := none.of_none
  rcases h.of_some with ⟨-, mem, fav, -⟩ | ⟨-, preferred⟩
  · simp [(none a mem).2] at fav
  · exact absurd (none a preferred.mem).1 preferred.positive.ne'

theorem Preferred.snoc_longer {a : α} {m : Nat} (bound : ∀ b ∈ l, len b ≤ m)
    (longer : m < len a) : Preferred len favoured (l ++ [a]) a where
  mem := by simp
  positive := by omega
  longest := by
    intro b mem
    rcases List.mem_append.mp mem with old | new
    · exact (bound b old).trans longer.le
    · rw [List.mem_singleton.mp new]
  favourite := by
    intro plain b mem same
    rcases List.mem_append.mp mem with old | new
    · have := bound b old
      omega
    · rwa [List.mem_singleton.mp new]
  first := fun _ => ⟨l, [], rfl, fun b mem => lt_of_le_of_lt (bound b mem) longer⟩

theorem Preferred.snoc_favoured {a : α} (bound : ∀ b ∈ l, len b ≤ len a) (positive : 0 < len a)
    (fav : favoured a = true) : Preferred len favoured (l ++ [a]) a where
  mem := by simp
  positive := positive
  longest := by
    intro b mem
    rcases List.mem_append.mp mem with old | new
    · exact bound b old
    · rw [List.mem_singleton.mp new]
  favourite := by simp [fav]
  first := by simp [fav]

theorem Preferred.snoc_kept {a b : α} (h : Preferred len favoured l b) (shorter : len a ≤ len b)
    (plain : len a = len b → favoured a = false) : Preferred len favoured (l ++ [a]) b where
  mem := List.mem_append_left _ h.mem
  positive := h.positive
  longest := by
    intro c mem
    rcases List.mem_append.mp mem with old | new
    · exact h.longest c old
    · rwa [List.mem_singleton.mp new]
  favourite := by
    intro fav c mem same
    rcases List.mem_append.mp mem with old | new
    · exact h.favourite fav c old same
    · rw [List.mem_singleton.mp new] at same ⊢
      exact plain same
  first := by
    intro fav
    obtain ⟨before, after, rfl, less⟩ := h.first fav
    exact ⟨before, after ++ [a], by simp, less⟩

theorem Chosen.choose {best : Nat × Option α} (h : Chosen len favoured l best) (a : α) :
    Chosen len favoured (l ++ [a]) (choose len favoured best a) := by
  have bound := h.longest
  unfold Lib.choose
  split
  · rename_i taken
    rcases Nat.eq_zero_or_pos (len a) with zero | positive
    · -- a favoured candidate without length
      have all : ∀ b ∈ l, len b = 0 := fun b mem => by
        have := bound b mem
        omega
      rw [zero]
      refine .empty a (by simp) (taken.2.resolve_left (by omega)) fun b mem => ?_
      rcases List.mem_append.mp mem with old | new
      · exact all b old
      · rw [List.mem_singleton.mp new, zero]
    · refine .best a ?_
      by_cases longer : best.1 < len a
      · exact .snoc_longer bound longer
      · have same : best.1 = len a := by omega
        exact .snoc_favoured (same ▸ bound) positive (taken.2.resolve_left longer)
  · rename_i kept
    have shorter : len a ≤ best.1 := by omega
    have plain : len a = best.1 → favoured a = false := fun same =>
      Bool.eq_false_iff.mpr fun fav => kept ⟨same.ge, Or.inr fav⟩
    cases h with
    | nothing none =>
      have zero : len a = 0 := by omega
      refine .nothing fun b mem => ?_
      rcases List.mem_append.mp mem with old | new
      · exact none b old
      · rw [List.mem_singleton.mp new]
        exact ⟨zero, plain zero⟩
    | empty b mem fav zero =>
      refine .empty b (List.mem_append_left _ mem) fav fun c inside => ?_
      rcases List.mem_append.mp inside with old | new
      · exact zero c old
      · rw [List.mem_singleton.mp new]
        omega
    | best b preferred => exact .best b (preferred.snoc_kept shorter plain)

theorem chosen_foldl {l' : List α} {best : Nat × Option α} (h : Chosen len favoured l best) :
    Chosen len favoured (l ++ l') (l'.foldl (Lib.choose len favoured) best) := by
  induction l' generalizing l best with
  | nil => simpa using h
  | cons a l' ih => simpa using ih (h.choose a)

theorem chosen_of_foldl (len : α → Nat) (favoured : α → Bool) (l : List α) :
    Chosen len favoured l (l.foldl (Lib.choose len favoured) (0, none)) :=
  chosen_foldl (l := []) (.nothing (by simp))

theorem find_first {before : List α} (after : List α) {a : α} (less : ∀ b ∈ before, len b < len a) {m : Nat}
    (same : len a = m) :
    (before ++ a :: after).find? (fun b => decide (m ≤ len b)) = some a := by
  subst same
  refine List.find?_eq_some_iff_append.mpr ⟨by simp, before, after, rfl, fun b mem => ?_⟩
  simpa using less b mem

theorem Preferred.unique {a b : α} (ha : Preferred len favoured l a)
    (hb : Preferred len favoured l b) (plain : favoured b = false) : a = b := by
  have same := ha.unique_len hb
  obtain ⟨before, after, rfl, less⟩ := hb.first plain
  obtain ⟨before', after', split, less'⟩ := ha.first (hb.favourite plain a ha.mem same)
  have mine := find_first after less same.symm
  rw [split, find_first _ less' rfl] at mine
  exact Option.some.inj mine

theorem Preferred.of_filter {p : α → Bool} {a b : α} (h : Preferred len favoured (l.filter p) a)
    (all : Preferred len favoured l b) (tried : p b = true) : Preferred len favoured l a := by
  have inside : b ∈ l.filter p := List.mem_filter.mpr ⟨all.mem, tried⟩
  have same : len a = len b :=
    Nat.le_antisymm (all.longest a (List.mem_filter.mp h.mem).1) (h.longest b inside)
  refine ⟨(List.mem_filter.mp h.mem).1, h.positive, fun c mem => same ▸ all.longest c mem, ?_, ?_⟩
  · intro plain c mem length
    exact all.favourite (h.favourite plain b inside same.symm) c mem (length.trans same)
  · intro plain
    obtain ⟨before, after, split, less⟩ := h.first plain
    obtain ⟨before', after', rfl, less'⟩ := all.first (h.favourite plain b inside same.symm)
    -- both are the first one of their length among those that are tried
    have mine := find_first after less same
    rw [← split, List.filter_append, List.filter_cons_of_pos tried, find_first _ (fun c mem =>
      less' c (List.mem_filter.mp mem).1) rfl] at mine
    exact ⟨before', after', by rw [Option.some.inj mine], fun c mem => same ▸ less' c mem⟩

theorem Preferred.mem_left {l' : List α} {a b : α} (h : Preferred len favoured (l ++ l') a)
    (plain : favoured a = false) (mem : b ∈ l) (same : len b = len a) : a ∈ l := by
  obtain ⟨before, after, split, less⟩ := h.first plain
  rcases List.append_eq_append_iff.mp split with ⟨rest, rfl, -⟩ | ⟨rest, rfl, tail⟩
  · have := less b (List.mem_append_left rest mem)
    omega
  · cases rest with
    | nil =>
      have := less b (by simpa using mem)
      omega
    | cons c rest =>
      obtain ⟨rfl, -⟩ := List.cons.inj tail
      simp

end

end Mewa.Lib
