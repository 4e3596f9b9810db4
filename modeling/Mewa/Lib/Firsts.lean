/- Module: Mewa/Lib/Firsts
   digest: The first element of each key of a list, in the order of the list. -/

import Mathlib.Data.List.Basic
import Mathlib.Data.List.Induction

set_option autoImplicit false
set_option relaxedAutoImplicit false

namespace Mewa.Lib

universe u v

variable {α : Type u} {β : Type v} [DecidableEq β] (key : α → β)

def appendFirst (l : List α) (a : α) : List α :=
  if ∀ b ∈ l, key b ≠ key a then l ++ [a] else l

/-- The elements with a key that none of the elements before has. -/
def firsts (l : List α) : List α := l.foldl (appendFirst key) []

variable {key} {l : List α} {a : α}

theorem firsts_snoc (l : List α) (a : α) :
    firsts key (l ++ [a]) = appendFirst key (firsts key l) a := by
  simp [firsts]

theorem firsts_map {γ : Type u} (f : γ → α) (l : List γ) :
    firsts key (l.map f) = (firsts (fun c => key (f c)) l).map f := by
  induction l using List.reverseRecOn with
  | nil => rfl
  | append_singleton l c ih =>
    rw [List.map_append, List.map_singleton, firsts_snoc, firsts_snoc, ih, appendFirst, appendFirst]
    have same : (∀ b ∈ (firsts (fun c => key (f c)) l).map f, key b ≠ key (f c)) ↔
        ∀ b ∈ firsts (fun c => key (f c)) l, key (f b) ≠ key (f c) := by simp
    by_cases fresh : ∀ b ∈ firsts (fun c => key (f c)) l, key (f b) ≠ key (f c)
    · rw [if_pos (same.mpr fresh), if_pos fresh, List.map_append, List.map_singleton]
    · rw [if_neg fun h => fresh (same.mp h), if_neg fresh]

theorem firsts_sublist (l : List α) : (firsts key l).Sublist l := by
  induction l using List.reverseRecOn with
  | nil => simp [firsts]
  | append_singleton l a ih =>
    rw [firsts_snoc, appendFirst]
    split
    · exact ih.append (List.Sublist.refl [a])
    · exact ih.trans (List.sublist_append_left l [a])

theorem key_mem_firsts {k : β} : k ∈ (firsts key l).map key ↔ k ∈ l.map key := by
  induction l using List.reverseRecOn with
  | nil => simp [firsts]
  | append_singleton l a ih =>
    rw [firsts_snoc, appendFirst, List.map_append, List.mem_append, ← ih]
    split
    · rw [List.map_append, List.mem_append]
    · rename_i known
      constructor
      · exact Or.inl
      · rintro (old | new)
        · exact old
        · rw [List.map_singleton, List.mem_singleton] at new
          subst new
          by_contra unknown
          exact known fun b mem same => unknown (List.mem_map.mpr ⟨b, mem, same⟩)

theorem firsts_nodup (l : List α) : ((firsts key l).map key).Nodup := by
  induction l using List.reverseRecOn with
  | nil => simp [firsts]
  | append_singleton l a ih =>
    rw [firsts_snoc, appendFirst]
    split
    · rename_i fresh
      rw [List.map_append]
      refine List.nodup_append.mpr ⟨ih, by simp, fun x old y new same => ?_⟩
      obtain ⟨b, mem, rfl⟩ := List.mem_map.mp old
      rw [List.map_singleton, List.mem_singleton] at new
      exact fresh b mem (same.trans new)
    · exact ih

theorem mem_firsts_iff {r : α → α → Prop} (sorted : l.Pairwise r)
    (asymm : ∀ a b, r a b → ¬ r b a) :
    a ∈ firsts key l ↔ a ∈ l ∧ ∀ b ∈ l, key b = key a → b = a ∨ r a b := by
  have least : ∀ {x y : α}, x ∈ firsts key l → y ∈ l → key y = key x → y = x ∨ r x y := by
    induction l using List.reverseRecOn with
    | nil => simp
    | append_singleton l c ih =>
      obtain ⟨sorted, -, above⟩ := List.pairwise_append.mp sorted
      intro x y first mem same
      rw [firsts_snoc, appendFirst] at first
      split at first
      · rename_i fresh
        rcases List.mem_append.mp first with old | new
        · rcases List.mem_append.mp mem with earlier | last
          · exact ih sorted old earlier same
          · rw [List.mem_singleton.mp last] at same
            exact absurd same.symm (fresh x old)
        · obtain rfl := List.mem_singleton.mp new
          rcases List.mem_append.mp mem with earlier | last
          · have key_mem : key y ∈ (firsts key l).map key :=
              key_mem_firsts.mpr (List.mem_map.mpr ⟨y, earlier, rfl⟩)
            obtain ⟨z, mem', same'⟩ := List.mem_map.mp key_mem
            exact absurd (same'.trans same) (fresh z mem')
          · exact Or.inl (List.mem_singleton.mp last)
      · rcases List.mem_append.mp mem with earlier | last
        · exact ih sorted first earlier same
        · right
          rw [List.mem_singleton.mp last]
          exact above x ((firsts_sublist l).subset first) c (by simp)
  constructor
  · exact fun first => ⟨(firsts_sublist l).subset first, fun b mem same => least first mem same⟩
  · rintro ⟨mem, minimal⟩
    have key_mem : key a ∈ (firsts key l).map key :=
      key_mem_firsts.mpr (List.mem_map.mpr ⟨a, mem, rfl⟩)
    obtain ⟨b, first, same⟩ := List.mem_map.mp key_mem
    rcases minimal b ((firsts_sublist l).subset first) same with rfl | before
    · exact first
    · rcases least first mem same.symm with rfl | after
      · exact first
      · exact absurd after (asymm a b before)

end Mewa.Lib
