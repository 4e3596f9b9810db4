/- Module: Mewa/Lib/Nesting
   digest: The stack of the open levels after a sequence of levels, each of which closes the deeper
     ones. -/

import Mathlib

set_option autoImplicit false
set_option relaxedAutoImplicit false

namespace Mewa.Lib

universe u

variable {α : Type u} [LinearOrder α]

/-- A level closes the deeper ones and is opened unless it is the innermost one then. No open level
    is as good as the base. -/
def nest (base : α) (stk : List α) (level : α) : List α :=
  if (stk.dropWhile (level < ·)).headD base = level then stk.dropWhile (level < ·)
  else level :: stk.dropWhile (level < ·)

/-- The open levels, the innermost one first. -/
def nested (base : α) (levels : List α) : List α := levels.foldl (nest base) []

variable {base level back : α} {stk levels : List α}

theorem headD_nest : (nest base stk level).headD base = level := by
  unfold nest
  split
  · assumption
  · rfl

theorem nest_of_headD (top : stk.headD base = level) : nest base stk level = stk := by
  have kept : stk.dropWhile (level < ·) = stk := by
    cases stk with
    | nil => rfl
    | cons back stk =>
      have here : back = level := top
      exact List.dropWhile_cons_of_neg (by simp [here])
  rw [nest, kept, if_pos top]

theorem nest_of_less (less : level < back) :
    nest base (back :: stk) level = nest base stk level := by
  have dropped : (back :: stk).dropWhile (level < ·) = stk.dropWhile (level < ·) :=
    List.dropWhile_cons_of_pos (by simpa using less)
  rw [nest, dropped, nest]

theorem nest_of_above (ne : stk.headD base ≠ level) (above : ∀ back ∈ stk.head?, back < level) :
    nest base stk level = level :: stk := by
  have kept : stk.dropWhile (level < ·) = stk := by
    cases stk with
    | nil => rfl
    | cons back stk =>
      have here : back < level := above back rfl
      exact List.dropWhile_cons_of_neg (by simpa using here.le)
  rw [nest, kept, if_neg ne]

theorem mem_nest {n : α} (mem : n ∈ nest base stk level) : n = level ∨ n ∈ stk := by
  have sub := (List.dropWhile_suffix (l := stk) (level < ·)).subset
  unfold nest at mem
  split at mem
  · exact Or.inr (sub mem)
  · exact (List.mem_cons.mp mem).imp_right fun old => sub old

theorem nested_snoc : nested base (levels ++ [level]) = nest base (nested base levels) level := by
  rw [nested, List.foldl_append]
  rfl

theorem mem_nested {n : α} (mem : n ∈ nested base levels) : n ∈ levels := by
  induction levels using List.reverseRecOn with
  | nil => exact mem
  | append_singleton levels level ih =>
    rw [nested_snoc] at mem
    rcases mem_nest mem with rfl | old
    · exact List.mem_append_right _ List.mem_cons_self
    · exact List.mem_append_left _ (ih old)

theorem pairwise_nest (grows : stk.Pairwise (· > ·)) : (nest base stk level).Pairwise (· > ·) := by
  have low := grows.sublist (List.dropWhile_sublist (level < ·))
  unfold nest
  split
  · exact low
  · rename_i ne
    cases split : stk.dropWhile (level < ·) with
    | nil => exact List.pairwise_singleton _ _
    | cons back rest =>
      rw [split] at ne low
      have stays := List.head?_dropWhile_not (level < ·) stk
      rw [split] at stays
      have under : back < level := lt_of_le_of_ne (by simpa using stays) ne
      refine List.pairwise_cons.mpr ⟨fun n mem => ?_, low⟩
      rcases List.mem_cons.mp mem with rfl | mem
      · exact under
      · exact lt_trans ((List.pairwise_cons.mp low).1 n mem) under

theorem pairwise_nested : (nested base levels).Pairwise (· > ·) := by
  induction levels using List.reverseRecOn with
  | nil => exact List.Pairwise.nil
  | append_singleton levels level ih =>
    rw [nested_snoc]
    exact pairwise_nest ih

theorem base_lt_nested (low : ∀ level ∈ levels, base ≤ level) :
    ∀ n ∈ nested base levels, base < n := by
  induction levels using List.reverseRecOn with
  | nil => simp [nested]
  | append_singleton levels level ih =>
    have before := ih fun n mem => low n (List.mem_append_left _ mem)
    have here := low level (List.mem_append_right _ List.mem_cons_self)
    rw [nested_snoc]
    rcases here.eq_or_lt with rfl | above
    · -- the base closes everything
      have closed : (nested base levels).dropWhile (base < ·) = [] :=
        List.dropWhile_eq_nil_iff.mpr fun n mem => by simpa using before n mem
      simp [nest, closed]
    · intro n mem
      rcases mem_nest mem with rfl | old
      · exact above
      · exact before n old

/-- A level below the base is never closed but for one further below. -/
theorem lt_base_nest (below : (∃ n ∈ stk, n < base) ∨ level < base) :
    ∃ n ∈ nest base stk level, n < base := by
  rcases lt_or_ge level base with under | above
  · have top : (nest base stk level).headD base = level := headD_nest
    cases split : nest base stk level with
    | nil =>
      rw [split] at top
      exact absurd top under.ne'
    | cons n rest =>
      rw [split] at top
      exact ⟨n, List.mem_cons_self, lt_of_eq_of_lt top under⟩
  · obtain ⟨n, mem, less⟩ := below.resolve_right (not_lt.mpr above)
    have kept : n ∈ stk.dropWhile (level < ·) := by
      have whole : stk.takeWhile (level < ·) ++ stk.dropWhile (level < ·) = stk :=
        List.takeWhile_append_dropWhile
      rw [← whole] at mem
      refine (List.mem_append.mp mem).resolve_left fun taken => ?_
      have deeper := List.mem_takeWhile_imp taken
      exact absurd (less.trans_le above) (not_lt.mpr (by simpa using deeper : level < n).le)
    unfold nest
    split
    · exact ⟨n, kept, less⟩
    · exact ⟨n, List.mem_cons_of_mem _ kept, less⟩

theorem lt_base_nested (below : ∃ level ∈ levels, level < base) :
    ∃ n ∈ nested base levels, n < base := by
  induction levels using List.reverseRecOn with
  | nil => simp at below
  | append_singleton levels level ih =>
    rw [nested_snoc]
    obtain ⟨n, mem, less⟩ := below
    rcases List.mem_append.mp mem with old | last
    · exact lt_base_nest (Or.inl (ih ⟨n, old, less⟩))
    · exact lt_base_nest (Or.inr (List.mem_singleton.mp last ▸ less))

theorem headD_nested : (nested base levels).headD base = levels.getLast?.getD base := by
  induction levels using List.reverseRecOn with
  | nil => rfl
  | append_singleton levels level _ =>
    rw [nested_snoc, headD_nest, List.getLast?_concat]
    rfl

theorem nested_eq_nil_iff : nested base levels = [] ↔
    (∀ level ∈ levels, base ≤ level) ∧ levels.getLast?.getD base = base := by
  constructor
  · intro empty
    refine ⟨fun level mem => not_lt.mp fun under => ?_, ?_⟩
    · obtain ⟨n, open_, -⟩ := lt_base_nested ⟨level, mem, under⟩
      simp [empty] at open_
    · rw [← headD_nested, empty]
      rfl
  · rintro ⟨low, last⟩
    rw [← headD_nested] at last
    cases split : nested base levels with
    | nil => rfl
    | cons n rest =>
      rw [split] at last
      have above := base_lt_nested low n (by rw [split]; exact List.mem_cons_self)
      exact absurd last above.ne'

example : nested 0 [0, 4, 8, 2, 6] = [6, 2] := by decide

end Mewa.Lib
