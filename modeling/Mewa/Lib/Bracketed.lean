/- Module: Mewa/Lib/Bracketed
   digest: Texts whose bracketed contents are replaced from the left to the right. -/

import Mathlib.Data.List.Basic

set_option autoImplicit false
set_option relaxedAutoImplicit false

namespace Mewa.Lib.Bracketed

section Rewriting

variable {α : Type} {sb eb : α} {repl repl' : List α → Option (List α)}

/-- The element starts no bracketed content that has a replacement. -/
def Untouched (sb eb : α) (repl : List α → Option (List α)) (c : α) (rest : List α) : Prop :=
  c = sb → ∀ content after, rest = content ++ eb :: after → eb ∉ content → repl content = none

/-- Contents with a replacement are replaced with their brackets, the rest is copied. What
    stands for a content is not read again. -/
inductive Rewrites (sb eb : α) (repl : List α → Option (List α)) : List α → List α → Prop
  | nil : Rewrites sb eb repl [] []
  | replace {content value after out : List α} : eb ∉ content → repl content = some value →
      Rewrites sb eb repl after out →
      Rewrites sb eb repl (sb :: (content ++ eb :: after)) (value ++ out)
  | copy {c : α} {rest out : List α} : Untouched sb eb repl c rest →
      Rewrites sb eb repl rest out → Rewrites sb eb repl (c :: rest) (c :: out)

/-- Every bracketed content that a rewriting looks at has the property. -/
inductive EveryMet (sb eb : α) (repl : List α → Option (List α)) (P : List α → Prop) :
    List α → Prop
  | nil : EveryMet sb eb repl P []
  | replace {content value after : List α} : eb ∉ content → repl content = some value →
      P content → EveryMet sb eb repl P after →
      EveryMet sb eb repl P (sb :: (content ++ eb :: after))
  | copy {c : α} {rest : List α} : Untouched sb eb repl c rest →
      (c = sb → ∀ content after, rest = content ++ eb :: after → eb ∉ content → P content) →
      EveryMet sb eb repl P rest → EveryMet sb eb repl P (c :: rest)

theorem content_unique {content content' after after' : List α} (inside : eb ∉ content)
    (inside' : eb ∉ content') (same : content ++ eb :: after = content' ++ eb :: after') :
    content = content' ∧ after = after' := by
  induction content generalizing content' with
  | nil =>
    cases content' with
    | nil => exact ⟨rfl, (List.cons.inj same).2⟩
    | cons c content' =>
      obtain ⟨head, -⟩ := List.cons.inj same
      exact absurd (List.mem_cons.mpr (Or.inl head)) inside'
  | cons c content ih =>
    cases content' with
    | nil =>
      obtain ⟨head, -⟩ := List.cons.inj same
      exact absurd (List.mem_cons.mpr (Or.inl head.symm)) inside
    | cons c' content' =>
      obtain ⟨rfl, tail⟩ := List.cons.inj same
      obtain ⟨rfl, rest⟩ := ih (fun mem => inside (List.mem_cons_of_mem _ mem))
        (fun mem => inside' (List.mem_cons_of_mem _ mem)) tail
      exact ⟨rfl, rest⟩

theorem untouched_content {content after : List α} (inside : eb ∉ content)
    (kept : repl content = none) : Untouched sb eb repl sb (content ++ eb :: after) := by
  intro _ content' after' same inside'
  obtain ⟨rfl, -⟩ := content_unique inside inside' same
  exact kept

theorem untouched_open {c : α} {rest : List α} (unclosed : eb ∉ rest) :
    Untouched sb eb repl c rest := by
  rintro - content after rfl
  exact absurd (by simp) unclosed

theorem untouched_other {c : α} {rest : List α} (other : c ≠ sb) :
    Untouched sb eb repl c rest :=
  fun same => absurd same other

namespace Rewrites

theorem of_replace {content value after out : List α}
    (rewrites : Rewrites sb eb repl (sb :: (content ++ eb :: after)) out)
    (inside : eb ∉ content) (found : repl content = some value) :
    ∃ rest, out = value ++ rest ∧ Rewrites sb eb repl after rest := by
  generalize here : sb :: (content ++ eb :: after) = text at rewrites
  cases rewrites with
  | nil => cases here
  | replace inside' found' rewrites =>
    obtain ⟨-, tail⟩ := List.cons.inj here
    obtain ⟨rfl, rfl⟩ := content_unique inside inside' tail
    obtain rfl := Option.some.inj (found.symm.trans found')
    exact ⟨_, rfl, rewrites⟩
  | copy untouched _ =>
    obtain ⟨rfl, rfl⟩ := List.cons.inj here
    rw [untouched rfl content after rfl inside] at found
    cases found

theorem of_copy {c : α} {rest out : List α} (rewrites : Rewrites sb eb repl (c :: rest) out)
    (untouched : Untouched sb eb repl c rest) :
    ∃ out', out = c :: out' ∧ Rewrites sb eb repl rest out' := by
  generalize here : c :: rest = text at rewrites
  cases rewrites with
  | nil => cases here
  | replace inside found _ =>
    obtain ⟨rfl, rfl⟩ := List.cons.inj here
    rw [untouched rfl _ _ rfl inside] at found
    cases found
  | copy _ rewrites =>
    obtain ⟨rfl, rfl⟩ := List.cons.inj here
    exact ⟨_, rfl, rewrites⟩

theorem unique {text out out' : List α} (rewrites : Rewrites sb eb repl text out)
    (other : Rewrites sb eb repl text out') : out = out' := by
  induction rewrites generalizing out' with
  | nil =>
    cases other
    rfl
  | replace inside found _ ih =>
    obtain ⟨rest, rfl, tail⟩ := other.of_replace inside found
    rw [ih tail]
  | copy untouched _ ih =>
    obtain ⟨rest, rfl, tail⟩ := other.of_copy untouched
    rw [ih tail]

theorem skip {skipped rest out : List α} (plain : sb ∉ skipped)
    (rewrites : Rewrites sb eb repl rest out) :
    Rewrites sb eb repl (skipped ++ rest) (skipped ++ out) := by
  induction skipped with
  | nil => exact rewrites
  | cons c skipped ih =>
    have other : c ≠ sb := fun same => plain (same ▸ List.mem_cons_self)
    exact .copy (untouched_other other) (ih fun mem => plain (List.mem_cons_of_mem _ mem))

theorem unclosed {text : List α} (no_end : eb ∉ text) : Rewrites sb eb repl text text := by
  induction text with
  | nil => exact .nil
  | cons c text ih =>
    have tail : eb ∉ text := fun mem => no_end (List.mem_cons_of_mem _ mem)
    exact .copy (untouched_open tail) (ih tail)

end Rewrites

theorem EveryMet.mono {P Q : List α → Prop} {text : List α} (imp : ∀ content, P content → Q content)
    (every : EveryMet sb eb repl P text) : EveryMet sb eb repl Q text := by
  induction every with
  | nil => exact .nil
  | replace inside found holds _ ih => exact .replace inside found (imp _ holds) ih
  | copy untouched holds _ ih =>
    refine .copy untouched ?_ ih
    intro start content after here inside
    exact imp content (holds start content after here inside)

theorem EveryMet.rewrites {text out : List α}
    (agree : EveryMet sb eb repl (fun content => repl content = repl' content) text)
    (rewrites : Rewrites sb eb repl' text out) : Rewrites sb eb repl text out := by
  induction agree generalizing out with
  | nil =>
    cases rewrites
    exact .nil
  | replace inside found same _ ih =>
    obtain ⟨rest, rfl, tail⟩ := rewrites.of_replace inside (same ▸ found)
    exact .replace inside found (ih tail)
  | @copy c rest untouched same _ ih =>
    have untouched' : Untouched sb eb repl' c rest := by
      intro start content after here inside
      rw [← same start content after here inside]
      exact untouched start content after here inside
    obtain ⟨rest, rfl, tail⟩ := rewrites.of_copy untouched'
    exact .copy untouched (ih tail)

end Rewriting

end Mewa.Lib.Bracketed
