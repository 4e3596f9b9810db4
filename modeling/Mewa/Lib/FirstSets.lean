/- Module: Mewa/Lib/FirstSets
   digest: What the nonterminals of a grammar derive at the front, by induction over its rules. -/

import Mathlib.Computability.ContextFreeGrammar

set_option autoImplicit false
set_option relaxedAutoImplicit false

namespace Mewa.Lib.FirstSets

variable {T N : Type} {rules : Set (ContextFreeRule T N)}

section Definitions

variable (rules)

def Produces (u v : List (Symbol T N)) : Prop := ∃ r ∈ rules, r.Rewrites u v

abbrev Derives : List (Symbol T N) → List (Symbol T N) → Prop :=
  Relation.ReflTransGen (Produces rules)

/-- A symbol from which the empty string is derived by the rules. -/
inductive Erasable : Symbol T N → Prop
  | rule {r : ContextFreeRule T N} : r ∈ rules → (∀ s ∈ r.output, Erasable s) →
      Erasable (.nonterminal r.input)

inductive Front : Symbol T N → Symbol T N → Prop
  | refl (s : Symbol T N) : Front s s
  | rule {r : ContextFreeRule T N} {before after : List (Symbol T N)} {s e : Symbol T N} :
      r ∈ rules → r.output = before ++ s :: after → (∀ d ∈ before, Erasable rules d) →
      Front s e → Front (.nonterminal r.input) e

/-- The same for a string of symbols. -/
def FrontOf (u : List (Symbol T N)) (e : Symbol T N) : Prop :=
  ∃ before s after, u = before ++ s :: after ∧ (∀ d ∈ before, Erasable rules d) ∧ Front rules s e

end Definitions

section Derivations

variable {u v u' v' : List (Symbol T N)} {s e : Symbol T N} {t : T}

theorem Derives.append (first : Derives rules u v) (second : Derives rules u' v') :
    Derives rules (u ++ u') (v ++ v') := by
  have left : Derives rules (u ++ u') (v ++ u') := by
    induction first with
    | refl => exact .refl
    | tail _ last ih =>
      obtain ⟨r, mem, rewrites⟩ := last
      exact ih.tail ⟨r, mem, rewrites.append_right u'⟩
  refine left.trans ?_
  clear left first
  induction second with
  | refl => exact .refl
  | tail _ last ih =>
    obtain ⟨r, mem, rewrites⟩ := last
    exact ih.tail ⟨r, mem, rewrites.append_left v⟩

theorem derives_rule {r : ContextFreeRule T N} (mem : r ∈ rules) :
    Derives rules [.nonterminal r.input] r.output :=
  .single ⟨r, mem, ContextFreeRule.Rewrites.input_output⟩

theorem derives_nil_of_symbols (each : ∀ s ∈ u, Derives rules [s] []) : Derives rules u [] := by
  induction u with
  | nil => exact .refl
  | cons s u ih =>
    have first := each s List.mem_cons_self
    have rest := ih fun e mem => each e (List.mem_cons_of_mem _ mem)
    exact first.append rest

theorem Erasable.derives (erasable : Erasable rules s) : Derives rules [s] [] := by
  induction erasable with
  | rule mem _ ih => exact (derives_rule mem).trans (derives_nil_of_symbols ih)

theorem erasable_of_derives (derives : Derives rules u []) : ∀ s ∈ u, Erasable rules s := by
  induction derives using Relation.ReflTransGen.head_induction_on with
  | refl => simp
  | head first _ ih =>
    obtain ⟨r, mem, rewrites⟩ := first
    obtain ⟨before, after, rfl, rfl⟩ := rewrites.exists_parts
    intro s mem_s
    simp only [List.mem_append, List.mem_singleton] at mem_s
    rcases mem_s with (old | rfl) | old
    · exact ih s (by simp [old])
    · exact .rule mem fun e mem_e => ih e (by simp [mem_e])
    · exact ih s (by simp [old])

theorem derives_nil_iff : Derives rules u [] ↔ ∀ s ∈ u, Erasable rules s :=
  ⟨erasable_of_derives, fun each => derives_nil_of_symbols fun s mem => (each s mem).derives⟩

theorem not_erasable_terminal : ¬ Erasable rules (.terminal t) := by
  intro erasable
  cases erasable

theorem front_terminal (front : Front rules (.terminal t) e) : e = .terminal t := by
  cases front
  rfl

theorem FrontOf.of_front (front : Front rules s e) : FrontOf rules [s] e :=
  ⟨[], s, [], rfl, by simp, front⟩

theorem not_frontOf_nil : ¬ FrontOf rules [] e := by
  rintro ⟨before, s, after, same, -⟩
  simp at same

theorem frontOf_cons : FrontOf rules (s :: u) e ↔
    Front rules s e ∨ Erasable rules s ∧ FrontOf rules u e := by
  constructor
  · rintro ⟨before, s', after, same, erased, front⟩
    cases before with
    | nil =>
      obtain ⟨rfl, -⟩ := List.cons.inj same
      exact Or.inl front
    | cons d before =>
      obtain ⟨rfl, rest⟩ := List.cons.inj same
      exact Or.inr ⟨erased s List.mem_cons_self, before, s', after, rest,
        fun d mem => erased d (List.mem_cons_of_mem _ mem), front⟩
  · rintro (front | ⟨erasable, before, s', after, rfl, erased, front⟩)
    · exact ⟨[], s, u, rfl, by simp, front⟩
    · refine ⟨s :: before, s', after, rfl, ?_, front⟩
      intro d mem
      rcases List.mem_cons.mp mem with rfl | mem
      · exact erasable
      · exact erased d mem

theorem frontOf_singleton : FrontOf rules [s] e ↔ Front rules s e := by
  rw [frontOf_cons]
  simp [not_frontOf_nil]

theorem frontOf_append : FrontOf rules (u ++ v) e ↔
    FrontOf rules u e ∨ (∀ s ∈ u, Erasable rules s) ∧ FrontOf rules v e := by
  induction u with
  | nil => simp [not_frontOf_nil]
  | cons s u ih =>
    rw [List.cons_append, frontOf_cons, frontOf_cons, ih, List.forall_mem_cons]
    tauto

/-- A terminal in front of a nonterminal is in a rule. -/
theorem Front.terminal_mem (front : Front rules s (.terminal t)) (other : s ≠ .terminal t) :
    ∃ r ∈ rules, .terminal t ∈ r.output := by
  generalize same : Symbol.terminal t = e at front
  induction front with
  | refl s => exact absurd same.symm other
  | @rule r before after s e mem output erased front ih =>
    by_cases here : s = .terminal t
    · exact ⟨r, mem, by simp [output, here, ← same]⟩
    · exact ih here same

theorem Front.derives (front : Front rules s e) : ∃ v, Derives rules [s] (e :: v) := by
  induction front with
  | refl s => exact ⟨[], .refl⟩
  | @rule r before after s e mem output erased _ ih =>
    obtain ⟨v, derives⟩ := ih
    refine ⟨v ++ after, (derives_rule mem).trans ?_⟩
    rw [output]
    have front_part : Derives rules before [] := derives_nil_iff.mpr erased
    exact front_part.append (derives.append (.refl : Derives rules after after))

theorem frontOf_of_derives (derives : Derives rules u (e :: v)) : FrontOf rules u e := by
  induction derives using Relation.ReflTransGen.head_induction_on with
  | refl => exact frontOf_cons.mpr (Or.inl (.refl e))
  | head first _ ih =>
    obtain ⟨r, mem, rewrites⟩ := first
    obtain ⟨before, after, rfl, rfl⟩ := rewrites.exists_parts
    rw [frontOf_append, frontOf_append] at ih ⊢
    rcases ih with (front | ⟨erased, front⟩) | ⟨erased, front⟩
    · exact Or.inl (Or.inl front)
    · obtain ⟨before', s, after', output, erased', front'⟩ := front
      refine Or.inl (Or.inr ⟨erased, ?_⟩)
      exact .of_front (.rule mem output erased' front')
    · refine Or.inr ⟨?_, front⟩
      intro s mem_s
      rcases List.mem_append.mp mem_s with old | new
      · exact erased s (List.mem_append_left _ old)
      · rw [List.mem_singleton.mp new]
        exact .rule mem fun d mem_d => erased d (List.mem_append_right _ mem_d)

theorem derives_front_iff : (∃ v, Derives rules u (e :: v)) ↔ FrontOf rules u e := by
  constructor
  · rintro ⟨v, derives⟩
    exact frontOf_of_derives derives
  · rintro ⟨before, s, after, rfl, erased, front⟩
    obtain ⟨v, derives⟩ := front.derives
    have front_part : Derives rules before [] := derives_nil_iff.mpr erased
    exact ⟨v ++ after, front_part.append (derives.append (.refl : Derives rules after after))⟩

theorem Front.erasable (front : Front rules s e) (erasable : Erasable rules e)
    (none : ∀ r ∈ rules, ∀ d ∈ r.output, ¬ Erasable rules d) : Erasable rules s := by
  induction front with
  | refl s => exact erasable
  | @rule r before after s e mem output _ _ ih =>
    exact absurd (ih erasable) (none r mem s (by simp [output]))

end Derivations

end Mewa.Lib.FirstSets
