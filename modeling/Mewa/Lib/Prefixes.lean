/- Module: Mewa/Lib/Prefixes
   digest: The prefixes of sentences, and why a word derived from a viable prefix is one of them. -/

import Mewa.Lib.Items
import Mewa.Lib.Lockstep

set_option autoImplicit false
set_option relaxedAutoImplicit false

namespace Mewa.Lib.Productions

variable {P T N : Type} (G : Productions P T N)

def Sentence (w : List T) : Prop := G.Derives [G.head G.start] (w.map .terminal)

def Begins (u : List T) : Prop := ∃ w, G.Sentence (u ++ w)

/-- Every symbol on a right side derives a word. -/
def Productive : Prop :=
  ∀ p, ∀ s ∈ (G.rule p).output, ∃ w : List T, G.Derives [s] (w.map .terminal)

variable {G} {γ : List (Symbol T N)} {p : P} {k : Nat} {u w : List T}

theorem mem_language [Fintype P] : w ∈ G.cfg.language ↔ G.Sentence w := by
  show G.cfg.Derives _ _ ↔ _
  rw [derives_cfg]
  rfl

/-- A sentence has a parse tree. -/
theorem Sentence.exists_parse (sentence : G.Sentence w) :
    ∃ f, G.IsParse f ∧ f.yield = w.map .terminal := by
  obtain ⟨f, valid, roots_eq, leaves⟩ := exists_forest sentence
  have derivation := valid.rightmost leaves
  rw [roots_eq] at derivation
  obtain ⟨f', -, -, parse, leaves', -⟩ := derivation.exists_parse
  exact ⟨f', parse, leaves'⟩

theorem Rightmost.sentence {ps : List P}
    (derivation : G.Rightmost [G.head G.start] ps (w.map .terminal)) : G.Sentence w :=
  derivation.derives

theorem Item.exists_form (item : G.Item γ p k) :
    ∃ rest, G.Derives [G.head G.start] (γ ++ (G.rule p).output.drop k ++ rest) ∧
      ∀ s ∈ rest, ∃ q, s ∈ (G.rule q).output := by
  induction item with
  | start => exact ⟨[], by simpa using derives_rule G.start, by simp⟩
  | @closure γ p q k _ next ih =>
    obtain ⟨rest, form, known⟩ := ih
    refine ⟨(G.rule p).output.drop (k + 1) ++ rest, ?_, ?_⟩
    · rw [drop_eq_cons next] at form
      have expand : G.Derives (γ ++ (G.head q :: (G.rule p).output.drop (k + 1)) ++ rest)
          (γ ++ (G.rule q).output.drop 0 ++ ((G.rule p).output.drop (k + 1) ++ rest)) := by
        have inner := ((derives_rule (G := G) q).append_right
          ((G.rule p).output.drop (k + 1) ++ rest)).append_left γ
        simpa using inner
      exact form.trans expand
    · intro s mem
      rcases List.mem_append.mp mem with here | later
      · exact ⟨p, List.mem_of_mem_drop here⟩
      · exact known s later
  | @goto γ p k s _ next ih =>
    obtain ⟨rest, form, known⟩ := ih
    refine ⟨rest, ?_, known⟩
    rw [drop_eq_cons next] at form
    simpa using form

theorem Productive.exists_word (productive : G.Productive) {v : List (Symbol T N)}
    (known : ∀ s ∈ v, ∃ q, s ∈ (G.rule q).output) :
    ∃ w : List T, G.Derives v (w.map .terminal) := by
  induction v with
  | nil => exact ⟨[], .refl⟩
  | cons s v ih =>
    obtain ⟨⟨q, mem⟩, later⟩ := List.forall_mem_cons.mp known
    obtain ⟨x, first⟩ := productive q s mem
    obtain ⟨y, rest⟩ := ih later
    refine ⟨x ++ y, ?_⟩
    rw [List.map_append]
    exact first.append rest

theorem Item.begins (productive : G.Productive) (item : G.Item γ p k)
    (derives : G.Derives γ (u.map .terminal)) : G.Begins u := by
  obtain ⟨rest, form, known⟩ := item.exists_form
  have known : ∀ s ∈ (G.rule p).output.drop k ++ rest, ∃ q, s ∈ (G.rule q).output := by
    intro s mem
    rcases List.mem_append.mp mem with here | later
    · exact ⟨p, List.mem_of_mem_drop here⟩
    · exact known s later
  obtain ⟨w, words⟩ := productive.exists_word known
  refine ⟨w, ?_⟩
  show G.Derives _ _
  rw [List.map_append]
  rw [List.append_assoc] at form
  exact form.trans (derives.append words)

end Mewa.Lib.Productions
