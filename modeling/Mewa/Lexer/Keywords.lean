/- Module: Mewa/Lexer/Keywords
   digest: Every terminal of a lexer is positive and has an entry in the table of keywords. -/

import Mewa.Lexer.Definitions

set_option autoImplicit false
set_option relaxedAutoImplicit false

namespace Mewa.Lexer

open Mewa.Lib

/-- The numbers of the names are positive and have an entry in the table of keywords. -/
def Numbered (lexer : Lexer) : Prop :=
  ∀ name id, lexer.nameidmap.find name = some id → 0 < id ∧ id < lexer.id2keyword.length

theorem numbered_empty : Numbered {} := by
  intro name id h
  simp at h

theorem Numbered.lexemId {lexer : Lexer} (h : lexer.Numbered) {name : String}
    (known : lexer.lexemId name ≠ 0) :
    ∃ keyword, lexer.isKeyword (lexer.lexemId name) = .ok keyword := by
  unfold Lexer.lexemId at known ⊢
  cases found : lexer.nameidmap.find name with
  | none => simp [found] at known
  | some id =>
    have bound := (h name id found).2
    refine ⟨lexer.id2keyword[id], ?_⟩
    simp [isKeyword, List.getElem?_eq_getElem bound]

theorem lt_length_padKeywords (id2keyword : List Bool) (id : Nat) :
    id < (padKeywords id2keyword id).length ∧
      id2keyword.length ≤ (padKeywords id2keyword id).length := by
  simp only [padKeywords, List.length_append, List.length_replicate]
  omega

theorem pushDefinition_numbers {engine : PatternEngine} {line : Int} {name pattern : String}
    {id : Nat} {keyword : Bool} {select : Nat} {lexer lexer' : Lexer}
    (h : lexer.pushDefinition engine line name pattern id keyword select = .ok lexer') :
    lexer'.nameidmap = lexer.nameidmap ∧ lexer'.id2keyword = lexer.id2keyword := by
  unfold pushDefinition at h
  split at h
  · obtain ⟨activate, _, h⟩ := bind_eq_ok.mp h
    dsimp only at h
    split at h
    · obtain rfl := Except.ok.inj h
      exact ⟨rfl, rfl⟩
    · split at h
      · simp at h
      · obtain rfl := Except.ok.inj h
        exact ⟨rfl, rfl⟩
  · simp at h

theorem Numbered.grow {lexer lexer' : Lexer} (h : lexer.Numbered)
    (table : lexer.id2keyword.length ≤ lexer'.id2keyword.length)
    (names : ∀ name id, lexer'.nameidmap.find name = some id →
      lexer.nameidmap.find name = some id ∨ 0 < id ∧ id < lexer'.id2keyword.length) :
    lexer'.Numbered := by
  intro name id found
  rcases names name id found with old | new
  · have := h name id old
    omega
  · exact new

theorem Numbered.defineLexem_ {engine : PatternEngine} {line : Int} {name pattern : String}
    {keyword : Bool} {select id : Nat} {lexer lexer' : Lexer} (numbered : lexer.Numbered)
    (h : lexer.defineLexem_ engine line name pattern keyword select = .ok (lexer', id)) :
    lexer'.Numbered := by
  unfold Lexer.defineLexem_ at h
  split at h
  · obtain ⟨pushed, hp, h⟩ := bind_eq_ok.mp h
    obtain ⟨rfl, rfl⟩ := Prod.mk.inj (Except.ok.inj h)
    obtain ⟨names, table⟩ := pushDefinition_numbers hp
    exact numbered.grow (by rw [table]) fun n i found => Or.inl (names ▸ found)
  · obtain ⟨bound, longer⟩ := lt_length_padKeywords lexer.id2keyword
      (lexer.nameidmap.entries.length + 1)
    cases known : lexer.nameidmap.find name with
    | none =>
      simp only [SortedMap.insertNew_of_none known] at h
      obtain ⟨pushed, hp, h⟩ := bind_eq_ok.mp h
      obtain ⟨rfl, rfl⟩ := Prod.mk.inj (Except.ok.inj h)
      obtain ⟨names, table⟩ := pushDefinition_numbers hp
      have length_eq : pushed.id2keyword.length =
          (padKeywords lexer.id2keyword (lexer.nameidmap.entries.length + 1)).length := by
        rw [table]
        cases keyword <;> simp
      refine numbered.grow (by omega) fun n i found => ?_
      rw [names, SortedMap.find_set] at found
      split at found
      · obtain rfl := Option.some.inj found
        exact Or.inr ⟨by omega, by omega⟩
      · exact Or.inl found
    | some old =>
      simp only [SortedMap.insertNew_of_some known] at h
      split at h
      · simp at h
      · obtain ⟨pushed, hp, h⟩ := bind_eq_ok.mp h
        obtain ⟨rfl, rfl⟩ := Prod.mk.inj (Except.ok.inj h)
        obtain ⟨names, table⟩ := pushDefinition_numbers hp
        exact numbered.grow (by rw [table]; exact longer) fun n i found => Or.inl (names ▸ found)

theorem Numbered.defineLexemId {name : String} {lexer lexer' : Lexer} {id : Nat}
    (numbered : lexer.Numbered) (h : lexer.defineLexemId name = .ok (lexer', id)) :
    lexer'.Numbered := by
  unfold Lexer.defineLexemId at h
  obtain ⟨bound, longer⟩ := lt_length_padKeywords lexer.id2keyword
    (lexer.nameidmap.entries.length + 1)
  cases known : lexer.nameidmap.find name with
  | none =>
    simp only [SortedMap.insertNew_of_none known] at h
    obtain ⟨rfl, rfl⟩ := Prod.mk.inj (Except.ok.inj h)
    refine numbered.grow longer fun n i found => ?_
    rw [SortedMap.find_set] at found
    split at found
    · obtain rfl := Option.some.inj found
      exact Or.inr ⟨by omega, bound⟩
    · exact Or.inl found
  | some old => simp [SortedMap.insertNew_of_some known] at h

theorem Numbered.defineLexem {engine : PatternEngine} {line : Int} {name pattern : String}
    {select : Nat} {lexer lexer' : Lexer} (numbered : lexer.Numbered)
    (h : lexer.defineLexem engine line name pattern select = .ok lexer') : lexer'.Numbered := by
  obtain ⟨⟨defined, id⟩, hd, h⟩ := bind_eq_ok.mp h
  obtain rfl := Except.ok.inj h
  exact numbered.defineLexem_ hd

theorem Numbered.defineKeyword {engine : PatternEngine} {opr tail : String}
    {lexer lexer' : Lexer} (numbered : lexer.Numbered)
    (h : lexer.defineKeyword engine opr tail = .ok lexer') : lexer'.Numbered := by
  obtain ⟨⟨defined, id⟩, hd, h⟩ := bind_eq_ok.mp h
  obtain rfl := Except.ok.inj h
  exact numbered.defineLexem_ hd

theorem Numbered.defineIgnore {engine : PatternEngine} {line : Int} {pattern : String}
    {lexer lexer' : Lexer} (numbered : lexer.Numbered)
    (h : lexer.defineIgnore engine line pattern = .ok lexer') : lexer'.Numbered := by
  obtain ⟨⟨defined, id⟩, hd, h⟩ := bind_eq_ok.mp h
  obtain rfl := Except.ok.inj h
  exact numbered.defineLexem_ hd

theorem Numbered.defineIndentLexems {line : Int} {opening closing newline : String}
    {tabsize : Int} {lexer lexer' : Lexer} (numbered : lexer.Numbered)
    (h : lexer.defineIndentLexems line opening closing newline tabsize = .ok lexer') :
    lexer'.Numbered := by
  unfold Lexer.defineIndentLexems at h
  split at h
  · simp at h
  · obtain ⟨⟨opened, openid⟩, ho, h⟩ := bind_eq_ok.mp h
    obtain ⟨⟨closed, closeid⟩, hc, h⟩ := bind_eq_ok.mp h
    obtain ⟨⟨lined, newlineid⟩, hn, h⟩ := bind_eq_ok.mp h
    have last : lined.Numbered := ((numbered.defineLexemId ho).defineLexemId hc).defineLexemId hn
    obtain rfl := Except.ok.inj h
    exact last

theorem Numbered.defineEolnComment {line : Int} {opr : String} {lexer lexer' : Lexer}
    (numbered : lexer.Numbered) (h : lexer.defineEolnComment line opr = .ok lexer') :
    lexer'.Numbered := by
  unfold Lexer.defineEolnComment at h
  split at h
  · simp at h
  · obtain rfl := Except.ok.inj h
    exact numbered

theorem Numbered.defineBracketComment {line : Int} {start stop : String} {lexer lexer' : Lexer}
    (numbered : lexer.Numbered) (h : lexer.defineBracketComment line start stop = .ok lexer') :
    lexer'.Numbered := by
  unfold Lexer.defineBracketComment at h
  split at h
  · simp at h
  · obtain rfl := Except.ok.inj h
    exact numbered

end Mewa.Lexer
