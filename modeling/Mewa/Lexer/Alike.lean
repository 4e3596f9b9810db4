/- Module: Mewa/Lexer/Alike
   digest: Lexers with the same patterns, comments and names return the same lexems. -/

import Mewa.Lexer.Calls
import Mathlib.Data.List.Forall2

set_option autoImplicit false
set_option relaxedAutoImplicit false

namespace Mewa

open Mewa.Lib

/-- Two definitions of a pattern differ at most in their lines. -/
structure LexemDef.Same (d d' : LexemDef) : Prop where
  name : d'.name = d.name
  id : d'.id = d.id
  source : d'.source = d.source
  select : d'.select = d.select
  keyword : d'.keyword = d.keyword
  tries : ∀ start, d'.tries start = d.tries start

namespace Lexer

/-- Two lexers with the same patterns that begin the same comments and name the same tokens of the
    indentation. -/
structure Alike (lexer lexer' : Lexer) : Prop where
  defar : List.Forall₂ LexemDef.Same lexer.defar lexer'.defar
  comments : ∀ text, lexer'.commentAt text = lexer.commentAt text
  error : lexer'.errorLexem.value = lexer.errorLexem.value
  defined : lexer'.indentLexems.defined = lexer.indentLexems.defined
  indent : lexer.indentLexems.defined = true →
    lexer'.indentLexems.tabSize = lexer.indentLexems.tabSize ∧
    ∀ token, lexer'.indentId token = lexer.indentId token
  names : lexer.indentLexems.defined = true → ∀ token ≠ .IndentNone,
    lexer'.namelist[lexer.indentId token - 1]? = lexer.namelist[lexer.indentId token - 1]?

variable {engine : PatternSearch} {lexer lexer' : Lexer} {s : Scanner}

theorem matchAt_same {d d' : LexemDef} (same : d.Same d') (text : List Char) :
    d'.matchAt engine text = d.matchAt engine text := by
  unfold LexemDef.matchAt
  rw [same.source, same.select]

theorem Alike.tried (alike : Alike lexer lexer') (text : List Char) :
    List.Forall₂ LexemDef.Same (lexer.triedAt text) (lexer'.triedAt text) := by
  apply List.rel_filter _ alike.defar
  intro d d' same
  change (d.tries _ = true) ↔ (d'.tries _ = true)
  rw [same.tries]

/-- Two states of the search for the longest match. -/
def SameBest (best best' : Nat × Option LexemDef) : Prop :=
  best'.1 = best.1 ∧ Option.Rel LexemDef.Same best.2 best'.2

theorem choose_same (text : List Char) {best best' : Nat × Option LexemDef}
    (same : SameBest best best') {d d' : LexemDef} (same_def : d.Same d') :
    SameBest (choose (matchLength engine text) LexemDef.keyword best d)
      (choose (matchLength engine text) LexemDef.keyword best' d') := by
  have length : matchLength engine text d' = matchLength engine text d := by
    rw [matchLength, matchAt_same same_def]
    rfl
  unfold choose
  rw [same.1, length, same_def.keyword]
  split
  · exact ⟨rfl, .some same_def⟩
  · exact same

theorem Alike.chosen (alike : Alike lexer lexer') (engine : PatternSearch) (text : List Char) :
    SameBest
      ((lexer.triedAt text).foldl (choose (matchLength engine text) LexemDef.keyword) (0, none))
      ((lexer'.triedAt text).foldl (choose (matchLength engine text) LexemDef.keyword)
        (0, none)) := by
  apply List.rel_foldl (R := LexemDef.Same) _ ⟨rfl, .none⟩ (alike.tried text)
  intro best best' same d d' same_def
  exact choose_same text same same_def

theorem Alike.indentLexem (alike : Alike lexer lexer')
    (defined : lexer.indentLexems.defined = true) {token : IndentToken}
    (some_token : token ≠ .IndentNone) (line : Int) :
    lexer'.indentLexem (lexer'.indentId token) line =
      lexer.indentLexem (lexer.indentId token) line := by
  unfold Lexer.indentLexem
  rw [(alike.indent defined).2, alike.names defined token some_token]

theorem Alike.indentAt (alike : Alike lexer lexer') (s : Scanner) :
    lexer'.indentAt s = lexer.indentAt s := by
  unfold Lexer.indentAt
  rw [alike.defined]
  cases defined : lexer.indentLexems.defined with
  | false => rfl
  | true => rw [(alike.indent defined).1]

theorem Alike.commentTurn (alike : Alike lexer lexer') (s : Scanner) (c : Comment) :
    lexer'.commentTurn s c = lexer.commentTurn s c := by
  unfold Lexer.commentTurn
  cases c with
  | eoln d => rfl
  | bracket d => rw [Comment.unclosed, Comment.unclosed, alike.error]

theorem indentAt_undefined {token : IndentToken} {s' : Scanner}
    (undefined : lexer.indentLexems.defined = false) (read : lexer.indentAt s = (token, s')) :
    token = .IndentNone := by
  rw [Lexer.indentAt, undefined] at read
  exact (Prod.mk.inj read).1.symm

theorem Alike.turnAt (alike : Alike lexer lexer') (indexed : Indexed lexer)
    (indexed' : Indexed lexer') (s : Scanner) :
    turnAt engine lexer' s = turnAt engine lexer s := by
  unfold Lexer.turnAt
  by_cases ended : s.rest.headD '\x00' = '\x00'
  · rw [if_pos ended, if_pos ended, alike.defined]
    cases defined : lexer.indentLexems.defined with
    | false => rfl
    | true =>
      have some_token : IndentToken.IndentClose ≠ .IndentNone := by simp
      have closing := alike.indentLexem defined some_token s.line
      simp only [indentId] at closing
      rw [closing]
  · have some_char : atEnd s.rest = false := decide_eq_false ended
    rw [if_neg ended, if_neg ended, tryCandidates_fold engine indexed some_char,
      tryCandidates_fold engine indexed' some_char, alike.comments]
    cases lexer.commentAt s.rest with
    | some c => simp only [ok_bind, alike.commentTurn]
    | none =>
      have same := alike.chosen engine s.rest
      generalize (lexer.triedAt s.rest).foldl (choose (matchLength engine s.rest)
        LexemDef.keyword) (0, none) = best at same ⊢
      generalize (lexer'.triedAt s.rest).foldl (choose (matchLength engine s.rest)
        LexemDef.keyword) (0, none) = best' at same ⊢
      obtain ⟨length, found⟩ := best
      obtain ⟨length', found'⟩ := best'
      obtain ⟨length_eq, same⟩ := same
      simp only at length_eq same
      simp only [ok_bind, bestOf, length_eq]
      cases same with
      | none =>
        simp only [Option.map_none]
        rw [alike.error]
      | @some d d' same =>
        simp only [Option.map_some]
        rw [same.id, same.name, matchAt_same same]
        by_cases unnamed : d.id = 0
        · rw [if_pos unnamed, if_pos unnamed]
        · rw [if_neg unnamed, if_neg unnamed]
          have indent : (if lexer.indentLexems.defined then
              s.getIndentToken lexer.indentLexems.tabSize else (.IndentNone, s)) =
              lexer.indentAt s := rfl
          have indent' : (if lexer'.indentLexems.defined then
              s.getIndentToken lexer'.indentLexems.tabSize else (.IndentNone, s)) =
              lexer.indentAt s := alike.indentAt s
          rw [indent, indent']
          cases read : lexer.indentAt s with
          | mk token s' =>
            have names : token ≠ .IndentNone → ∀ line,
                lexer'.indentLexem (lexer'.indentId token) line =
                  lexer.indentLexem (lexer.indentId token) line := by
              intro some_token line
              cases defined : lexer.indentLexems.defined with
              | false => exact absurd (indentAt_undefined defined read) some_token
              | true => exact alike.indentLexem defined some_token line
            cases token with
            | IndentNone => rfl
            | IndentNewLine | IndentOpen | IndentClose =>
              have names := names (by simp) s.line
              simp only [indentId] at names
              simp only [names]

theorem Alike.turn (alike : Alike lexer lexer') (indexed : Indexed lexer)
    (indexed' : Indexed lexer') (s : Scanner) :
    turn engine lexer' s = turn engine lexer s := by
  unfold Lexer.turn
  simp only [alike.turnAt indexed indexed']

theorem Alike.next (alike : Alike lexer lexer') (indexed : Indexed lexer)
    (indexed' : Indexed lexer') (fuel : Nat) (s : Scanner) :
    next engine lexer' fuel s = next engine lexer fuel s := by
  induction fuel generalizing s with
  | zero => rfl
  | succ fuel ih =>
    unfold Lexer.next
    rw [alike.turn indexed indexed']
    simp only [ih]

theorem Alike.lexes (alike : Alike lexer lexer') (indexed : Indexed lexer)
    (indexed' : Indexed lexer') {lexems : List Lexem} {s' : Scanner} :
    Lexes engine lexer' s lexems s' ↔ Lexes engine lexer s lexems s' := by
  have calls : ∀ s lexem s', Calls engine lexer' s lexem s' ↔ Calls engine lexer s lexem s' := by
    intro s lexem s'
    simp only [Calls, alike.next indexed indexed']
  constructor
  · intro h
    induction h with
    | start => exact .start
    | call _ more call ih => exact .call ih more ((calls _ _ _).mp call)
  · intro h
    induction h with
    | start => exact .start
    | call _ more call ih => exact .call ih more ((calls _ _ _).mpr call)

end Lexer

end Mewa
