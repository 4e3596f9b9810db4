/- Module: Mewa/Lexer/Indent
   digest: The lexems that open and close an indentation, and the stack of the scanner. -/

import Mewa.Lexer.Progress

set_option autoImplicit false
set_option relaxedAutoImplicit false

namespace Mewa.Lexer

open Mewa.Lib

variable (lexer : Lexer)

def opens (lexems : List Lexem) : Nat :=
  lexems.countP fun l => decide (l.id = (lexer.indentLexems.opening : Int))

def closes (lexems : List Lexem) : Nat :=
  lexems.countP fun l => decide (l.id = (lexer.indentLexems.closing : Int))

/-- Every lexem that closes an indentation closes one that was opened before, and all are closed. -/
structure Balanced (lexems : List Lexem) : Prop where
  opened : ∀ before, before <+: lexems → lexer.closes before ≤ lexer.opens before
  closed : lexer.opens lexems ≤ lexer.closes lexems

/-- No pattern is defined under a name of the lexems that open and close an indentation. -/
def Unshared : Prop :=
  ∀ d ∈ lexer.defar, d.source ≠ "" →
    d.id ≠ lexer.indentLexems.opening ∧ d.id ≠ lexer.indentLexems.closing

variable {engine : PatternSearch} {lexer} {s s' : Scanner} {lexem : Lexem} {lexems : List Lexem}

theorem opens_append (lexems lexems' : List Lexem) :
    lexer.opens (lexems ++ lexems') = lexer.opens lexems + lexer.opens lexems' :=
  List.countP_append

theorem closes_append (lexems lexems' : List Lexem) :
    lexer.closes (lexems ++ lexems') = lexer.closes lexems + lexer.closes lexems' :=
  List.countP_append

theorem opens_single (lexem : Lexem) :
    lexer.opens [lexem] = if lexem.id = (lexer.indentLexems.opening : Int) then 1 else 0 := by
  unfold opens
  split <;> simp_all

theorem closes_single (lexem : Lexem) :
    lexer.closes [lexem] = if lexem.id = (lexer.indentLexems.closing : Int) then 1 else 0 := by
  unfold closes
  split <;> simp_all

/-- The stack of the indentations grows by the lexems that open one and not those that close one. -/
def Counts (lexer : Lexer) (s : Scanner) (lexem : Lexem) (s' : Scanner) : Prop :=
  lexer.closes [lexem] + s'.indentstk.length = lexer.opens [lexem] + s.indentstk.length

theorem counts_of_other (stk : s'.indentstk = s.indentstk)
    (not_open : lexem.id ≠ (lexer.indentLexems.opening : Int))
    (not_close : lexem.id ≠ (lexer.indentLexems.closing : Int)) : Counts lexer s lexem s' := by
  unfold Counts
  rw [opens_single, closes_single, if_neg not_open, if_neg not_close, stk]

theorem counts_of_indents (named : Named lexer) (opened : lexer.indentLexems.opening ≠ 0)
    {token : IndentToken} {count : Int} (h : Scanner.Indents s count token s')
    (some_token : token ≠ .IndentNone) (id : lexem.id = lexer.indentId token) :
    Counts lexer s lexem s' := by
  obtain ⟨closing, newLine, -⟩ := named.indent opened
  cases h with
  | consumed => exact absurd rfl some_token
  | inside => exact absurd rfl some_token
  | newLine =>
    simp only [indentId] at id
    exact counts_of_other rfl (by omega) (by omega)
  | opened =>
    simp only [indentId] at id
    unfold Counts
    rw [opens_single, closes_single, if_pos id, if_neg (by omega), List.length_cons]
    omega
  | closed _ split _ =>
    simp only [indentId] at id
    unfold Counts
    rw [opens_single, closes_single, if_pos id, if_neg (by omega), split, List.length_cons]
    dsimp only
    omega

theorem skipBlanks_stk : s.skipBlanks.indentstk = s.indentstk := (Scanner.advance_indent _).1

theorem Reads.counts (named : Named lexer) (opened : lexer.indentLexems.opening ≠ 0)
    (unshared : Unshared lexer) (h : Reads engine lexer s lexem s') : Counts lexer s lexem s' := by
  obtain ⟨closing, newLine, -⟩ := named.indent opened
  have not_number : ∀ {lexem : Lexem}, lexem.id ≤ 0 →
      lexem.id ≠ (lexer.indentLexems.opening : Int) ∧
      lexem.id ≠ (lexer.indentLexems.closing : Int) := by
    intro lexem none
    omega
  cases h with
  | ended => exact counts_of_other rfl (not_number le_rfl).1 (not_number le_rfl).2
  | unindented name _ _ split =>
    unfold Counts
    rw [opens_single, closes_single, if_pos rfl, if_neg (by simp only; omega), split,
      List.length_cons]
    dsimp only
    omega
  | unclosed c =>
    have none : (c.unclosed lexer (s.advance c.opening.length).line).id ≤ 0 := by
      cases c <;> simp [Comment.unclosed, Lexem.atEnd]
    exact counts_of_other (Scanner.advance_indent _).1 (not_number none).1 (not_number none).2
  | bad =>
    refine counts_of_other ?_ (not_number (by simp)).1 (not_number (by simp)).2
    rw [skipBlanks_stk, (Scanner.advance_indent _).1]
  | indented name _ _ _ defined read some_token =>
    rw [indentAt, if_pos defined] at read
    exact counts_of_indents named opened (Scanner.getIndentToken_spec read) some_token rfl
  | @token length d after _ chosen _ read =>
    have tried : d ∈ lexer.triedAt s.rest := by
      rcases chosen.of_some with ⟨-, mem, -, -⟩ | ⟨-, preferred⟩
      · exact mem
      · exact preferred.mem
    obtain ⟨mem, tries⟩ := List.mem_filter.mp tried
    have source : d.source ≠ "" := fun empty => by simp [tries_of_source empty] at tries
    obtain ⟨not_open, not_close⟩ := unshared d mem source
    have stk : after.indentstk = s.indentstk := by
      unfold indentAt at read
      split at read
      · cases Scanner.getIndentToken_spec read <;> rfl
      · rw [← (Prod.mk.inj read).2]
    refine counts_of_other ?_ (by dsimp only; omega) (by dsimp only; omega)
    rw [skipBlanks_stk, (Scanner.advance_indent _).1, stk]

theorem Lexes.counts (named : Named lexer) (indexed : Indexed lexer)
    (opened : lexer.indentLexems.opening ≠ 0) (unshared : Unshared lexer) {start : Scanner}
    (h : Lexes engine lexer start lexems s) :
    lexer.closes lexems + s.indentstk.length = lexer.opens lexems + start.indentstk.length := by
  induction h with
  | start => rfl
  | call _ _ call ih =>
    obtain ⟨gap, rest, -, -, reads⟩ := calls_spec named indexed call
    have step := reads.counts named opened unshared
    unfold Counts at step
    rw [(Scanner.advance_indent _).1] at step
    rw [closes_append, opens_append]
    omega

theorem Lexes.of_part {start : Scanner} (h : Lexes engine lexer start lexems s)
    {before : List Lexem} (part : before <+: lexems) :
    ∃ s', Lexes engine lexer start before s' := by
  induction h with
  | start =>
    rw [List.prefix_nil.mp part]
    exact ⟨_, .start⟩
  | call lexes more call ih =>
    rcases List.prefix_concat_iff.mp part with rfl | part
    · exact ⟨_, .call lexes more call⟩
    · exact ih part

/-- A keyword, comments up to the end of the line, and indentation. -/
def indentLexer : Except Failure Lexer := do
  let lexer ← defineKeyword Plain.patterns "a" "" {}
  let lexer ← lexer.defineEolnComment 1 "#"
  lexer.defineIndentLexems 1 "open" "close" "nl" 4

theorem defined_indentLexer (built : indentLexer = .ok lexer) : Defined Plain.patterns lexer := by
  obtain ⟨keyword, first, built⟩ := bind_eq_ok.mp built
  obtain ⟨comment, second, built⟩ := bind_eq_ok.mp built
  exact .indentLexems (.eolnComment (.keyword .empty first) second) built

end Mewa.Lexer
