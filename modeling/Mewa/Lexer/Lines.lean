/- Module: Mewa/Lexer/Lines
   digest: The line of a lexem is the line where its text begins in the source. -/

import Mewa.Lexer.Progress

set_option autoImplicit false
set_option relaxedAutoImplicit false

namespace Mewa.Lexer

open Mewa.Lib

/-- The states of a scanner of a source between calls of the lexer, also after calls that returned
    the end. -/
inductive Scanned (engine : PatternSearch) (lexer : Lexer) (src : List Char) : Scanner → Prop
  | start : Scanned engine lexer src (.ofSource src)
  | call {s s' : Scanner} {lexem : Lexem} : Scanned engine lexer src s →
      Calls engine lexer s lexem s' → Scanned engine lexer src s'

/-- A number of one of the indentation lexems without text. -/
def IndentReport (lexer : Lexer) (lexem : Lexem) : Prop :=
  lexer.isIndent lexem.id ∧ lexem.value = ""

/-- The lexem is returned for the begin of a comment whose end is missing. -/
def CommentReport (lexer : Lexer) (s : Scanner) (lexem : Lexem) : Prop :=
  ∃ gap rest d line, Gap lexer s.rest gap rest ∧ lexer.commentAt rest = some (.bracket d) ∧
    Comment.length (.bracket d) rest = none ∧ lexem = Comment.unclosed lexer line (.bracket d)

/-- The text that a lexem is read from, before the rest of the source: a character that nothing
    matches or what the definition chosen here matches. -/
inductive TextOf (engine : PatternSearch) (lexer : Lexer) (lexem : Lexem) (text after : List Char) :
    Prop
  | bad : ChosenAt engine lexer (text ++ after) (0, none) → text = parseChar (text ++ after) →
      lexem.id = -1 → lexem.value = String.ofList text → TextOf engine lexer lexem text after
  | token (d : LexemDef) : ChosenAt engine lexer (text ++ after) (text.length, some d) →
      lexem.id = d.id → lexem.name = d.name →
      lexem.value = String.ofList (d.matchAt engine (text ++ after)).1 →
      TextOf engine lexer lexem text after

/-- The text of a lexem stands behind the position of the scanner and what it skips there, the
    scanner stops behind the text and the blanks that follow, and the first character of the text
    is in the line of the lexem. -/
def LineExact (engine : PatternSearch) (lexer : Lexer) (src : List Char) (s : Scanner)
    (lexem : Lexem) (s' : Scanner) : Prop :=
  ∃ gap text after, Gap lexer s.rest gap (text ++ after) ∧ TextOf engine lexer lexem text after ∧
    src = s.passed.reverse ++ gap ++ text ++ after ∧
    s'.passed.reverse = s.passed.reverse ++ gap ++ text ++ after.takeWhile isBlank ∧
    lexem.line = 1 + (s.passed.reverse ++ gap).count '\n'

/-- The scanner is in its source, and the lines are counted. -/
structure Counted (src : List Char) (s : Scanner) : Prop where
  source : s.passed.reverse ++ s.rest = src
  line : s.line = 1 + s.passed.count '\n'

section Counting

variable {src : List Char} {s s' : Scanner}

theorem counted_start (src : List Char) : Counted src (.ofSource src) := ⟨rfl, rfl⟩

theorem advance_line (s : Scanner) (n : Nat) :
    (s.advance n).line = s.line + (s.rest.take n).count '\n' := by
  induction n generalizing s with
  | zero => simp [Scanner.advance]
  | succ n ih =>
    cases split : s.rest with
    | nil => simp [Scanner.advance_nil _ split]
    | cons ch rest =>
      rw [Scanner.advance_cons n split, ih, List.take_succ_cons, List.count_cons]
      by_cases newline : ch = '\n'
      · simp [newline]
        omega
      · simp [newline]

theorem Counted.advance (counted : Counted src s) (n : Nat) : Counted src (s.advance n) := by
  constructor
  · rw [Scanner.advance_passed, Scanner.advance_rest, List.reverse_append, List.reverse_reverse,
      List.append_assoc, List.take_append_drop, counted.source]
  · rw [advance_line, counted.line, Scanner.advance_passed, List.count_append, List.count_reverse]
    push_cast
    omega

theorem Counted.skipBlanks (counted : Counted src s) : Counted src s.skipBlanks :=
  counted.advance _

theorem indentAt_line (lexer : Lexer) (s : Scanner) : (lexer.indentAt s).2.line = s.line := by
  unfold indentAt
  split
  · cases read : s.getIndentToken lexer.indentLexems.tabSize with
    | mk token s' => cases Scanner.getIndentToken_spec read <;> rfl
  · rfl

theorem Counted.indentAt (counted : Counted src s) (lexer : Lexer) :
    Counted src (lexer.indentAt s).2 := by
  obtain ⟨rest, passed⟩ := indentAt_rest lexer s
  exact ⟨by rw [rest, passed, counted.source], by rw [indentAt_line, passed, counted.line]⟩

end Counting

section Reading

variable {engine : PatternSearch} {lexer : Lexer} {src : List Char} {s s' : Scanner} {lexem : Lexem}

theorem Counted.reads (counted : Counted src s) (reads : Reads engine lexer s lexem s') :
    Counted src s' := by
  cases reads with
  | ended => exact counted
  | unindented => exact ⟨counted.source, counted.line⟩
  | unclosed c => exact counted.advance _
  | bad => exact (counted.advance _).skipBlanks
  | indented name _ _ _ _ read _ =>
    have kept := counted.indentAt lexer
    rwa [read] at kept
  | token _ _ _ read =>
    have kept := counted.indentAt lexer
    rw [read] at kept
    exact (kept.advance _).skipBlanks

theorem Counted.calls (named : Named lexer) (indexed : Indexed lexer) (counted : Counted src s)
    (call : Calls engine lexer s lexem s') : Counted src s' := by
  obtain ⟨gap, -, -, -, reads⟩ := calls_spec named indexed call
  exact (counted.advance gap.length).reads reads

theorem Scanned.counted (named : Named lexer) (indexed : Indexed lexer)
    (scanned : Scanned engine lexer src s) : Counted src s := by
  induction scanned with
  | start => exact counted_start src
  | call _ call ih => exact ih.calls named indexed call

theorem passed_behind (s : Scanner) (n : Nat) :
    (s.advance n).skipBlanks.passed.reverse =
      s.passed.reverse ++ s.rest.take n ++ (s.rest.drop n).takeWhile isBlank := by
  have taken : (s.rest.drop n).take ((s.rest.drop n).takeWhile isBlank).length =
      (s.rest.drop n).takeWhile isBlank :=
    (List.prefix_iff_eq_take.mp (List.takeWhile_prefix isBlank)).symm
  rw [Scanner.skipBlanks, Scanner.advance_passed, Scanner.advance_passed, Scanner.advance_rest,
    taken]
  simp

theorem parseChar_isPrefix (text : List Char) : parseChar text <+: text := by
  cases text with
  | nil => exact List.prefix_refl _
  | cons ch text =>
    simp only [parseChar]
    split
    · exact (List.prefix_cons_inj ch).mpr (List.takeWhile_prefix _)
    · exact (List.prefix_cons_inj ch).mpr List.nil_prefix

theorem TextOf.value_eq {text after : List Char} {d : LexemDef} (whole : d.select = 0)
    (length : text.length = (d.matchAt engine (text ++ after)).2) :
    (d.matchAt engine (text ++ after)).1 = text := by
  unfold LexemDef.matchAt at length ⊢
  cases found : engine.search d.source (text ++ after) with
  | none =>
    rw [found] at length
    exact (List.length_eq_zero_iff.mp length).symm
  | some here =>
    simp only [found, whole, List.getElem?_cons_zero] at length ⊢
    rw [← length, List.drop_zero, List.take_left]

theorem lineExact_of_text {gap rest : List Char} {n : Nat} {here : Scanner}
    (counted : Counted src s) (skipped : Gap lexer s.rest gap rest)
    (place : here.rest = rest ∧ here.passed = (s.advance gap.length).passed)
    (text : TextOf engine lexer lexem (rest.take n) (rest.drop n))
    (line : lexem.line = (s.advance gap.length).line) :
    LineExact engine lexer src s lexem (here.advance n).skipBlanks := by
  have passed : (s.advance gap.length).passed.reverse = s.passed.reverse ++ gap := by
    rw [Scanner.advance_passed, skipped.split, List.take_left]
    simp
  refine ⟨gap, rest.take n, rest.drop n, ?_, text, ?_, ?_, ?_⟩
  · rwa [List.take_append_drop]
  · rw [List.append_assoc, List.append_assoc, List.take_append_drop, ← skipped.split,
      counted.source]
  · rw [passed_behind, place.1, place.2, passed]
  · rw [line, (counted.advance gap.length).line, ← passed, List.count_reverse]

end Reading

/-- The line of a lexem is exact, unless it is the end, an indentation or the report of a comment
    without end. -/
theorem line_exact {patterns : PatternEngine} {engine : PatternSearch} {lexer : Lexer}
    {src : List Char} {s s' : Scanner} {lexem : Lexem} (defined : Defined patterns lexer)
    (scanned : Scanned engine lexer src s) (call : Calls engine lexer s lexem s')
    (not_end : lexem.id ≠ 0) (not_indent : ¬ lexer.IndentReport lexem)
    (not_comment : ¬ lexer.CommentReport s lexem) : LineExact engine lexer src s lexem s' := by
  obtain ⟨named, indexed⟩ := defined.invariants
  have counted := scanned.counted named indexed
  obtain ⟨gap, rest, skipped, -, reads⟩ := calls_spec named indexed call
  have here := advance_gap_rest skipped
  cases reads with
  | ended => exact absurd rfl not_end
  | unindented name ended defined stk =>
    exact absurd ⟨isIndent_indentId .IndentClose defined (by simp), rfl⟩ not_indent
  | unclosed c comment open_ =>
    rw [here] at comment open_
    cases c with
    | eoln d => exact absurd rfl not_end
    | bracket d => exact absurd ⟨gap, rest, d, _, skipped, comment, open_, rfl⟩ not_comment
  | bad token chosen =>
    rw [here] at chosen ⊢
    have text : rest.take (parseChar rest).length = parseChar rest :=
      (List.prefix_iff_eq_take.mp (parseChar_isPrefix rest)).symm
    refine lineExact_of_text counted skipped ⟨here, rfl⟩ (.bad ?_ ?_ rfl ?_) rfl
    · rwa [List.take_append_drop]
    · rw [List.take_append_drop, text]
    · rw [text]
  | indented name _ _ _ defined read some_token =>
    exact absurd ⟨isIndent_indentId _ defined some_token, rfl⟩ not_indent
  | @token length d after token chosen unnamed read =>
    have place := indentAt_rest lexer (s.advance gap.length)
    rw [read, here] at place
    rw [here] at chosen ⊢
    have fits := chosen.length_le
    refine lineExact_of_text counted skipped place (.token d ?_ rfl rfl ?_) rfl
    · rw [List.take_append_drop, List.length_take, Nat.min_eq_left fits]
      exact chosen
    · rw [List.take_append_drop]

theorem line_exact_second : ∃ lexer s',
    defineLexem Plain.patterns 1 "A" "ab" 0 {} = .ok lexer ∧
      LineExact Plain.engine lexer ['\n', 'a', 'b'] (.ofSource ['\n', 'a', 'b'])
        ⟨"A", 1, "ab", 2⟩ s' := by
  have shape : (defineLexem Plain.patterns 1 "A" "ab" 0 {}).toOption.map (fun lexer =>
      (lexer.indentLexems.opening == 0) &&
        decide ((next Plain.engine lexer 1 (.ofSource ['\n', 'a', 'b'])).toOption =
          some (⟨"A", 1, "ab", 2⟩, ⟨['b', 'a', '\n'], [], 2, [], false⟩))) = some true := by
    decide +kernel
  obtain ⟨lexer, built, holds⟩ := Option.map_eq_some_iff.mp shape
  simp only [Bool.and_eq_true, beq_iff_eq, decide_eq_true_eq] at holds
  obtain ⟨no_indent, returned⟩ := holds
  have built := toOption_eq_some.mp built
  refine ⟨lexer, _, built, line_exact (.lexem .empty built) .start
    ⟨1, toOption_eq_some.mp returned⟩ (by decide) (fun report => report.1.1 no_indent) ?_⟩
  rintro ⟨gap, rest, d, line, -, -, -, same⟩
  cases congrArg Lexem.id same

end Mewa.Lexer
