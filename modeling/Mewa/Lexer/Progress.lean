/- Module: Mewa/Lexer/Progress
   digest: When every call of the lexer returns, moves on, and the lexems of a source end. -/

import Mewa.Lexer.Calls

set_option autoImplicit false
set_option relaxedAutoImplicit false

namespace Mewa.Lexer

open Mewa.Lib

def isIndent (lexer : Lexer) (id : Int) : Prop :=
  lexer.indentLexems.opening ≠ 0 ∧ (id = lexer.indentLexems.opening ∨
    id = lexer.indentLexems.closing ∨ id = lexer.indentLexems.newLine)

/-- A lexem that is neither the end nor made for the indentation has moved the scanner. -/
def MovesOn (lexer : Lexer) (s : Scanner) (lexem : Lexem) (s' : Scanner) : Prop :=
  lexem.id ≠ 0 → ¬ lexer.isIndent lexem.id → s.passed.length < s'.passed.length

/-- Every call returns and moves on, and the lexems of the source have an end. -/
structure Progress (engine : PatternSearch) (lexer : Lexer) (src : List Char) : Prop where
  call : ∀ {lexems s}, Lexes engine lexer (.ofSource src) lexems s → (∀ l ∈ lexems, l.id ≠ 0) →
    ∃ lexem s', Calls engine lexer s lexem s' ∧ MovesOn lexer s lexem s'
  finite : ∃ lexems s, Lexes engine lexer (.ofSource src) lexems s ∧ ∃ l ∈ lexems, l.id = 0

/-- A comment that is empty, or that has an empty begin and no end. -/
def EmptyComment (c : Comment) (rest : List Char) : Prop :=
  c.length rest = some 0 ∨ ∃ d, c = .bracket d ∧ c.opening = [] ∧ c.length rest = none

/-- Where nothing is read: the longest match is one to ignore, or nothing matches and a keyword
    begins with this character, or there is a comment without text. -/
inductive Stalls (engine : PatternSearch) (lexer : Lexer) (rest : List Char) : Prop
  | ignored (d : LexemDef) : AtToken lexer rest →
      Preferred (matchLength engine rest) LexemDef.keyword (lexer.triedAt rest) d → d.id = 0 →
      Stalls engine lexer rest
  | keyword (d : LexemDef) : AtToken lexer rest → d ∈ lexer.triedAt rest → d.keyword = true →
      (∀ d' ∈ lexer.triedAt rest, matchLength engine rest d' = 0) → Stalls engine lexer rest
  | comment (c : Comment) : lexer.commentAt rest = some c → EmptyComment c rest →
      Stalls engine lexer rest

variable {engine : PatternSearch} {lexer : Lexer} {s s' : Scanner} {lexem : Lexem}
  {rest : List Char}

theorem Stalls.stop (h : Stalls engine lexer rest) : Stop lexer rest := by
  intro c length here closed
  cases h with
  | ignored d token _ _ => simp [token.no_comment] at here
  | keyword d token _ _ _ => simp [token.no_comment] at here
  | comment c' here' empty =>
    rw [here'] at here
    obtain rfl := Option.some.inj here
    rcases empty with zero | ⟨d, -, -, none⟩
    · exact Option.some.inj (closed.symm.trans zero)
    · simp [closed] at none

theorem passed_advance (n : Nat) (fits : n ≤ s.rest.length) :
    (s.advance n).passed.length = s.passed.length + n := by
  rw [Scanner.advance_passed, List.length_append, List.length_reverse, List.length_take,
    Nat.min_eq_left fits, Nat.add_comm]

theorem passed_skipBlanks : s.passed.length ≤ s.skipBlanks.passed.length := by
  unfold Scanner.skipBlanks
  rw [Scanner.advance_passed, List.length_append]
  omega

theorem isIndent_indentId (token : IndentToken) (defined : lexer.indentLexems.defined = true)
    (some_token : token ≠ .IndentNone) : lexer.isIndent (lexer.indentId token) := by
  refine ⟨by simpa [IndentLexems.defined] using defined, ?_⟩
  cases token with
  | IndentNone => exact absurd rfl some_token
  | IndentNewLine => exact Or.inr (Or.inr rfl)
  | IndentOpen => exact Or.inl rfl
  | IndentClose => exact Or.inr (Or.inl rfl)

theorem Named.indent_pos (named : Named lexer) {id : Int} (indent : lexer.isIndent id) :
    0 < id := by
  obtain ⟨opened, which⟩ := indent
  obtain ⟨closing, newLine, -⟩ := named.indent opened
  omega

theorem Named.not_indent (named : Named lexer) {d : LexemDef} (mem : d ∈ lexer.defar)
    (keyword : d.keyword = true) : ¬ lexer.isIndent d.id := by
  intro ⟨opened, which⟩
  obtain ⟨closing, newLine, -⟩ := named.indent opened
  rcases named.separate d mem keyword opened with below | above <;> omega

theorem parseChar_pos {text : List Char} (some_char : atEnd text = false) :
    0 < (parseChar text).length := by
  cases text with
  | nil => simp [atEnd] at some_char
  | cons ch text =>
    simp only [parseChar]
    split <;> simp

theorem Stuck.stalls (h : Stuck engine lexer rest) :
    Stalls engine lexer rest := by
  rcases h with ⟨c, here, zero⟩ | ⟨token, length, d, chosen, unnamed⟩
  · exact .comment c here (Or.inl zero)
  · cases chosen with
    | empty d mem keyword zero => exact .keyword d token mem keyword zero
    | best d preferred => exact .ignored d token preferred unnamed

/-- The number of indentation tokens that are still returned here. -/
def pending (lexer : Lexer) (s : Scanner) : Nat :=
  if atEnd s.rest then s.indentstk.length
  else if s.indentConsumed then 0
  else if s.indentstk.headD 0 = s.indentCount lexer.indentLexems.tabSize then 1
  else
    match s.indentstk with
    | [] => 2
    | back :: stk =>
      if back < s.indentCount lexer.indentLexems.tabSize then 2 else 3 + stk.length

theorem pending_decreases {token : IndentToken} (some_char : atEnd s.rest = false)
    (some_token : token ≠ .IndentNone) (read : lexer.indentAt s = (token, s')) :
    lexer.pending s' < lexer.pending s := by
  unfold indentAt at read
  split at read
  · have spec := Scanner.getIndentToken_spec read
    obtain ⟨rest_eq, passed_eq⟩ := spec.position
    have count_eq : s'.indentCount lexer.indentLexems.tabSize =
        s.indentCount lexer.indentLexems.tabSize := by
      unfold Scanner.indentCount
      rw [passed_eq]
    unfold pending
    rw [rest_eq, some_char, count_eq]
    generalize s.indentCount lexer.indentLexems.tabSize = count at spec
    cases spec with
    | consumed => exact absurd rfl some_token
    | inside => exact absurd rfl some_token
    | newLine fresh same =>
      simp only [fresh, same, if_true, Bool.false_eq_true, if_false]
      omega
    | opened fresh other deeper =>
      simp only [fresh, other, List.headD_cons, if_true, Bool.false_eq_true, if_false]
      cases split : s.indentstk with
      | nil => simp
      | cons back stk =>
        have less : back < count := deeper back (by simp [split])
        simp [less]
    | @closed back stk fresh split less =>
      have other : back ≠ count := by omega
      have not_deeper : ¬ back < count := by omega
      simp only [fresh, split, List.headD_cons, other, not_deeper, Bool.false_eq_true, if_false]
      split_ifs
      · omega
      · cases stk with
        | nil => simp
        | cons back' stk =>
          simp only [List.length_cons]
          split_ifs <;> omega
  · exact absurd (Prod.mk.inj read).1.symm some_token

theorem Reads.effect (h : Reads engine lexer s lexem s') (runs : ¬ Stalls engine lexer s.rest) :
    lexem.id = 0 ∨ s.passed.length < s'.passed.length ∨
      lexer.isIndent lexem.id ∧ s'.rest = s.rest ∧ s'.passed = s.passed ∧
        lexer.pending s' < lexer.pending s := by
  cases h with
  | ended => exact Or.inl rfl
  | unindented name ended defined split =>
    refine Or.inr (Or.inr ⟨isIndent_indentId .IndentClose defined (by simp), rfl, rfl, ?_⟩)
    simp [pending, ended, split]
  | unclosed c here unclosed =>
    cases c with
    | eoln d => exact Or.inl rfl
    | bracket d =>
      have opening := (commentAt_opening here).length_le.trans (cstr_length_le s.rest)
      have some_opening : Comment.opening (.bracket d) ≠ [] := fun empty =>
        runs (.comment _ here (Or.inr ⟨d, rfl, empty, unclosed⟩))
      have := List.length_pos_iff.mpr some_opening
      rw [passed_advance _ opening]
      omega
  | bad token _ =>
    have moved := passed_advance _ (parseChar_length s.rest)
    have := parseChar_pos token.some_char
    exact Or.inr (Or.inl (lt_of_lt_of_le (by omega) passed_skipBlanks))
  | indented name at_token _ _ defined read some_token =>
    obtain ⟨rest_eq, passed_eq⟩ := indentAt_rest lexer s
    rw [read] at rest_eq passed_eq
    exact Or.inr (Or.inr ⟨isIndent_indentId _ defined some_token, rest_eq, passed_eq,
      pending_decreases at_token.some_char some_token read⟩)
  | @token length d after token chosen unnamed read =>
    have positive : 0 < length := by
      cases chosen with
      | empty d mem keyword zero => exact absurd (.keyword d token mem keyword zero) runs
      | best d preferred => exact preferred.positive
    obtain ⟨rest_eq, passed_eq⟩ := indentAt_rest lexer s
    rw [read] at rest_eq passed_eq
    have moved := passed_advance (s := after) length (by rw [rest_eq]; exact chosen.length_le)
    rw [passed_eq] at moved
    exact Or.inr (Or.inl (lt_of_lt_of_le (by omega) passed_skipBlanks))

theorem advance_total (n : Nat) : (s.advance n).passed.length + (s.advance n).rest.length =
    s.passed.length + s.rest.length := by
  rw [Scanner.advance_passed, Scanner.advance_rest, List.length_append, List.length_reverse,
    List.length_take, List.length_drop]
  omega

theorem Reads.total (h : Reads engine lexer s lexem s') :
    s'.passed.length + s'.rest.length = s.passed.length + s.rest.length := by
  cases h with
  | ended => rfl
  | unindented => rfl
  | unclosed c => exact advance_total _
  | bad => rw [Scanner.skipBlanks, advance_total, advance_total]
  | indented name _ _ _ _ read _ =>
    obtain ⟨rest_eq, passed_eq⟩ := indentAt_rest lexer s
    rw [read] at rest_eq passed_eq
    rw [rest_eq, passed_eq]
  | token _ _ _ read =>
    obtain ⟨rest_eq, passed_eq⟩ := indentAt_rest lexer s
    rw [read] at rest_eq passed_eq
    rw [Scanner.skipBlanks, advance_total, advance_total, rest_eq, passed_eq]

theorem Stalls.reads (named : Named lexer) (stalls : Stalls engine lexer s.rest)
    (head : ∀ ch ∈ s.rest.head?, isBlank ch = false) (h : Reads engine lexer s lexem s') :
    lexem.id ≠ 0 ∧ s'.rest = s.rest ∧ s'.passed = s.passed ∧
      (lexer.isIndent lexem.id → lexer.pending s' < lexer.pending s) := by
  have none_ended : atEnd s.rest = false := by
    cases stalls with
    | ignored d token _ _ => exact token.some_char
    | keyword d token _ _ _ => exact token.some_char
    | comment c here _ =>
      by_contra ended
      simp [commentAt, ended] at here
  cases h with
  | ended ended => simp [none_ended] at ended
  | unindented name ended => simp [none_ended] at ended
  | unclosed c here unclosed =>
    cases stalls with
    | ignored d token _ _ => simp [token.no_comment] at here
    | keyword d token _ _ _ => simp [token.no_comment] at here
    | comment c' here' empty =>
      rw [here'] at here
      obtain rfl := Option.some.inj here
      rcases empty with zero | ⟨d, rfl, opening, -⟩
      · simp [unclosed] at zero
      · rw [opening]
        refine ⟨by simp [Comment.unclosed], rfl, rfl, ?_⟩
        rintro ⟨-, which⟩
        simp only [Comment.unclosed] at which
        omega
  | bad token chosen =>
    cases stalls with
    | ignored d _ preferred _ =>
      exact absurd (chosen.of_none.2 d preferred.mem).1 preferred.positive.ne'
    | keyword d _ mem keyword _ => simp [(chosen.of_none.2 d mem).2] at keyword
    | comment c here _ => simp [token.no_comment] at here
  | indented name token chosen unnamed defined read some_token =>
    obtain ⟨rest_eq, passed_eq⟩ := indentAt_rest lexer s
    rw [read] at rest_eq passed_eq
    have indent := isIndent_indentId _ defined some_token
    exact ⟨(named.indent_pos indent).ne', rest_eq, passed_eq,
      fun _ => pending_decreases token.some_char some_token read⟩
  | @token length d after token chosen unnamed read =>
    obtain ⟨rest_eq, passed_eq⟩ := indentAt_rest lexer s
    rw [read] at rest_eq passed_eq
    -- only a keyword without a match is left
    obtain ⟨rfl, mem, keyword⟩ : length = 0 ∧ d ∈ lexer.triedAt s.rest ∧ d.keyword = true := by
      rcases chosen.of_some with ⟨zero, mem, keyword, -⟩ | ⟨-, best⟩
      · exact ⟨zero, mem, keyword⟩
      · cases stalls with
        | ignored d' _ preferred unnamed' =>
          have plain : d'.keyword = false := Bool.eq_false_iff.mpr fun keyword =>
            named.keyword d' (List.mem_filter.mp preferred.mem).1 keyword unnamed'
          rw [best.unique preferred plain] at unnamed
          exact absurd unnamed' unnamed
        | keyword _ _ _ _ zero => exact absurd (zero d best.mem) best.positive.ne'
        | comment c here _ => simp [token.no_comment] at here
    have stays : (after.advance 0).skipBlanks = after :=
      Scanner.skipBlanks_of_head (s := after) (by rw [rest_eq]; exact head)
    rw [stays]
    have not_indent := named.not_indent (List.mem_filter.mp mem).1 keyword
    exact ⟨by simpa using unnamed, rest_eq, passed_eq, fun indent => absurd indent not_indent⟩

/-- Nothing stalls at the next position where a lexem of the source is read. -/
def NoStalls (engine : PatternSearch) (lexer : Lexer) (src : List Char) : Prop :=
  ∀ {lexems s}, Lexes engine lexer (.ofSource src) lexems s → (∀ l ∈ lexems, l.id ≠ 0) →
    ∀ {gap rest}, Gap lexer s.rest gap rest → ¬ Stalls engine lexer rest

theorem advance_gap_rest {gap : List Char} (h : Gap lexer s.rest gap rest) :
    (s.advance gap.length).rest = rest := by
  rw [Scanner.advance_rest, h.split, List.drop_left]

theorem call_of_runs (named : Named lexer) (indexed : Indexed lexer)
    (runs : ∀ {gap rest}, Gap lexer s.rest gap rest → ¬ Stalls engine lexer rest) :
    ∃ lexem s', Calls engine lexer s lexem s' ∧
      (lexem.id = 0 ∨ s'.rest.length < s.rest.length ∧ s.passed.length < s'.passed.length ∨
        lexer.isIndent lexem.id ∧ s'.rest = s.rest ∧ lexer.pending s' < lexer.pending s) := by
  obtain ⟨gap, rest, skipped, stop⟩ := exists_stop lexer s.rest
  have here := advance_gap_rest skipped
  rcases call_or_stuck named indexed skipped stop with ⟨lexem, s', call, reads⟩ | ⟨stuck, -⟩
  · refine ⟨lexem, s', call, ?_⟩
    have total := reads.total
    have moved := advance_total (s := s) gap.length
    have behind : s.passed.length + gap.length = (s.advance gap.length).passed.length := by
      rw [passed_advance _ (by rw [skipped.split, List.length_append]; omega)]
    rcases reads.effect (here ▸ runs skipped) with ended | on | ⟨indent, rest_eq, passed_eq, left⟩
    · exact Or.inl ended
    · exact Or.inr (Or.inl (by omega))
    · rcases Nat.eq_zero_or_pos gap.length with none | positive
      · rw [none] at rest_eq left
        exact Or.inr (Or.inr ⟨indent, rest_eq, left⟩)
      · rw [passed_eq] at total
        exact Or.inr (Or.inl (by rw [passed_eq]; omega))
  · exact absurd stuck.stalls (runs skipped)

theorem exists_end (named : Named lexer) (indexed : Indexed lexer) {src : List Char}
    (runs : NoStalls engine lexer src) {lexems : List Lexem}
    (lexes : Lexes engine lexer (.ofSource src) lexems s) (more : ∀ l ∈ lexems, l.id ≠ 0) :
    ∃ lexems' s', Lexes engine lexer (.ofSource src) lexems' s' ∧ ∃ l ∈ lexems', l.id = 0 := by
  induction size : s.rest.length using Nat.strong_induction_on generalizing s lexems with
  | _ n shorter =>
    subst size
    induction left : lexer.pending s using Nat.strong_induction_on generalizing s lexems with
    | _ m fewer =>
      subst left
      obtain ⟨lexem, s', call, effect⟩ := call_of_runs named indexed (runs lexes more)
      have longer := Lexes.call lexes more call
      by_cases ended : lexem.id = 0
      · exact ⟨_, s', longer, lexem, by simp, ended⟩
      · have more' : ∀ l ∈ lexems ++ [lexem], l.id ≠ 0 := by
          intro l mem
          rcases List.mem_append.mp mem with old | new
          · exact more l old
          · rwa [List.mem_singleton.mp new]
        rcases effect.resolve_left ended with ⟨less, -⟩ | ⟨-, rest_eq, less⟩
        · exact shorter _ less longer more' rfl
        · exact fewer _ less longer more' (by rw [rest_eq]; exact shorter) rfl

theorem gap_of_head (head : ∀ ch ∈ rest.head?, isBlank ch = false) : Gap lexer rest [] rest := by
  have none : Gap lexer rest _ _ := .blanks rest
  rwa [(dropWhile_of_head head).1, (dropWhile_of_head head).2] at none

theorem Stalls.call (named : Named lexer) (indexed : Indexed lexer) {gap : List Char}
    (stalls : Stalls engine lexer rest) (skipped : Gap lexer s.rest gap rest)
    (call : Calls engine lexer s lexem s') :
    lexem.id ≠ 0 ∧ s'.rest = rest ∧ s'.passed = (s.advance gap.length).passed ∧
      (lexer.isIndent lexem.id → lexer.pending s' < lexer.pending (s.advance gap.length)) := by
  obtain ⟨gap', rest', skipped', -, reads⟩ := calls_spec named indexed call
  have stop' := reads.stop
  rw [advance_gap_rest skipped'] at stop'
  obtain ⟨rfl, rfl⟩ := skipped.unique skipped' stalls.stop stop'
  have here := advance_gap_rest skipped
  rw [← here] at stalls
  have read := stalls.reads named (here ▸ skipped.head) reads
  rwa [here] at read

theorem not_progress_of_stalls (named : Named lexer) (indexed : Indexed lexer) {src : List Char}
    (stalls : Stalls engine lexer rest) (head : ∀ ch ∈ rest.head?, isBlank ch = false)
    {lexems : List Lexem} (lexes : Lexes engine lexer (.ofSource src) lexems s)
    (more : ∀ l ∈ lexems, l.id ≠ 0) (here : s.rest = rest) : ¬ Progress engine lexer src := by
  intro progress
  induction left : lexer.pending s using Nat.strong_induction_on generalizing s lexems with
  | _ n fewer =>
    subst left
    obtain ⟨lexem, s', call, moves⟩ := progress.call lexes more
    have skipped : Gap lexer s.rest [] rest := by
      rw [here]
      exact gap_of_head head
    obtain ⟨not_end, rest_eq, passed_eq, indent⟩ := stalls.call named indexed skipped call
    -- only an indentation lexem may leave the scanner where it is
    have is_indent : lexer.isIndent lexem.id := by
      by_contra not_indent
      have less := moves not_end not_indent
      rw [passed_eq] at less
      exact lt_irrefl _ less
    refine fewer _ (indent is_indent) (.call lexes more call) (fun l mem => ?_) rest_eq rfl
    rcases List.mem_append.mp mem with old | new
    · exact more l old
    · rwa [List.mem_singleton.mp new]

/-- Every call for a lexem of a source returns and moves on, and the lexems of the source have an
    end, if and only if nothing stalls where one of them is read. -/
theorem progress_iff {patterns : PatternEngine} (defined : Defined patterns lexer)
    (src : List Char) : Progress engine lexer src ↔ NoStalls engine lexer src := by
  obtain ⟨named, indexed⟩ := defined.invariants
  constructor
  · intro progress lexems s lexes more gap rest skipped stalls
    obtain ⟨lexem, s', call, -⟩ := progress.call lexes more
    obtain ⟨not_end, rest_eq, -, -⟩ := stalls.call named indexed skipped call
    refine not_progress_of_stalls named indexed stalls skipped.head (.call lexes more call)
      (fun l mem => ?_) rest_eq progress
    rcases List.mem_append.mp mem with old | new
    · exact more l old
    · rwa [List.mem_singleton.mp new]
  · intro runs
    refine ⟨fun lexes more => ?_, exists_end named indexed runs .start (by simp)⟩
    obtain ⟨lexem, s', call, effect⟩ := call_of_runs named indexed (runs lexes more)
    refine ⟨lexem, s', call, fun not_end not_indent => ?_⟩
    rcases effect.resolve_left not_end with ⟨-, less⟩ | ⟨indent, -⟩
    · exact less
    · exact absurd indent not_indent

/-- A keyword whose first character alone stands in the source is tried without a match. -/
theorem equals_tried : ∃ lexer, defineKeyword Plain.patterns "==" "" {} = .ok lexer ∧
    AtToken lexer ['='] ∧ (∃ d ∈ lexer.triedAt ['='], d.keyword = true) ∧
    (∀ d ∈ lexer.triedAt ['='], matchLength Plain.engine ['='] d = 0) ∧
    Calls Plain.engine lexer (.ofSource ['=']) ⟨"==", 1, "", 1⟩ (.ofSource ['=']) := by
  have shape : (defineKeyword Plain.patterns "==" "" {}).toOption.map (fun lexer =>
      !atEnd ['='] && (lexer.commentAt ['=']).isNone &&
        (lexer.triedAt ['=']).any LexemDef.keyword &&
        (lexer.triedAt ['=']).all (fun d => matchLength Plain.engine ['='] d == 0) &&
        decide ((next Plain.engine lexer 1 (.ofSource ['='])).toOption =
          some (⟨"==", 1, "", 1⟩, .ofSource ['=']))) = some true := by decide +kernel
  obtain ⟨lexer, built, holds⟩ := Option.map_eq_some_iff.mp shape
  simp only [Bool.and_eq_true, Bool.not_eq_true', Option.isNone_iff_eq_none, List.any_eq_true,
    List.all_eq_true, beq_iff_eq, decide_eq_true_eq] at holds
  obtain ⟨⟨⟨⟨some_char, no_comment⟩, keyword⟩, zero⟩, returned⟩ := holds
  exact ⟨lexer, toOption_eq_some.mp built, ⟨some_char, no_comment⟩, keyword, zero, 1,
    toOption_eq_some.mp returned⟩

theorem progress_iff_equals : ∃ lexer, defineKeyword Plain.patterns "==" "" {} = .ok lexer ∧
    ¬ Progress Plain.engine lexer ['='] := by
  obtain ⟨lexer, built, token, ⟨d, mem, keyword⟩, zero, -⟩ := equals_tried
  have head : ∀ ch ∈ ['='].head?, isBlank ch = false := by
    intro ch mem
    rw [← Option.some.inj mem]
    rfl
  refine ⟨lexer, built, fun progress => ?_⟩
  exact (progress_iff (.keyword .empty built) ['=']).mp progress .start (by simp)
    (gap_of_head head) (.keyword d token mem keyword zero)

/-- A match to ignore is looked for again at the same place without end. -/
theorem ignored_not_passed : ∃ lexer, defineIgnore Plain.patterns 1 "," {} = .ok lexer ∧
    Defined Plain.patterns lexer ∧
    (∀ fuel, next Plain.engine lexer fuel (.ofSource [',']) = .error .outOfFuel) ∧
    ¬ Progress Plain.engine lexer [','] := by
  have shape : ((defineIgnore Plain.patterns 1 "," {}).toOption.bind fun lexer =>
      (turn Plain.engine lexer (.ofSource [','])).toOption) = some (.again (.ofSource [','])) := by
    decide +kernel
  obtain ⟨lexer, built, again⟩ := Option.bind_eq_some_iff.mp shape
  have built := toOption_eq_some.mp built
  have again := toOption_eq_some.mp again
  have never : ∀ fuel, next Plain.engine lexer fuel (.ofSource [',']) = .error .outOfFuel := by
    intro fuel
    induction fuel with
    | zero => rfl
    | succ fuel ih =>
      rw [next, again, ok_bind]
      exact ih
  refine ⟨lexer, built, .ignore .empty built, never, fun progress => ?_⟩
  obtain ⟨lexem, s', ⟨fuel, returned⟩, -⟩ := progress.call .start (by simp)
  rw [never] at returned
  simp at returned

end Mewa.Lexer
