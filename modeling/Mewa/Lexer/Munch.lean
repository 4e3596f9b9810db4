/- Module: Mewa/Lexer/Munch
   digest: When the lexems of a source are its longest matches and leave nothing out. -/

import Mewa.Lexer.Progress
import Mathlib.Data.List.TakeWhile

set_option autoImplicit false
set_option relaxedAutoImplicit false

namespace Mewa.Lexer

open Mewa.Lib

variable (engine : PatternSearch) (lexer : Lexer)

/-- The text of a lexem at the first position behind a gap. A lexem with a number is the match of
    a definition that is preferred among all of them, and nothing matches at a bad character. -/
inductive Munch (rest : List Char) : Lexem → List Char → Prop
  | ended {line : Int} : atEnd rest = true → Munch rest (Lexem.atEnd line) []
  | indent {lexem : Lexem} : Stop lexer rest → lexer.isIndent lexem.id → Munch rest lexem []
  | unclosed (c : Comment) {line : Int} : lexer.commentAt rest = some c → c.length rest = none →
      Munch rest (c.unclosed lexer line) c.opening
  | bad {line : Int} : AtToken lexer rest → (∀ d ∈ lexer.defar, matchLength engine rest d = 0) →
      Munch rest ⟨lexer.errorLexem.value, -1, String.ofList (parseChar rest), line⟩
        (parseChar rest)
  | matched (d : LexemDef) {line : Int} : AtToken lexer rest → d ∈ lexer.triedAt rest →
      Preferred (matchLength engine rest) LexemDef.keyword lexer.defar d → d.id ≠ 0 →
      Munch rest ⟨d.name, d.id, String.ofList (d.matchAt engine rest).1, line⟩
        (rest.take (matchLength engine rest d))

/-- A text is a gap, the text of a lexem, blanks, and the rest. -/
structure Munched (text : List Char) (lexem : Lexem) (gap piece blanks rest : List Char) :
    Prop where
  gap : Gap lexer text gap (piece ++ (blanks ++ rest))
  munch : Munch engine lexer (piece ++ (blanks ++ rest)) lexem piece
  blanks : ∀ ch ∈ blanks, isBlank ch = true

/-- A text is made of the texts of some lexems with the gaps before them, and the rest. -/
inductive Partition : List Char → List Lexem → List Char → Prop
  | nothing (rest : List Char) : Partition rest [] rest
  | lexem {text gap piece blanks rest : List Char} {lexems : List Lexem} {lexem : Lexem} :
      Partition text lexems (gap ++ (piece ++ (blanks ++ rest))) →
      Munched engine lexer (gap ++ (piece ++ (blanks ++ rest))) lexem gap piece blanks rest →
      Partition text (lexems ++ [lexem]) rest

/-- Every call returns the longest match behind the gap, and the source is made of the lexems. -/
structure MaximalMunch (src : List Char) : Prop where
  call : ∀ {lexems s}, Lexes engine lexer (.ofSource src) lexems s → (∀ l ∈ lexems, l.id ≠ 0) →
    ∃ lexem s' gap piece blanks, Calls engine lexer s lexem s' ∧
      Munched engine lexer s.rest lexem gap piece blanks s'.rest
  partition : ∀ {lexems s}, Lexes engine lexer (.ofSource src) lexems s →
    Partition engine lexer src lexems s.rest

/-- The definition preferred among all of them is tried and not one to ignore, or none matches and
    no keyword is tried. There is no comment without text. -/
structure Clear (rest : List Char) : Prop where
  comment : ∀ c, lexer.commentAt rest = some c → c.length rest ≠ some 0
  token : AtToken lexer rest →
    (∃ d ∈ lexer.triedAt rest,
      Preferred (matchLength engine rest) LexemDef.keyword lexer.defar d ∧ d.id ≠ 0) ∨
    (∀ d ∈ lexer.defar, matchLength engine rest d = 0) ∧
      ∀ d ∈ lexer.triedAt rest, d.keyword = false

/-- It is clear what is read at the positions of a source where a lexem is. -/
def AllClear (src : List Char) : Prop :=
  ∀ {lexems s}, Lexes engine lexer (.ofSource src) lexems s → (∀ l ∈ lexems, l.id ≠ 0) →
    ∀ {gap rest}, Gap lexer s.rest gap rest → Clear engine lexer rest

variable {engine lexer} {s s' : Scanner} {lexem : Lexem} {rest : List Char}

theorem AtToken.stop (token : AtToken lexer rest) : Stop lexer rest := by
  intro c length here
  simp [token.no_comment] at here

theorem Clear.chosen (clear : Clear engine lexer rest) (token : AtToken lexer rest) {length : Nat}
    {d : LexemDef} (chosen : ChosenAt engine lexer rest (length, some d))
    (named : Named lexer) :
    length = matchLength engine rest d ∧ d ∈ lexer.triedAt rest ∧ d.id ≠ 0 ∧
      Preferred (matchLength engine rest) LexemDef.keyword lexer.defar d := by
  rcases clear.token token with ⟨best, tried, preferred, number⟩ | ⟨none, plain⟩
  · rcases chosen.of_some with ⟨-, -, -, zero⟩ | ⟨rfl, mine⟩
    · exact absurd (zero best tried) preferred.positive.ne'
    · have all := mine.of_filter preferred (List.mem_filter.mp tried).2
      refine ⟨rfl, mine.mem, fun zero => ?_, all⟩
      have not_keyword : d.keyword = false := Bool.eq_false_iff.mpr fun keyword =>
        named.keyword d all.mem keyword zero
      exact number (preferred.unique all not_keyword ▸ zero)
  · rcases chosen.of_some with ⟨-, mem, keyword, -⟩ | ⟨-, mine⟩
    · simp [plain d mem] at keyword
    · exact absurd (none d (List.mem_filter.mp mine.mem).1) mine.positive.ne'

theorem Clear.nothing (clear : Clear engine lexer rest) (token : AtToken lexer rest)
    (chosen : ChosenAt engine lexer rest (0, none)) :
    ∀ d ∈ lexer.defar, matchLength engine rest d = 0 := by
  rcases clear.token token with ⟨best, tried, preferred, -⟩ | ⟨none, -⟩
  · exact absurd (chosen.of_none.2 best tried).1 preferred.positive.ne'
  · exact none

theorem Clear.not_stuck (clear : Clear engine lexer rest) (named : Named lexer) :
    ¬ Stuck engine lexer rest := by
  intro stuck
  rcases stuck with ⟨c, here, zero⟩ | ⟨token, length, d, chosen, zero⟩
  · exact clear.comment c here zero
  · exact (clear.chosen token chosen named).2.2.1 zero

theorem cstr_stands (text : List Char) : cstr text <+: text := List.takeWhile_prefix _

theorem parseChar_stands (text : List Char) : parseChar text <+: text := by
  cases text with
  | nil => exact List.prefix_rfl
  | cons ch text =>
    simp only [parseChar]
    split
    · exact List.cons_prefix_cons.mpr ⟨rfl, List.takeWhile_prefix _⟩
    · exact List.cons_prefix_cons.mpr ⟨rfl, List.nil_prefix⟩

theorem split_piece {piece : List Char} (stands : piece <+: s.rest) :
    ∃ blanks, s.rest = piece ++ (blanks ++ (s.advance piece.length).skipBlanks.rest) ∧
      ∀ ch ∈ blanks, isBlank ch = true := by
  obtain ⟨tail, split⟩ := stands
  refine ⟨tail.takeWhile isBlank, ?_, fun ch mem => List.mem_takeWhile_imp mem⟩
  rw [Scanner.skipBlanks_rest, Scanner.advance_rest, ← split, List.drop_left,
    List.takeWhile_append_dropWhile]

theorem Reads.munch (named : Named lexer) (h : Reads engine lexer s lexem s')
    (clear : Clear engine lexer s.rest) :
    ∃ piece blanks, s.rest = piece ++ (blanks ++ s'.rest) ∧
      Munch engine lexer s.rest lexem piece ∧ ∀ ch ∈ blanks, isBlank ch = true := by
  have stop := h.stop
  cases h with
  | ended ended => exact ⟨[], [], rfl, .ended ended, by simp⟩
  | unindented name ended defined _ =>
    exact ⟨[], [], rfl, .indent stop (isIndent_indentId .IndentClose defined (by simp)), by simp⟩
  | unclosed c here unclosed =>
    obtain ⟨tail, split⟩ := (commentAt_opening here).trans (cstr_stands s.rest)
    refine ⟨c.opening, [], ?_, .unclosed c here unclosed, by simp⟩
    rw [Scanner.advance_rest, List.nil_append, ← split, List.drop_left]
  | bad token chosen =>
    obtain ⟨blanks, split, blank⟩ := split_piece (parseChar_stands s.rest)
    exact ⟨_, blanks, split, .bad token (clear.nothing token chosen), blank⟩
  | indented name _ _ _ defined read some_token =>
    obtain ⟨rest_eq, -⟩ := indentAt_rest lexer s
    rw [read] at rest_eq
    exact ⟨[], [], rest_eq.symm, .indent stop (isIndent_indentId _ defined some_token), by simp⟩
  | @token length d after token chosen unnamed read =>
    obtain ⟨rest_eq, -⟩ := indentAt_rest lexer s
    rw [read] at rest_eq
    obtain ⟨rfl, tried, -, preferred⟩ := clear.chosen token chosen named
    have fits : (after.rest.take (matchLength engine s.rest d)).length =
        matchLength engine s.rest d := by
      rw [List.length_take, rest_eq, Nat.min_eq_left (matchLength_le d)]
    obtain ⟨blanks, split, blank⟩ := split_piece (s := after)
      (List.take_prefix (matchLength engine s.rest d) after.rest)
    rw [fits, rest_eq] at split
    exact ⟨_, blanks, split, .matched d token tried preferred unnamed, blank⟩

theorem call_of_clear (named : Named lexer) (indexed : Indexed lexer)
    (clear : ∀ {gap rest}, Gap lexer s.rest gap rest → Clear engine lexer rest) :
    ∃ lexem s' gap piece blanks, Calls engine lexer s lexem s' ∧
      Munched engine lexer s.rest lexem gap piece blanks s'.rest := by
  obtain ⟨gap, rest, skipped, stop⟩ := exists_stop lexer s.rest
  have here := advance_gap_rest skipped
  rcases call_or_stuck named indexed skipped stop with ⟨lexem, s', call, reads⟩ | ⟨stuck, -⟩
  · obtain ⟨piece, blanks, split, munch, blank⟩ := reads.munch named (here ▸ clear skipped)
    rw [here] at split munch
    subst split
    exact ⟨lexem, s', gap, piece, blanks, call, skipped, munch, blank⟩
  · exact absurd stuck ((clear skipped).not_stuck named)

theorem Munch.stop {piece : List Char} (munch : Munch engine lexer rest lexem piece) :
    Stop lexer rest := by
  cases munch with
  | ended ended =>
    intro c length here
    simp [commentAt, ended] at here
  | indent stop _ => exact stop
  | unclosed c here unclosed =>
    intro c' length here' closed
    rw [here] at here'
    obtain rfl := Option.some.inj here'
    simp [unclosed] at closed
  | bad token _ => exact token.stop
  | matched d token _ _ _ => exact token.stop

theorem Reads.clear_or_indent (named : Named lexer) (h : Reads engine lexer s lexem s')
    (token : AtToken lexer s.rest) {piece blanks : List Char}
    (munch : Munch engine lexer s.rest lexem piece) (split : s.rest = piece ++ (blanks ++ s'.rest))
    (blank : ∀ ch ∈ blanks, isBlank ch = true)
    (head : ∀ ch ∈ s.rest.head?, isBlank ch = false) :
    Clear engine lexer s.rest ∨
      lexem.id ≠ 0 ∧ s'.rest = s.rest ∧ lexer.pending s' < lexer.pending s := by
  have no_comment : ∀ c, lexer.commentAt s.rest = some c → c.length s.rest ≠ some 0 := by
    intro c here
    simp [token.no_comment] at here
  cases h with
  | ended ended => simp [token.some_char] at ended
  | unindented name ended => simp [token.some_char] at ended
  | unclosed c here => simp [token.no_comment] at here
  | bad _ chosen =>
    left
    refine ⟨no_comment, fun _ => Or.inr ⟨?_, fun d mem => (chosen.of_none.2 d mem).2⟩⟩
    generalize same : Lexem.mk _ _ _ _ = lexem at munch
    cases munch with
    | ended ended => simp [token.some_char] at ended
    | indent _ indent =>
      have := named.indent_pos indent
      simp [← same] at this
    | unclosed c here => simp [token.no_comment] at here
    | bad _ none => exact none
    | matched d _ _ _ _ => simp at same
  | indented name _ _ _ defined read some_token =>
    obtain ⟨rest_eq, -⟩ := indentAt_rest lexer s
    rw [read] at rest_eq
    have positive := named.indent_pos (isIndent_indentId _ defined some_token)
    exact Or.inr ⟨positive.ne', rest_eq, pending_decreases token.some_char some_token read⟩
  | @token length d after _ chosen unnamed read =>
    left
    refine ⟨no_comment, fun _ => ?_⟩
    generalize same : Lexem.mk _ _ _ _ = lexem at munch
    cases munch with
    | ended ended => simp [token.some_char] at ended
    | indent _ indent =>
      -- the text of a token is not left out
      have positive : 0 < length := by
        rcases chosen.of_some with ⟨-, mem, keyword, -⟩ | ⟨rfl, preferred⟩
        · rw [← same] at indent
          exact absurd indent (named.not_indent (List.mem_filter.mp mem).1 keyword)
        · exact preferred.positive
      obtain ⟨rest_eq, -⟩ := indentAt_rest lexer s
      rw [read] at rest_eq
      have shorter := (List.dropWhile_suffix (l := after.rest.drop length) isBlank).length_le
      have fits := chosen.length_le
      rw [← Scanner.advance_rest, ← Scanner.skipBlanks_rest, Scanner.advance_rest,
        List.length_drop, rest_eq] at shorter
      cases blanks with
      | nil =>
        have := congrArg List.length split
        simp only [List.nil_append] at this
        omega
      | cons ch blanks =>
        have plain := head ch (by rw [split]; rfl)
        simp [blank ch List.mem_cons_self] at plain
    | unclosed c here => simp [token.no_comment] at here
    | bad _ none =>
      have := congrArg Lexem.id same
      simp at this
    | matched d _ tried preferred number => exact Or.inl ⟨d, tried, preferred, number⟩

theorem MaximalMunch.clear (named : Named lexer) (indexed : Indexed lexer) {src : List Char}
    (maximal : MaximalMunch engine lexer src) {lexems : List Lexem}
    (lexes : Lexes engine lexer (.ofSource src) lexems s) (more : ∀ l ∈ lexems, l.id ≠ 0)
    {gap : List Char} (skipped : Gap lexer s.rest gap rest) : Clear engine lexer rest := by
  by_cases stop : Stop lexer rest
  · induction left : lexer.pending (s.advance gap.length) using Nat.strong_induction_on
      generalizing s lexems gap with
    | _ n fewer =>
      subst left
      obtain ⟨lexem, s', gap', piece, blanks, call, skipped', munch, blank⟩ :=
        maximal.call lexes more
      obtain ⟨rfl, split⟩ := skipped.unique skipped' stop munch.stop
      obtain ⟨gap', rest', skipped', read, reads⟩ := calls_spec named indexed call
      have stop' := reads.stop
      rw [advance_gap_rest skipped'] at stop'
      obtain ⟨rfl, rfl⟩ := skipped.unique skipped' stop stop'
      have here := advance_gap_rest skipped
      rw [← split, ← here] at munch
      rw [← here] at split
      by_cases token : AtToken lexer rest
      · rw [← here] at token
        rcases reads.clear_or_indent named token munch split blank (here ▸ skipped.head) with
          clear | ⟨not_end, rest_eq, less⟩
        · rwa [here] at clear
        · have again : Gap lexer s'.rest [] rest := by
            rw [rest_eq, here]
            exact gap_of_head skipped.head
          refine fewer _ less (.call lexes more call) (fun l mem => ?_) again rfl
          rcases List.mem_append.mp mem with old | new
          · exact more l old
          · rwa [List.mem_singleton.mp new]
      · refine ⟨fun c comment zero => ?_, fun token' => absurd token' token⟩
        rw [← here] at comment zero
        simp [reads.no_end comment] at zero
  · refine ⟨fun c here zero => ?_, fun token => absurd token.stop stop⟩
    refine stop fun c' length here' closed => ?_
    rw [here] at here'
    obtain rfl := Option.some.inj here'
    exact Option.some.inj (closed.symm.trans zero)

/-- The source is partitioned into the longest matches and what is to skip if and only if it is
    clear what is read at each position. -/
theorem maximalMunch_iff {patterns : PatternEngine} (defined : Defined patterns lexer)
    (src : List Char) : MaximalMunch engine lexer src ↔ AllClear engine lexer src := by
  obtain ⟨named, indexed⟩ := defined.invariants
  refine ⟨fun maximal _ _ lexes more _ _ skipped => maximal.clear named indexed lexes more skipped,
    fun clear => ⟨fun lexes more => call_of_clear named indexed (clear lexes more), ?_⟩⟩
  intro lexems s lexes
  induction lexes with
  | start => exact .nothing src
  | call lexes more call ih =>
    obtain ⟨lexem, s', gap, piece, blanks, call', munched⟩ :=
      call_of_clear named indexed (clear lexes more)
    obtain ⟨rfl, rfl⟩ := call.unique call'
    have split := munched.gap.split
    rw [split] at ih munched
    exact .lexem ih munched

theorem not_clear_of_keyword {d : LexemDef} (token : AtToken lexer rest)
    (mem : d ∈ lexer.triedAt rest) (keyword : d.keyword = true)
    (zero : ∀ d ∈ lexer.triedAt rest, matchLength engine rest d = 0) :
    ¬ Clear engine lexer rest := by
  intro clear
  rcases clear.token token with ⟨best, tried, preferred, -⟩ | ⟨-, plain⟩
  · exact absurd (zero best tried) preferred.positive.ne'
  · simp [plain d mem] at keyword

theorem maximalMunch_iff_equals : ∃ lexer, defineKeyword Plain.patterns "==" "" {} = .ok lexer ∧
    ¬ MaximalMunch Plain.engine lexer ['='] := by
  obtain ⟨lexer, built, token, ⟨d, mem, keyword⟩, zero, -⟩ := equals_tried
  have head : ∀ ch ∈ ['='].head?, isBlank ch = false := by
    intro ch mem
    rw [← Option.some.inj mem]
    rfl
  refine ⟨lexer, built, fun maximal => not_clear_of_keyword token mem keyword zero ?_⟩
  exact (maximalMunch_iff (.keyword .empty built) ['=']).mp maximal .start (by simp)
    (gap_of_head head)

/-- The keyword is returned with an empty match. -/
theorem keyword_without_match : ∃ lexer,
    defineKeyword Plain.patterns "==" "" {} = .ok lexer ∧ Defined Plain.patterns lexer ∧
    Calls Plain.engine lexer (.ofSource ['=']) ⟨"==", 1, "", 1⟩ (.ofSource ['=']) ∧
    ¬ MaximalMunch Plain.engine lexer ['='] := by
  obtain ⟨lexer, built, token, ⟨d, mem, keyword⟩, zero, call⟩ := equals_tried
  have defined : Defined Plain.patterns lexer := .keyword .empty built
  have head : ∀ ch ∈ ['='].head?, isBlank ch = false := by
    intro ch mem
    rw [← Option.some.inj mem]
    rfl
  refine ⟨lexer, built, defined, call, fun maximal => ?_⟩
  exact not_clear_of_keyword token mem keyword zero
    (maximal.clear defined.invariants.1 defined.invariants.2 .start (by simp) (gap_of_head head))

end Mewa.Lexer
