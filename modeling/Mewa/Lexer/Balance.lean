/- Module: Mewa/Lexer/Balance
   digest: When every opened indentation of a source is closed before its end. -/

import Mathlib.Logic.Relation
import Mewa.Lexer.OffSide

set_option autoImplicit false
set_option relaxedAutoImplicit false

namespace Mewa.Lexer

open Mewa.Lib

/-! The texts of a source in their order, without a stack. -/

/-- A position of a source, with the indentations of the lines that a text has begun before it. -/
structure Place where
  passed : List Char
  rest : List Char
  counts : List Int

namespace Place

def ofSource (src : List Char) : Place := ⟨[], src, []⟩

def behind (place : Place) (n : Nat) : Place :=
  { place with
    passed := (place.rest.take n).reverse ++ place.passed
    rest := place.rest.drop n }

def skipBlanks (place : Place) : Place := place.behind (place.rest.takeWhile isBlank).length

/-- A text stands here. -/
def count (tabSize : Int) (place : Place) : Place :=
  { place with counts := place.counts ++ ((Delivery.text place.passed).count tabSize).toList }

/-- No line is indented below zero, and the last one is not indented. -/
def Level (place : Place) : Prop :=
  (∀ count ∈ place.counts, 0 ≤ count) ∧ place.counts.getLast?.getD 0 = 0

end Place

variable (engine : PatternSearch) (lexer : Lexer)

/-- The next position of a source: behind a text, a character that begins none, or the begin of a
    comment that has no end. -/
inductive Steps (place : Place) : Place → Prop
  | text {gap rest : List Char} {length : Nat} {d : LexemDef} : Gap lexer place.rest gap rest →
      AtToken lexer rest → ChosenAt engine lexer rest (length, some d) → d.id ≠ 0 →
      Steps place
        (((place.behind gap.length).count lexer.indentLexems.tabSize).behind length).skipBlanks
  | bad {gap rest : List Char} : Gap lexer place.rest gap rest → AtToken lexer rest →
      ChosenAt engine lexer rest (0, none) →
      Steps place ((place.behind gap.length).behind (parseChar rest).length).skipBlanks
  | unclosed {gap rest : List Char} (c : BracketCommentDef) : Gap lexer place.rest gap rest →
      lexer.commentAt rest = some (.bracket c) → Comment.length (.bracket c) rest = none →
      Steps place ((place.behind gap.length).behind (Comment.bracket c).opening.length)

def Reaches (src : List Char) : Place → Prop :=
  Relation.ReflTransGen (Steps engine lexer) (.ofSource src)

/-- The rest of the source is a gap and a comment up to the end of a line that has no end. -/
def EndsInComment (text : List Char) : Prop :=
  ∃ gap rest c, Gap lexer text gap rest ∧ lexer.commentAt rest = some (.eoln c) ∧
    Comment.length (.eoln c) rest = none

/-- The source ends in such a comment while its lines do not end without indentation. -/
def Hidden (src : List Char) : Prop :=
  ∃ place, Reaches engine lexer src place ∧ EndsInComment lexer place.rest ∧ ¬ place.Level

variable {engine lexer} {src : List Char} {place next next' : Place} {s s' : Scanner}
  {lexem : Lexem}

theorem stop_of_unclosed {rest : List Char} {c : Comment} (here : lexer.commentAt rest = some c)
    (none : c.length rest = none) : Stop lexer rest := by
  intro c' length here' closed
  rw [here] at here'
  obtain rfl := Option.some.inj here'
  simp [none] at closed

theorem Steps.stop (step : Steps engine lexer place next) {gap rest : List Char}
    (skipped : Gap lexer place.rest gap rest) (stop : Stop lexer rest) :
    AtToken lexer rest ∨ ∃ c, lexer.commentAt rest = some (.bracket c) := by
  cases step with
  | text skipped' token _ _ =>
    obtain ⟨-, rfl⟩ := skipped.unique skipped' stop token.stop
    exact Or.inl token
  | bad skipped' token _ =>
    obtain ⟨-, rfl⟩ := skipped.unique skipped' stop token.stop
    exact Or.inl token
  | unclosed c skipped' here none =>
    obtain ⟨-, rfl⟩ := skipped.unique skipped' stop (stop_of_unclosed here none)
    exact Or.inr ⟨c, here⟩

theorem no_steps_of_atEnd {gap rest : List Char} (skipped : Gap lexer place.rest gap rest)
    (ended : atEnd rest = true) : ¬ Steps engine lexer place next := by
  intro step
  rcases step.stop skipped (stop_of_atEnd ended) with token | ⟨c, here⟩
  · simp [token.some_char] at ended
  · simp [commentAt, ended] at here

theorem no_steps_of_comment (ends : EndsInComment lexer place.rest) :
    ¬ Steps engine lexer place next := by
  intro step
  obtain ⟨gap, rest, c, skipped, comment, none⟩ := ends
  rcases step.stop skipped (stop_of_unclosed comment none) with token | ⟨c', here⟩
  · simp [token.no_comment] at comment
  · simp [comment] at here

theorem Steps.unique (step : Steps engine lexer place next) (step' : Steps engine lexer place next') :
    next = next' := by
  cases step with
  | @text gap rest length d skipped token chosen _ =>
    cases step' with
    | text skipped' token' chosen' _ =>
      obtain ⟨rfl, rfl⟩ := skipped.unique skipped' token.stop token'.stop
      rw [show length = _ from Nat.le_antisymm (chosen.le chosen') (chosen'.le chosen)]
    | bad skipped' token' chosen' =>
      obtain ⟨rfl, rfl⟩ := skipped.unique skipped' token.stop token'.stop
      exact absurd chosen' chosen.not_none
    | unclosed c skipped' here none =>
      obtain ⟨rfl, rfl⟩ := skipped.unique skipped' token.stop (stop_of_unclosed here none)
      simp [token.no_comment] at here
  | @bad gap rest skipped token chosen =>
    cases step' with
    | text skipped' token' chosen' _ =>
      obtain ⟨rfl, rfl⟩ := skipped.unique skipped' token.stop token'.stop
      exact absurd chosen chosen'.not_none
    | bad skipped' token' _ =>
      obtain ⟨rfl, rfl⟩ := skipped.unique skipped' token.stop token'.stop
      rfl
    | unclosed c skipped' here none =>
      obtain ⟨rfl, rfl⟩ := skipped.unique skipped' token.stop (stop_of_unclosed here none)
      simp [token.no_comment] at here
  | @unclosed gap rest c skipped here none =>
    cases step' with
    | text skipped' token' _ _ =>
      obtain ⟨rfl, rfl⟩ := skipped.unique skipped' (stop_of_unclosed here none) token'.stop
      simp [token'.no_comment] at here
    | bad skipped' token' _ =>
      obtain ⟨rfl, rfl⟩ := skipped.unique skipped' (stop_of_unclosed here none) token'.stop
      simp [token'.no_comment] at here
    | unclosed c' skipped' here' none' =>
      obtain ⟨rfl, rfl⟩ := skipped.unique skipped' (stop_of_unclosed here none)
        (stop_of_unclosed here' none')
      rw [here] at here'
      obtain rfl := Comment.bracket.inj (Option.some.inj here')
      rfl

theorem Reaches.unique (reaches : Reaches engine lexer src place)
    (reaches' : Reaches engine lexer src next) (last : ∀ place', ¬ Steps engine lexer place place')
    (last' : ∀ place', ¬ Steps engine lexer next place') : place = next := by
  have unique : Relator.RightUnique (Steps engine lexer) := fun _ _ _ step step' => step.unique step'
  rcases Relation.ReflTransGen.total_of_right_unique unique reaches reaches' with path | path
  · exact (path.cases_head.resolve_right fun ⟨_, step, _⟩ => last _ step)
  · exact (path.cases_head.resolve_right fun ⟨_, step, _⟩ => last' _ step).symm

theorem Steps.rest (step : Steps engine lexer place next) : next.rest <:+ place.rest := by
  cases step with
  | text => exact (List.drop_suffix _ _).trans ((List.drop_suffix _ _).trans (List.drop_suffix _ _))
  | bad => exact (List.drop_suffix _ _).trans ((List.drop_suffix _ _).trans (List.drop_suffix _ _))
  | unclosed => exact (List.drop_suffix _ _).trans (List.drop_suffix _ _)

theorem Reaches.rest (reaches : Reaches engine lexer src place) : place.rest <:+ src := by
  induction reaches with
  | refl => exact List.suffix_rfl
  | tail _ step ih => exact step.rest.trans ih

theorem mem_of_commentAt {text : List Char} {c : EolnCommentDef}
    (here : lexer.commentAt text = some (.eoln c)) : c ∈ lexer.eolnComments := by
  unfold commentAt at here
  split at here
  · simp at here
  · obtain ⟨idx, -, found⟩ := List.exists_of_findSome?_eq_some here
    unfold commentOf at found
    split at found
    · obtain ⟨d, first, same⟩ := Option.map_eq_some_iff.mp found
      rw [← Comment.eoln.inj same]
      exact List.mem_of_find?_eq_some first
    · split at found
      · obtain ⟨d, -, same⟩ := Option.map_eq_some_iff.mp found
        simp at same
      · simp at found

/-- Nothing is hidden in a source without a character of the begin of each such comment. -/
theorem not_hidden_of_absent
    (absent : ∀ c ∈ lexer.eolnComments, ∃ ch ∈ cstr c.opening.toList, ch ∉ src) :
    ¬ Hidden engine lexer src := by
  rintro ⟨place, reaches, ⟨gap, rest, c, skipped, here, -⟩, -⟩
  obtain ⟨ch, mem, outside⟩ := absent c (mem_of_commentAt here)
  have inside : ch ∈ rest :=
    ((commentAt_opening here).trans (List.takeWhile_prefix _)).subset mem
  refine outside (reaches.rest.subset ?_)
  rw [skipped.split]
  exact List.mem_append_right _ inside

/-! The scanner goes from position to position. -/

def placeOf (s : Scanner) (counts : List Int) : Place := ⟨s.passed, s.rest, counts⟩

theorem place_advance (n : Nat) (counts : List Int) :
    placeOf (s.advance n) counts = (placeOf s counts).behind n := by
  rw [placeOf, Scanner.advance_passed, Scanner.advance_rest]
  rfl

theorem place_skipBlanks (counts : List Int) :
    placeOf s.skipBlanks counts = (placeOf s counts).skipBlanks := place_advance _ _

/-- The scanner stands at a position of the source, or behind the gap after it. -/
inductive Stands (engine : PatternSearch) (lexer : Lexer) (src : List Char) (s : Scanner)
    (counts : List Int) : Prop
  | here : Reaches engine lexer src (placeOf s counts) → Stands engine lexer src s counts
  | skipped {place : Place} {gap : List Char} : Reaches engine lexer src place →
      place.counts = counts → Gap lexer place.rest gap s.rest → Stop lexer s.rest →
      placeOf s counts = place.behind gap.length → Stands engine lexer src s counts

theorem Stands.skip {counts : List Int} (stands : Stands engine lexer src s counts)
    {gap rest : List Char} (skipped : Gap lexer s.rest gap rest) (stop : Stop lexer rest) :
    ∃ place gap', Reaches engine lexer src place ∧ place.counts = counts ∧
      Gap lexer place.rest gap' rest ∧
      placeOf (s.advance gap.length) counts = place.behind gap'.length := by
  cases stands with
  | here reaches => exact ⟨_, gap, reaches, rfl, skipped, place_advance _ _⟩
  | @skipped place gap' reaches same before stop' here =>
    obtain ⟨rfl, rfl⟩ := skipped.unique (gap_of_head before.head) stop stop'
    exact ⟨place, gap', reaches, same, before, here⟩

theorem Stands.step (named : Named lexer) {ds : List Delivery} {delivery : Delivery}
    (stands : Stands engine lexer src s (countsOf lexer.indentLexems.tabSize ds))
    (delivers : Delivers engine lexer s delivery lexem s') (more : lexem.id ≠ 0) :
    Stands engine lexer src s' (countsOf lexer.indentLexems.tabSize (ds ++ [delivery])) := by
  cases delivers with
  | @indent gap rest _ _ _ _ _ skipped token _ _ read _ =>
    obtain ⟨place, gap', reaches, same, before, here⟩ := stands.skip skipped token.stop
    obtain ⟨rest_eq, passed_eq⟩ := indentAt_rest lexer (s.advance gap.length)
    rw [read] at rest_eq passed_eq
    have rest_eq := rest_eq.trans (advance_gap_rest skipped)
    rw [countsOf_other _ rfl]
    refine .skipped reaches same (rest_eq ▸ before) (rest_eq ▸ token.stop) ?_
    rw [← here, placeOf, placeOf, passed_eq, rest_eq, advance_gap_rest skipped]
  | @closing gap rest _ _ _ skipped ended _ =>
    obtain ⟨place, gap', reaches, same, before, here⟩ := stands.skip skipped (stop_of_atEnd ended)
    have rest_eq := advance_gap_rest skipped
    rw [countsOf_other _ rfl]
    exact .skipped reaches same (rest_eq.symm ▸ before) (rest_eq.symm ▸ stop_of_atEnd ended) here
  | @text gap rest length d after skipped token chosen number read =>
    obtain ⟨place, gap', reaches, same, before, here⟩ := stands.skip skipped token.stop
    obtain ⟨rest_eq, passed_eq⟩ := indentAt_rest lexer (s.advance gap.length)
    rw [read] at rest_eq passed_eq
    have next := Steps.text before token chosen number
    have passed : (s.advance gap.length).passed = (place.behind gap'.length).passed :=
      congrArg Place.passed here
    have behind : placeOf after
        (countsOf lexer.indentLexems.tabSize (ds ++ [.text (s.advance gap.length).passed])) =
          (place.behind gap'.length).count lexer.indentLexems.tabSize := by
      rw [countsOf_snoc, Place.count, ← passed, ← here, placeOf, passed_eq, rest_eq]
      rfl
    refine .here ?_
    rw [place_skipBlanks, place_advance, behind]
    exact reaches.tail next
  | @other gap rest _ _ skipped reads plain =>
    have stop := reads.stop
    rw [advance_gap_rest skipped] at stop
    obtain ⟨place, gap', reaches, same, before, here⟩ := stands.skip skipped stop
    have rest_eq := advance_gap_rest skipped
    rw [countsOf_other _ rfl]
    cases reads with
    | ended => exact absurd rfl more
    | unindented name _ defined _ =>
      have positive := named.indent_pos (isIndent_indentId .IndentClose defined (by simp))
      exact absurd positive (not_lt.mpr plain)
    | unclosed c comment none =>
      rw [rest_eq] at comment none
      cases c with
      | eoln c => exact absurd rfl more
      | bracket c =>
        refine .here ?_
        rw [place_advance, here]
        exact reaches.tail (.unclosed c before comment none)
    | bad token chosen =>
      rw [rest_eq] at token chosen
      refine .here ?_
      rw [place_skipBlanks, place_advance, here, rest_eq]
      exact reaches.tail (.bad before token chosen)
    | indented name _ _ _ defined _ some_token =>
      have positive := named.indent_pos (isIndent_indentId _ defined some_token)
      exact absurd positive (not_lt.mpr plain)
    | token _ _ number _ =>
      dsimp only at plain
      omega

theorem Deliveries.stands (named : Named lexer) {run : List (Delivery × Lexem)}
    (deliveries : Deliveries engine lexer (.ofSource src) run s)
    (more : ∀ l ∈ run.map Prod.snd, l.id ≠ 0) :
    Stands engine lexer src s (countsOf lexer.indentLexems.tabSize (run.map Prod.fst)) := by
  induction deliveries with
  | start => exact .here .refl
  | call _ _ delivers ih =>
    rw [List.map_append, List.forall_mem_append] at more
    rw [List.map_append]
    exact (ih more.1).step named delivers (more.2 _ List.mem_cons_self)

/-! The end of the source. -/

/-- The end is read when no indentation is open, or in a comment without end. -/
theorem Reads.ends (named : Named lexer) {gap rest : List Char}
    (skipped : Gap lexer s.rest gap rest)
    (h : Reads engine lexer (s.advance gap.length) lexem s') (ended : lexem.id = 0) :
    atEnd rest = true ∧ (lexer.indentLexems.defined = true → s.indentstk = []) ∨
      ∃ c, lexer.commentAt rest = some (.eoln c) ∧ Comment.length (.eoln c) rest = none := by
  have here := advance_gap_rest skipped
  cases h with
  | ended at_end empty =>
    rw [here] at at_end
    rw [(Scanner.advance_indent _).1] at empty
    exact Or.inl ⟨at_end, empty⟩
  | unindented name _ defined _ =>
    have positive := named.indent_pos (isIndent_indentId .IndentClose defined (by simp))
    exact absurd ended positive.ne'
  | unclosed c comment none =>
    rw [here] at comment none
    cases c with
    | eoln d => exact Or.inr ⟨d, comment, none⟩
    | bracket d => simp [Comment.unclosed] at ended
  | bad => simp at ended
  | indented name _ _ _ defined _ some_token =>
    have positive := named.indent_pos (isIndent_indentId _ defined some_token)
    exact absurd ended positive.ne'
  | token _ _ unnamed _ => exact absurd (by simpa using ended) unnamed

theorem balanced_iff_nil (named : Named lexer) (indexed : Indexed lexer)
    (opened : lexer.indentLexems.opening ≠ 0) (unshared : Unshared lexer) {lexems : List Lexem}
    (lexes : Lexes engine lexer (.ofSource src) lexems s) :
    lexer.Balanced lexems ↔ s.indentstk = [] := by
  have counts := lexes.counts named indexed opened unshared
  have none : (Scanner.ofSource src).indentstk.length = 0 := rfl
  constructor
  · intro balanced
    have closed := balanced.closed
    exact List.length_eq_zero_iff.mp (by omega)
  · intro empty
    refine ⟨fun before part => ?_, ?_⟩
    · obtain ⟨s', lexes'⟩ := lexes.of_part part
      have := lexes'.counts named indexed opened unshared
      omega
    · rw [empty] at counts
      exact (by simpa [Scanner.ofSource] using counts.ge)

/-- At the end of a source all indentations are closed if and only if the source does not end within
    a comment up to the end of the line while its lines do not end without indentation. -/
theorem balanced_iff {patterns : PatternEngine} (defined : Defined patterns lexer)
    (opened : lexer.indentLexems.opening ≠ 0) (unshared : Unshared lexer) {src : List Char}
    {lexems : List Lexem} (lexes : Lexes engine lexer (.ofSource src) lexems s)
    (more : ∀ l ∈ lexems, l.id ≠ 0) (call : Calls engine lexer s lexem s') (ended : lexem.id = 0) :
    lexer.Balanced lexems ↔ ¬ Hidden engine lexer src := by
  obtain ⟨named, indexed⟩ := defined.invariants
  have usable : lexer.indentLexems.defined = true := by simpa [IndentLexems.defined] using opened
  rw [balanced_iff_nil named indexed opened unshared lexes]
  obtain ⟨gap, rest, skipped, -, reads⟩ := calls_spec named indexed call
  have stop := reads.stop
  rw [advance_gap_rest skipped] at stop
  obtain ⟨run, deliveries, rfl⟩ := lexes.deliveries named indexed
  obtain ⟨place, gap', reaches, same, before, -⟩ :=
    (deliveries.stands named more).skip skipped stop
  rcases reads.ends named skipped ended with ⟨at_end, empty⟩ | ⟨c, comment, none⟩
  · -- another last position of the source would have to be this one
    refine iff_of_true (empty usable) ?_
    rintro ⟨hidden, reaches', ends, -⟩
    obtain rfl := reaches.unique reaches' (fun _ => no_steps_of_atEnd before at_end)
      fun _ => no_steps_of_comment ends
    obtain ⟨gap'', rest', d, skipped', comment, unclosed⟩ := ends
    obtain ⟨-, rfl⟩ := before.unique skipped' stop (stop_of_unclosed comment unclosed)
    simp [commentAt, at_end] at comment
  · have ends : EndsInComment lexer place.rest := ⟨gap', rest, c, before, comment, none⟩
    have level : s.indentstk = [] ↔ place.Level := by
      have tracked : s.indentstk = nested 0 place.counts := by
        cases (deliveries.indented named opened).tracks with
        | settled stk => rw [stk, same]
        | beginning text _ =>
          obtain ⟨rfl, -⟩ := text.gap skipped stop
          simp [text.token.no_comment] at comment
        | ended at_end =>
          obtain ⟨rfl, -⟩ := gap_of_atEnd at_end skipped stop
          simp [commentAt, at_end] at comment
      rw [tracked, nested_eq_nil_iff]
      rfl
    rw [level]
    constructor
    · rintro flat ⟨hidden, reaches', ends', deep⟩
      obtain rfl := reaches.unique reaches' (fun _ => no_steps_of_comment ends)
        fun _ => no_steps_of_comment ends'
      exact deep flat
    · intro shown
      by_contra deep
      exact shown ⟨place, reaches, ends, deep⟩

theorem balanced_iff_closed : ∃ lexer lexems s lexem s', indentLexer = .ok lexer ∧
    Lexes Plain.engine lexer (.ofSource "a\n a".toList) lexems s ∧
    Calls Plain.engine lexer s lexem s' ∧ lexem.id = 0 ∧ lexer.opens lexems = 1 ∧
    lexer.Balanced lexems := by
  have shape : (indentLexer.toOption.bind fun lexer => do
      let run ← (lexToEnd Plain.engine lexer 5 10 (.ofSource "a\n a".toList)).toOption
      some (lexer.indentLexems.opening != 0 && lexer.defar.all (fun d => d.source == "" ||
          (d.id != lexer.indentLexems.opening && d.id != lexer.indentLexems.closing)) &&
        lexer.opens run.1 == 1 && lexer.eolnComments.all fun c =>
          (cstr c.opening.toList).any fun ch => !"a\n a".toList.contains ch)) =
      some true := by decide +kernel
  obtain ⟨lexer, built, shape⟩ := Option.bind_eq_some_iff.mp shape
  obtain ⟨⟨lexems, s⟩, run, holds⟩ := Option.bind_eq_some_iff.mp shape
  have built := toOption_eq_some.mp built
  obtain ⟨lexes, more, lexem, s', call, ended⟩ := lexes_of_lexToEnd (toOption_eq_some.mp run)
  simp only [Option.some.injEq, Bool.and_eq_true, bne_iff_ne, List.all_eq_true, Bool.or_eq_true,
    beq_iff_eq, List.any_eq_true, Bool.not_eq_true', List.contains_eq_mem,
    decide_eq_false_iff_not] at holds
  obtain ⟨⟨⟨opened, unshared⟩, one⟩, absent⟩ := holds
  refine ⟨lexer, lexems, s, lexem, s', built, lexes, call, ended, one, ?_⟩
  exact (balanced_iff (defined_indentLexer built) opened
    (fun d mem source => (unshared d mem).resolve_left source) lexes more call ended).mpr
    (not_hidden_of_absent absent)

/-- A comment in the last line, without an end of the line, hides that an indentation is open. -/
theorem comment_not_closed : ∃ lexer lexems s lexem s', indentLexer = .ok lexer ∧
    Defined Plain.patterns lexer ∧ Lexes Plain.engine lexer (.ofSource "a\n a #".toList) lexems s ∧
    Calls Plain.engine lexer s lexem s' ∧ lexem.id = 0 ∧ (∀ l ∈ lexems, l.id ≠ -1) ∧
    ¬ lexer.Balanced lexems := by
  have shape : (indentLexer.toOption.bind fun lexer => do
      let run ← (lexToEnd Plain.engine lexer 5 10 (.ofSource "a\n a #".toList)).toOption
      some (decide (lexer.closes run.1 < lexer.opens run.1) &&
        run.1.all fun l => l.id != -1)) = some true := by decide +kernel
  obtain ⟨lexer, built, shape⟩ := Option.bind_eq_some_iff.mp shape
  obtain ⟨⟨lexems, s⟩, run, holds⟩ := Option.bind_eq_some_iff.mp shape
  have built := toOption_eq_some.mp built
  obtain ⟨lexes, -, lexem, s', call, ended⟩ := lexes_of_lexToEnd (toOption_eq_some.mp run)
  simp only [Option.some.injEq, Bool.and_eq_true, decide_eq_true_eq, List.all_eq_true,
    bne_iff_ne] at holds
  obtain ⟨less, no_error⟩ := holds
  exact ⟨lexer, lexems, s, lexem, s', built, defined_indentLexer built, lexes, call, ended,
    no_error, fun balanced => absurd balanced.closed (by omega)⟩

end Mewa.Lexer
