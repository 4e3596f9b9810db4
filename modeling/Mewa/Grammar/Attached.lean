/- Module: Mewa/Grammar/Attached
   digest: When the decorators are attached to the declarations that they are written before. -/

import Mewa.Grammar.Scan

set_option autoImplicit false
set_option relaxedAutoImplicit false

namespace Mewa

open Mewa.Lib

namespace Grammar

section Result

variable {patterns : PatternEngine} {engine : PatternSearch} {lexer : Lexer} {src : List Char}
  {items : List Item} {trailing : List WrittenComment} {rest : List Char}

theorem get_attached (items : List Item) (line : Int) :
    (LanguageDecoratorMap.ofList (attached items)).get line =
      .ok (items.flatMap fun it =>
        if it.lexem.line = line then takenDecorators it.comments else []) := by
  rw [LanguageDecoratorMap.get_ofList, attached, List.filter_flatMap, List.map_flatMap]
  congr 1
  refine List.flatMap_congr fun it _ => ?_
  by_cases here : it.lexem.line = line
  · have all : ((takenDecorators it.comments).map fun dc => (line, dc)).filter
        (fun e => decide (e.1 = line)) = (takenDecorators it.comments).map fun dc => (line, dc) :=
      List.filter_eq_self.mpr (by simp)
    rw [here, all, if_pos rfl, List.map_map]
    exact List.map_id _
  · simp [here]

theorem ended_or_unclosed (comments : GrammarComments patterns lexer) {s s' : Scanner}
    {gap : List Char} {lexem : Lexem} (commented : Commented lexer s.rest trailing gap rest)
    (stop : Lexer.Stop lexer rest) (call : Lexer.Calls engine lexer s lexem s')
    (ended : lexem.id = 0) (more : Lexer.atEnd rest = false) :
    ∃ d, lexer.commentAt rest = some (.eoln d) ∧ (Comment.eoln d).length rest = none := by
  obtain ⟨named, -⟩ := comments.defined.invariants
  obtain ⟨here, -, reads⟩ := reads_behind comments commented stop call
  cases reads with
  | ended at_end =>
    rw [here, more] at at_end
    cases at_end
  | unindented _ at_end =>
    rw [here, more] at at_end
    cases at_end
  | unclosed c comment unclosed =>
    rw [here] at comment unclosed
    cases c with
    | eoln d => exact ⟨d, comment, unclosed⟩
    | bracket d => simp [Comment.unclosed] at ended
  | bad => simp at ended
  | indented _ _ _ _ defined read some_token =>
    have := named.indent_pos (Lexer.isIndent_indentId _ defined some_token)
    dsimp only at ended
    omega
  | @token length d _ _ chosen some_id _ => exact absurd (by simpa using ended) some_id

theorem scan_cases (comments : GrammarComments patterns lexer)
    (accepted : Accepted patterns engine lexer src items trailing rest)
    (lineComments : LineComments items trailing) :
    (ReservedTaken items ∧ ∃ fuel, parseLanguageDecoratorMap engine lexer fuel src =
        throw .UsingReservedAttributeNameInGrammarDef) ∧
        (∀ fuel map, parseLanguageDecoratorMap engine lexer fuel src ≠ .ok map) ∨
      ¬ ReservedTaken items ∧ (Lexer.atEnd rest = true ∧
        (∃ fuel, parseLanguageDecoratorMap engine lexer fuel src = .ok (.ofList (attached items))) ∨
      Lexer.atEnd rest = false ∧
        ∀ fuel map, parseLanguageDecoratorMap engine lexer fuel src ≠ .ok map) := by
  obtain ⟨⟨last, gap, lexed, commented, stop, lexem, s', call, ended⟩, -⟩ := accepted
  have lines : ∀ it ∈ items, ∀ c ∈ it.comments, ∃ d, c.kind = .eoln d := fun it mem c mem' =>
    lineComments c (List.mem_append_left _ (List.mem_flatMap.mpr ⟨it, mem, mem'⟩))
  have last_lines : ∀ c ∈ trailing, ∃ d, c.kind = .eoln d := fun c mem =>
    lineComments c (List.mem_append_right _ mem)
  obtain ⟨n, steps⟩ := decoratorLoop_items comments lexed lines
  have run : ∀ fuel, parseLanguageDecoratorMap engine lexer (fuel + 1 + n) src =
      addItems items (.ofList []) >>= fun rt =>
        decoratorLoop engine lexer (fuel + 1) ⟨last, 0, [], rt⟩ := fun fuel => steps fuel _
  have longer : ∀ {fuel map} (more : Nat), parseLanguageDecoratorMap engine lexer fuel src = .ok map →
      parseLanguageDecoratorMap engine lexer (fuel + more + 1 + n) src = .ok map := by
    intro fuel map more h
    have := decoratorLoop_mono h (more + 1 + n)
    rwa [← Nat.add_assoc, ← Nat.add_assoc] at this
  rcases addItems_cases items [] with ⟨reserved, thrown⟩ | ⟨plain, added⟩
  · refine Or.inl ⟨⟨reserved, 0 + 1 + n, by rw [run, thrown]; rfl⟩, fun fuel map returned => ?_⟩
    have := longer 0 returned
    rw [run, thrown] at this
    cases this
  · refine Or.inr ⟨plain, ?_⟩
    simp only [added, ok_bind, List.nil_append] at run
    cases closed : Lexer.atEnd rest with
    | true =>
      refine Or.inl ⟨rfl, trailing.length + 1 + n, ?_⟩
      have more : trailing.length + 1 = 0 + 1 + trailing.length := by omega
      rw [run, more, decoratorLoop_closed comments commented last_lines closed]
    | false =>
      refine Or.inr ⟨rfl, fun fuel map returned => ?_⟩
      obtain ⟨d, here, unclosed⟩ := ended_or_unclosed comments commented stop call ended closed
      have more : fuel + trailing.length + 1 = fuel + 1 + trailing.length := by omega
      have := longer trailing.length returned
      rw [run, more, decoratorLoop_unclosed comments commented last_lines here unclosed] at this
      cases this

theorem reserved_iff_names (decorators : List LanguageDecorator) :
    (∃ dc ∈ decorators, LanguageDecorator.isReservedAttribute dc.name = true) ↔
      ∃ name ∈ decorators.map LanguageDecorator.name,
        LanguageDecorator.isReservedAttribute name = true := by
  simp

theorem reservedTaken_iff (lines : ∀ it ∈ items, ∀ c ∈ it.comments, LineText c) :
    ReservedTaken items ↔ ReservedWritten items := by
  refine exists_congr fun it => and_congr_right fun mem => ?_
  rw [reserved_iff_names, takenDecorators_names (lines it mem), ← reserved_iff_names]

theorem lexed_lineText {s s' : Scanner} (lexed : Lexed engine lexer s items s')
    (lines : ∀ it ∈ items, ∀ c ∈ it.comments, ∃ d, c.kind = .eoln d) :
    ∀ it ∈ items, ∀ c ∈ it.comments, LineText c := by
  induction lexed with
  | nil => simp
  | cons commented _ _ _ _ ih =>
    obtain ⟨head, tail⟩ := List.forall_mem_cons.mp lines
    exact List.forall_mem_cons.mpr ⟨commented.lineText head, ih tail⟩

theorem get_declared {before after : List Item} {it : Item}
    (lines : ∀ it ∈ items, ∀ c ∈ it.comments, LineText c)
    (ordered : items.Pairwise fun a b => a.lexem.line ≤ b.lexem.line ∧
      (b.comments ≠ [] → a.lexem.line < b.lexem.line))
    (split : items = before ++ it :: after) :
    (LanguageDecoratorMap.ofList (attached items)).get it.lexem.line = .ok (written it.comments) ↔
      AllKept it.comments ∧ ∀ jt ∈ before, jt.lexem.line = it.lexem.line → written jt.comments = [] := by
  subst split
  obtain ⟨-, from_here, earlier⟩ := List.pairwise_append.mp ordered
  obtain ⟨later, -⟩ := List.pairwise_cons.mp from_here
  have own := lines it (by simp)
  have none_later : (after.flatMap fun jt =>
      if jt.lexem.line = it.lexem.line then takenDecorators jt.comments else []) = [] := by
    refine List.flatMap_eq_nil_iff.mpr fun jt mem => ?_
    by_cases some_comment : jt.comments = []
    · rw [some_comment, ite_eq_right_iff]
      exact fun _ => rfl
    · have := (later jt mem).2 some_comment
      exact if_neg (by omega)
  rw [get_attached, List.flatMap_append, List.flatMap_cons, if_pos rfl, none_later, List.append_nil,
    Except.ok.injEq]
  by_cases some_comment : it.comments = []
  · have kept : AllKept it.comments := fun before' c after' split => by simp [some_comment] at split
    have empty : takenDecorators it.comments = [] ∧ written it.comments = [] := by
      rw [some_comment]
      exact ⟨rfl, rfl⟩
    rw [empty.1, empty.2, List.append_nil, List.flatMap_eq_nil_iff, and_iff_right kept]
    refine forall_congr' fun jt => forall_congr' fun mem => ?_
    rw [ite_eq_right_iff, takenDecorators_eq_nil_iff (lines jt (List.mem_append_left _ mem))]
  · have others : ∀ jt ∈ before, jt.lexem.line ≠ it.lexem.line := fun jt mem => by
      have := (earlier jt mem it List.mem_cons_self).2 some_comment
      omega
    have none_before : (before.flatMap fun jt =>
        if jt.lexem.line = it.lexem.line then takenDecorators jt.comments else []) = [] :=
      List.flatMap_eq_nil_iff.mpr fun jt mem => if_neg (others jt mem)
    rw [none_before, List.nil_append, takenDecorators_eq_iff own]
    exact (and_iff_left fun jt mem same => absurd same (others jt mem)).symm

end Result

/-- Where all comments end with their line, the decorators are attached to the declarations that they
    are written before, exactly if the comments are attachable or a reserved name is reported. -/
theorem decoratorsAttached_iff {patterns : PatternEngine} {engine : PatternSearch} {lexer : Lexer}
    {src : List Char} {items : List Item} {trailing : List WrittenComment} {rest : List Char}
    (built : grammarLexer patterns = .ok lexer)
    (accepted : Accepted patterns engine lexer src items trailing rest)
    (lineComments : LineComments items trailing) :
    DecoratorsAttached engine lexer src items ↔
      ReservedWritten items ∨ Attachable items rest := by
  have comments := GrammarComments.of_grammarLexer built
  obtain ⟨last, gap, lexed, -⟩ := accepted.lexed
  have kinds : ∀ it ∈ items, ∀ c ∈ it.comments, ∃ d, c.kind = .eoln d := fun it mem c mem' =>
    lineComments c (List.mem_append_left _ (List.mem_flatMap.mpr ⟨it, mem, mem'⟩))
  have lines := lexed_lineText lexed kinds
  have ordered := (lexed_lines comments lexed kinds).2
  have declared : (∀ before it, Declares items before it →
      (LanguageDecoratorMap.ofList (attached items)).get it.lexem.line =
        .ok (written it.comments)) ↔
      (∀ before it, Declares items before it → AllKept it.comments) ∧
        ∀ before it, Declares items before it → ∀ jt ∈ before,
          jt.lexem.line = it.lexem.line → written jt.comments = [] := by
    simp only [← forall_and]
    refine forall_congr' fun before => forall_congr' fun it => forall_congr' fun declares => ?_
    obtain ⟨after, split⟩ := declares.1
    exact get_declared lines ordered split
  rcases scan_cases comments accepted lineComments with
    ⟨⟨reserved, thrown⟩, -⟩ | ⟨plain, ⟨closed, fuel, returned⟩ | ⟨more, never⟩⟩
  · have reserved := (reservedTaken_iff lines).mp reserved
    exact iff_of_true (Or.inl ⟨reserved, thrown⟩) (Or.inl reserved)
  · rw [reservedTaken_iff lines] at plain
    constructor
    · rintro (⟨reserved, -⟩ | ⟨fuel', map, returned', all⟩)
      · exact absurd reserved plain
      · have first := decoratorLoop_mono returned fuel'
        have second := decoratorLoop_mono returned' fuel
        rw [Nat.add_comm] at second
        obtain rfl := Except.ok.inj (second.symm.trans first)
        obtain ⟨kept, own⟩ := declared.mp all
        exact Or.inr ⟨closed, kept, own⟩
    · rintro (reserved | attachable)
      · exact absurd reserved plain
      · exact Or.inr ⟨fuel, _, returned, declared.mpr ⟨attachable.kept, attachable.own⟩⟩
  · rw [reservedTaken_iff lines] at plain
    constructor
    · rintro (⟨reserved, -⟩ | ⟨fuel', map, returned', -⟩)
      · exact absurd reserved plain
      · exact absurd returned' (never fuel' map)
    · rintro (reserved | attachable)
      · exact absurd reserved plain
      · rw [attachable.closed] at more
        cases more

/-! Patterns of names and plain texts, for examples. -/

namespace Names

def isLetter (ch : Char) : Bool := ch.isAlpha || ch = '_'

def patterns : PatternEngine where
  compiles _ := true

def matched (pattern : String) (text : List Char) : Nat :=
  match pattern.toList with
  | '[' :: 'a' :: _ => (text.takeWhile isLetter).length
  | '[' :: '-' :: _ => (text.takeWhile isLetter).length
  | '[' :: _ => 0
  | literal => if literal.isPrefixOf text then literal.length else 0

theorem matched_le (pattern : String) (text : List Char) : matched pattern text ≤ text.length := by
  unfold matched
  split
  · exact (List.takeWhile_prefix _).length_le
  · exact (List.takeWhile_prefix _).length_le
  · omega
  · split
    · rename_i stands
      exact (List.isPrefixOf_iff_prefix.mp stands).length_le
    · omega

def engine : PatternSearch where
  search pattern text :=
    if matched pattern text = 0 then none else some ⟨matched pattern text, []⟩
  not_null := by
    intro pattern text found h
    obtain ⟨some_char, here⟩ := Option.ite_none_left_eq_some.mp h
    obtain rfl := Option.some.inj here
    exact Nat.pos_of_ne_zero some_char
  continuous := by
    intro pattern text found h
    obtain ⟨-, here⟩ := Option.ite_none_left_eq_some.mp h
    obtain rfl := Option.some.inj here
    exact matched_le pattern text

end Names

/-- A decorator without content before a rule without elements, with some blanks between. -/
def emptyRule (blanks : List Char) : List Char := '#' :: '@' :: 'a' :: '\n' :: (blanks ++ ['S', '=', ';'])

def emptyRuleItems (d : EolnCommentDef) (blanks : List Char) (line : Int) : List Item :=
  [⟨[⟨.eoln d, ['@', 'a'], blanks ++ ['S', '=', ';']⟩], ⟨"IDENT", 1, "S", line⟩⟩,
    ⟨[], ⟨"=", 8, "=", line⟩⟩, ⟨[], ⟨";", 11, ";", line⟩⟩]

def emptyRuleLexems (line : Int) : List GrammarLexem :=
  [⟨.IDENT, "S", "", line⟩, ⟨.EQUAL, "=", "", line⟩, ⟨.SEMICOLON, ";", "", line⟩]

/-- The calls of the lexer for the rule, and the rule as a grammar. -/
def readsEmptyRule (lexer : Lexer) (blanks : List Char) (line : Int) : Bool :=
  let passed := blanks.reverse ++ ['\n', 'a', '@', '#']
  blanks.all isBlank &&
  decide ((lexer.next Names.engine 2 (.ofSource (emptyRule blanks))).toOption =
    some (⟨"IDENT", 1, "S", line⟩, ⟨'S' :: passed, ['=', ';'], line, [], false⟩)) &&
  decide ((lexer.next Names.engine 1 ⟨'S' :: passed, ['=', ';'], line, [], false⟩).toOption =
    some (⟨"=", 8, "=", line⟩, ⟨'=' :: 'S' :: passed, [';'], line, [], false⟩)) &&
  decide ((lexer.next Names.engine 1 ⟨'=' :: 'S' :: passed, [';'], line, [], false⟩).toOption =
    some (⟨";", 11, ";", line⟩, ⟨';' :: '=' :: 'S' :: passed, [], line, [], false⟩)) &&
  decide ((lexer.next Names.engine 1 ⟨';' :: '=' :: 'S' :: passed, [], line, [], false⟩).toOption =
    some (⟨"", 0, "", line⟩, ⟨';' :: '=' :: 'S' :: passed, [], line, [], false⟩)) &&
  (parseLanguageDef Names.patterns ⟨emptyRuleLexems line, line⟩).toOption.isSome

theorem emptyRule_accepted {lexer : Lexer} {blanks : List Char} {line : Int}
    (built : grammarLexer Names.patterns = .ok lexer)
    (reads : readsEmptyRule lexer blanks line = true) :
    ∃ d, Accepted Names.patterns Names.engine lexer (emptyRule blanks)
      (emptyRuleItems d blanks line) [] [] := by
  have comments := GrammarComments.of_grammarLexer built
  simp only [readsEmptyRule, Bool.and_eq_true, decide_eq_true_eq, toOption_eq_some,
    List.all_eq_true] at reads
  obtain ⟨⟨⟨⟨⟨blank, first⟩, second⟩, third⟩, last⟩, parsed⟩ := reads
  have opening : lineOpening (emptyRule blanks) = some 1 := rfl
  obtain ⟨d, here, length⟩ := comments.commentAt_line opening
  have closed : (Comment.eoln d).length (emptyRule blanks) = some 4 := by
    rw [Comment.length, length]
    rfl
  have plain : (emptyRule blanks).dropWhile isBlank = emptyRule blanks := rfl
  have token : ∀ {ch : Char} {rest : List Char}, ch ≠ '\x00' → lineOpening (ch :: rest) = none →
      opensBlock (ch :: rest) = false → Lexer.AtToken lexer (ch :: rest) :=
    fun some_char line block => ⟨by simpa [Lexer.atEnd] using some_char,
      comments.commentAt_none line block⟩
  have spaces : (blanks ++ ['S', '=', ';']).takeWhile isBlank = blanks ∧
      (blanks ++ ['S', '=', ';']).dropWhile isBlank = ['S', '=', ';'] := by
    rw [List.takeWhile_append_of_pos blank, List.dropWhile_append_of_pos blank]
    exact ⟨by simp [isBlank], by simp [isBlank]⟩
  have commented : Commented lexer (emptyRule blanks)
      [⟨.eoln d, ['@', 'a'], blanks ++ ['S', '=', ';']⟩] ('#' :: '@' :: 'a' :: '\n' :: blanks)
      ['S', '=', ';'] := by
    have tail : Commented lexer (blanks ++ ['S', '=', ';']) [] blanks ['S', '=', ';'] := by
      have skipped : Commented lexer (blanks ++ ['S', '=', ';']) [] _ _ := .blanks _
      rwa [spaces.1, spaces.2] at skipped
    have whole := Commented.comment (plain.symm ▸ here) (plain.symm ▸ closed) (by decide) tail
    rw [length] at whole
    exact whole
  refine ⟨d, ⟨⟨_, [], .cons commented (token (by decide) rfl rfl) ⟨2, first⟩ (by simp)
    (.cons (.blanks _) (token (by decide) rfl rfl) ⟨1, second⟩ (by simp)
      (.cons (.blanks _) (token (by decide) rfl rfl) ⟨1, third⟩ (by simp) (.nil _))),
    .blanks [], ?_, _, _, ⟨1, last⟩, rfl⟩, ?_⟩⟩
  · intro c length here
    simp [Lexer.commentAt, Lexer.atEnd] at here
  · obtain ⟨langdef, accepted⟩ := Option.isSome_iff_exists.mp parsed
    exact ⟨["", "", ""], line, langdef, rfl, toOption_eq_some.mp accepted⟩

theorem emptyRule_declares {d : EolnCommentDef} {blanks : List Char} {line : Int}
    {before : List Item} {it : Item} (declares : Declares (emptyRuleItems d blanks line) before it) :
    before = [] ∧ it.comments = [⟨.eoln d, ['@', 'a'], blanks ++ ['S', '=', ';']⟩] := by
  obtain ⟨⟨after, split⟩, ends⟩ := declares
  match before, split with
  | [], split =>
    obtain ⟨rfl, -⟩ := List.cons.inj split
    exact ⟨rfl, rfl⟩
  | [first], split =>
    obtain ⟨rfl, -⟩ := List.cons.inj split
    exact absurd (ends _ rfl) (by simp)
  | [first, second], split =>
    obtain ⟨-, split⟩ := List.cons.inj split
    obtain ⟨rfl, -⟩ := List.cons.inj split
    exact absurd (ends _ rfl) (by simp)
  | first :: second :: third :: more, split =>
    have length := congrArg List.length split
    simp [emptyRuleItems] at length

theorem emptyRule_written (d : EolnCommentDef) (after : List Char) :
    written [⟨.eoln d, ['@', 'a'], after⟩] = [⟨"a", [""]⟩] := rfl

theorem emptyRule_plain (d : EolnCommentDef) (blanks : List Char) (line : Int) :
    ¬ ReservedWritten (emptyRuleItems d blanks line) := by
  rintro ⟨it, mem, dc, mem', reserved⟩
  simp only [emptyRuleItems, List.mem_cons, List.not_mem_nil, or_false] at mem
  rcases mem with rfl | rfl | rfl
  · rw [emptyRule_written, List.mem_singleton] at mem'
    rw [mem'] at reserved
    exact absurd reserved (by decide)
  · cases mem'
  · cases mem'

/-- A decorator directly before a rule is attached to its line. -/
theorem decoratorsAttached_emptyRule : ∃ lexer d,
    DecoratorsAttached Names.engine lexer (emptyRule []) (emptyRuleItems d [] 2) := by
  have run : ((grammarLexer Names.patterns).toOption.any fun lexer =>
      readsEmptyRule lexer [] 2) = true := by decide +kernel
  obtain ⟨lexer, built, reads⟩ := (Option.any_eq_true _ _).mp run
  have built := toOption_eq_some.mp built
  obtain ⟨d, accepted⟩ := emptyRule_accepted built reads
  refine ⟨lexer, d, (decoratorsAttached_iff built accepted ?_).mpr (Or.inr ⟨rfl, ?_, ?_⟩)⟩
  · intro c mem
    simp only [emptyRuleItems, List.flatMap_cons, List.flatMap_nil, List.append_nil,
      List.mem_singleton] at mem
    exact ⟨d, by rw [mem]⟩
  · intro before it declares first c after split some_written
    rw [(emptyRule_declares declares).2] at split
    have alone : c = ⟨.eoln d, ['@', 'a'], [] ++ ['S', '=', ';']⟩ :=
      (List.mem_singleton.mp (split ▸ List.mem_append_right _ List.mem_cons_self))
    rw [alone]
    refine ⟨by simp [isBlank], ?_, ?_⟩
    · change trimRight (splitDecoratorDef ['@', 'a']).2 = (splitDecoratorDef ['@', 'a']).2
      decide
    · change (skipSpaces ['@', 'a']).head? = some '@' → (splitDecoratorDef ['@', 'a']).1 ≠ []
      decide
  · intro before it declares jt mem
    rw [(emptyRule_declares declares).1] at mem
    cases mem

/-- A blank line between them becomes a part of the text of the decorator. -/
theorem blankLine_kept : ∃ lexer d, grammarLexer Names.patterns = .ok lexer ∧
    Accepted Names.patterns Names.engine lexer (emptyRule ['\n']) (emptyRuleItems d ['\n'] 3) [] [] ∧
    (∃ map, parseLanguageDecoratorMap Names.engine lexer 10 (emptyRule ['\n']) = .ok map ∧
      map.get 3 = .ok [⟨"a", ["\n"]⟩]) ∧
    ¬ DecoratorsAttached Names.engine lexer (emptyRule ['\n']) (emptyRuleItems d ['\n'] 3) := by
  have run : ((grammarLexer Names.patterns).toOption.any fun lexer =>
      readsEmptyRule lexer ['\n'] 3 &&
      ((parseLanguageDecoratorMap Names.engine lexer 10 (emptyRule ['\n'])).toOption.any fun map =>
        decide ((map.get 3).toOption = some [⟨"a", ["\n"]⟩]))) = true := by decide +kernel
  obtain ⟨lexer, built, checks⟩ := (Option.any_eq_true _ _).mp run
  have built := toOption_eq_some.mp built
  obtain ⟨reads, stored⟩ := Bool.and_eq_true_iff.mp checks
  obtain ⟨map, scanned, got⟩ := (Option.any_eq_true _ _).mp stored
  have scanned := toOption_eq_some.mp scanned
  have got := toOption_eq_some.mp (of_decide_eq_true got)
  obtain ⟨d, accepted⟩ := emptyRule_accepted built reads
  refine ⟨lexer, d, built, accepted, ⟨map, scanned, got⟩, ?_⟩
  rintro (⟨reserved, -⟩ | ⟨fuel, map', returned, all⟩)
  · exact emptyRule_plain d ['\n'] 3 reserved
  · have same := (decoratorLoop_mono returned 10).symm.trans
      ((Nat.add_comm 10 fuel) ▸ decoratorLoop_mono scanned fuel)
    obtain rfl := Except.ok.inj same
    have attached := all [] ⟨[⟨.eoln d, ['@', 'a'], ['\n', 'S', '=', ';']⟩], ⟨"IDENT", 1, "S", 3⟩⟩
      ⟨⟨_, rfl⟩, by simp⟩
    rw [emptyRule_written, got] at attached
    exact absurd attached (by simp)

end Grammar

end Mewa
