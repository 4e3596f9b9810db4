/- Module: Mewa/Compiler/Refused
   digest: The lexems that are consumed begin a sentence. A lexem that is refused cannot go on with
   them. -/

import Mewa.Compiler.Complete
import Mewa.Lib.Prefixes

set_option autoImplicit false
set_option relaxedAutoImplicit false

namespace Mewa.Compiler

open Mewa.Lib

section Runs

variable {prodlist : List ProductionDef} {lexer : Lexer} {h : WellFormed prodlist lexer}
  {lalr : LalrStates} {automaton : Automaton} {ctx : CompilerContext} {lexem : Lexem}
  {past future : List Lexem} {fuel : Nat}

theorem exists_viable (follows : Follows h lalr automaton)
    (fed : past.foldlM (feedSourceLexem automaton fuel) {} = .ok ctx) :
    (∃ f, Holds automaton.lexer ctx f) ∧
      ∃ g : ProductionForest prodlist, Viable h lalr ctx.stateStack g ∧ g.yield = past := by
  obtain ⟨ms, run⟩ : ∃ ms, Run automaton (Feed.start past 0) ms ⟨ctx, [Lexem.atEnd 0]⟩ :=
    run_of_feedSourceLexems fed
  have viable := run_viable follows run
  obtain ⟨f, replayed, holds⟩ := run_holds run
  have going : ms.any accepting = false := by
    by_contra accepted
    rw [Bool.not_eq_false] at accepted
    rw [accepted] at holds
    cases holds.2.1
  rw [going] at viable holds
  obtain ⟨g, viable, moves_eq⟩ := viable
  refine ⟨⟨f, holds.1⟩, g, viable, ?_⟩
  have same : f.yield = past := List.append_cancel_right holds.2
  have moves := ParseForest.moves_of_replay replayed
  rw [← same, ← tokensOf_moves, ← tokensOf_moves, moves, ← moves_eq]
  unfold actionMove
  rw [ParseForest.moves, List.nil_append, tokensOf_map, List.map_id]

theorem reached_of_fed (follows : Follows h lalr automaton)
    (fed : past.foldlM (feedSourceLexem automaton fuel) {} = .ok ctx) :
    Reached h lalr automaton ctx := by
  obtain ⟨holds, g, viable, -⟩ := exists_viable follows fed
  exact ⟨holds, g, viable⟩

theorem Viable.begins (exact : lalr.Exact h) (productive : (productionsOf prodlist h).Productive)
    {stateStack : List State} {g : ProductionForest prodlist}
    (viable : Viable h lalr stateStack g) :
    (productionsOf prodlist h).Begins (g.yield.map Lexem.id) := by
  obtain ⟨top, state, -, -, lr1⟩ := viable.stacked.top exact
  obtain ⟨p, k, item⟩ := lr1.viable
  apply item.begins productive
  have derives := viable.valid.derives
  rw [ProductionForest.yield_symbols] at derives
  rwa [List.map_map]

theorem begins_of_fed (follows : Follows h lalr automaton)
    (productive : (productionsOf prodlist h).Productive)
    (fed : past.foldlM (feedSourceLexem automaton fuel) {} = .ok ctx) :
    (productionsOf prodlist h).Begins (past.map Lexem.id) := by
  obtain ⟨-, g, viable, words⟩ := exists_viable follows fed
  rw [← words]
  exact viable.begins follows.exact productive

theorem exists_tree {lexems : List Lexem}
    (sentence : (productionsOf prodlist h).Sentence (lexems.map Lexem.id)) :
    ∃ t : ProductionForest prodlist,
      (productionsOf prodlist h).IsParse t.symbols ∧ t.yield = lexems := by
  obtain ⟨f, parse, leaves⟩ := sentence.exists_parse
  rw [List.map_map] at leaves
  obtain ⟨t, rfl, words⟩ := ParseForest.exists_map_of_yield leaves
  exact ⟨t, parse, words⟩

/-- The failures that do not depend on what follows. -/
def Unanswered (e : Failure) : Prop := TooComplex e ∨ e = .outOfFuel

theorem going_tooComplex (drives : Drives h lalr automaton)
    (decided : Decided h lalr automaton.actions) {t : ProductionForest prodlist}
    (parse : (productionsOf prodlist h).IsParse t.symbols) {P : Failure → Prop}
    (complex : ∀ e, TooComplex e → P e) : Going P h lalr automaton t where
  drives := drives
  decided := decided
  parse := parse
  countable _ _ ctx along n := by
    obtain ⟨f, holds, -⟩ := along.holds
    exact ⟨fun e failed => complex e ((countable_tooComplex holds n).kind e failed)⟩

theorem not_refused_of_begins (drives : Drives h lalr automaton)
    (decided : Decided h lalr automaton.actions)
    (fed : past.foldlM (feedSourceLexem automaton fuel) {} = .ok ctx)
    (begins : (productionsOf prodlist h).Begins ((past ++ [lexem]).map Lexem.id)) :
    FailsWith Unanswered (feedUntilConsumed automaton lexem fuel ctx) := by
  obtain ⟨ids, sentence⟩ := begins
  -- the texts of the lexems that would follow do not matter
  have more : ids = (ids.map fun id => (⟨"", id, "", 0⟩ : Lexem)).map Lexem.id := by
    rw [List.map_map]
    exact (List.map_id ids).symm
  rw [more, ← List.map_append] at sentence
  obtain ⟨t, parse, words⟩ := exists_tree sentence
  have going := going_tooComplex drives decided parse (P := Unanswered) fun _ => Or.inl
  rw [List.append_assoc] at words
  have along := going.feedLexems fuel words (Or.inr (Or.inr rfl))
  obtain ⟨ms, ns, along, left⟩ := along.result ctx fed
  exact (going.feedUntilConsumed along left (Or.inr (Or.inr rfl))).toFailsWith

theorem not_refused_of_sentence (drives : Drives h lalr automaton)
    (decided : Decided h lalr automaton.actions)
    (fed : past.foldlM (feedSourceLexem automaton fuel) {} = .ok ctx)
    (sentence : (productionsOf prodlist h).Sentence (past.map Lexem.id)) (at_end : lexem.id = 0) :
    FailsWith Unanswered (feedUntilConsumed automaton lexem fuel ctx) := by
  obtain ⟨t, parse, words⟩ := exists_tree sentence
  have going := going_tooComplex drives decided parse (P := Unanswered) fun _ => Or.inl
  have along := going.feedLexems fuel (words.trans (List.append_nil past).symm)
    (Or.inr (Or.inr rfl))
  obtain ⟨ms, ns, along, left⟩ := along.result ctx fed
  exact going.feedEnd along left at_end (Or.inr (Or.inr rfl))

/-- An error has the line of a lexem, its name and value, and the terminals that are expected. -/
structure Names (automaton : Automaton) (lexem : Lexem) (arg : String) (line : Int) : Prop where
  line_eq : line = lexem.line
  arg_eq : ∃ token state expected, tokenString lexem automaton.lexer = .ok token ∧
    expectedTerminalList automaton.actions state automaton.lexer = .ok expected ∧
    arg = token ++ " \x7b " ++ expected ++ " \x7d"

def Blames (automaton : Automaton) (lexem : Lexem) (e : Failure) : Prop :=
  ∀ arg line, e = .thrown ⟨.UnexpectedTokenNotOneOf, arg, line⟩ → Names automaton lexem arg line

theorem TooComplex.blames {e : Failure} (complex : TooComplex e) : Blames automaton lexem e := by
  rintro arg line rfl
  cases complex

theorem lexemName_blames (lexer : Lexer) (id : Int) :
    FailsWith (Blames automaton lexem) (lexer.lexemName id) := by
  unfold Lexer.lexemName
  split
  · exact FailsWith.error_iff.mpr fun arg line same => by cases same
  · split
    · exact FailsWith.error_iff.mpr fun arg line same => by cases same
    · exact FailsWith.ok _

theorem isKeyword_blames (lexer : Lexer) (id : Int) :
    FailsWith (Blames automaton lexem) (lexer.isKeyword id) := by
  unfold Lexer.isKeyword
  split
  · exact FailsWith.error_iff.mpr fun arg line same => by cases same
  · split
    · exact FailsWith.error_iff.mpr fun arg line same => by cases same
    · exact FailsWith.ok _

theorem tokenString_blames : FailsWith (Blames automaton lexem) (tokenString lexem automaton.lexer) := by
  unfold tokenString
  split
  · exact FailsWith.ok _
  · apply (lexemName_blames _ _).bind
    intro name _
    apply (isKeyword_blames _ _).bind
    intro keyword _
    split <;> exact FailsWith.ok _

theorem expectedTerminalList_blames (state : Int) :
    FailsWith (Blames automaton lexem)
      (expectedTerminalList automaton.actions state automaton.lexer) := by
  unfold expectedTerminalList
  apply FailsWith.bind
  · apply FailsWith.mapM
    intro key _
    unfold getLexemName
    split
    · exact lexemName_blames _ _
    · exact FailsWith.ok _
  · intro names _
    exact FailsWith.ok _

theorem unexpectedToken_blames {α : Type} (state : Int) :
    FailsWith (Blames automaton lexem)
      (unexpectedToken automaton lexem state : Except Failure α) := by
  unfold unexpectedToken
  apply tokenString_blames.bind
  intro token written
  apply (expectedTerminalList_blames state).bind
  intro expected listed
  refine FailsWith.error_iff.mpr fun arg line same => ?_
  cases same
  exact ⟨rfl, token, state, expected, written, listed, rfl⟩

theorem feedLexem_blames (drives : Drives h lalr automaton)
    (reached : Reached h lalr automaton ctx) :
    FailsWith (Blames automaton lexem) (feedLexem automaton lexem ctx) := by
  obtain ⟨⟨f, holds⟩, g, viable⟩ := reached
  cases table : actionOf automaton ctx lexem.id with
  | some action =>
    have fails := feedLexem_failsWith drives holds viable (countable_tooComplex holds) table
    exact ⟨fun e failed => (fails.kind e failed).blames⟩
  | none =>
    obtain ⟨top, state, head, -, -⟩ := viable.stacked.top drives.exact
    unfold feedLexem
    cases stack : ctx.stateStack with
    | nil =>
      rw [stack] at head
      cases head
    | cons st rest =>
      unfold actionOf at table
      rw [stack] at table
      have table : automaton.actions.find ⟨st.index, lexem.id⟩ = none := table
      simp only [table]
      exact unexpectedToken_blames st.index

theorem feedUntilConsumed_blames (drives : Drives h lalr automaton)
    (reached : Reached h lalr automaton ctx) :
    FailsWith (Blames automaton lexem) (feedUntilConsumed automaton lexem fuel ctx) := by
  induction fuel generalizing ctx with
  | zero => exact FailsWith.error_iff.mpr fun arg line same => by cases same
  | succ fuel ih =>
    unfold feedUntilConsumed
    apply (feedLexem_blames drives reached).bind
    rintro ⟨next, consumed⟩ fed
    cases consumed with
    | true => exact FailsWith.ok _
    | false => exact ih (reached.feedLexem drives fed (Or.inl rfl))

theorem exists_refused {lexems : List Lexem} {lastline : Int} {arg : String} {line : Int}
    (failed : feedSource fuel automaton lexems lastline =
      .error (.thrown ⟨.UnexpectedTokenNotOneOf, arg, line⟩)) :
    (∃ past lexem future ctx, lexems = past ++ lexem :: future ∧
      past.foldlM (feedSourceLexem automaton fuel) {} = .ok ctx ∧
      feedUntilConsumed automaton lexem fuel ctx =
        .error (.thrown ⟨.UnexpectedTokenNotOneOf, arg, line⟩)) ∨
    ∃ ctx, lexems.foldlM (feedSourceLexem automaton fuel) {} = .ok ctx ∧
      feedUntilConsumed automaton (Lexem.atEnd lastline) fuel ctx =
        .error (.thrown ⟨.UnexpectedTokenNotOneOf, arg, line⟩) := by
  unfold feedSource at failed
  cases fed : lexems.foldlM (feedSourceLexem automaton fuel) {} with
  | ok ctx =>
    rw [fed] at failed
    exact Or.inr ⟨ctx, rfl, failed⟩
  | error e =>
    rw [fed] at failed
    obtain rfl := Except.error.inj failed
    obtain ⟨past, lexem, future, ctx, whole, fed, failed⟩ := exists_of_foldlM_error fed
    refine Or.inl ⟨past, lexem, future, ctx, whole, fed, ?_⟩
    unfold feedSourceLexem at failed
    split at failed
    · cases failed
    · cases consumed : feedUntilConsumed automaton lexem fuel ctx with
      | error e =>
        rw [consumed] at failed
        exact failed
      | ok next =>
        -- the check of the indices has another error
        rw [consumed, ok_bind] at failed
        unfold checkStackIndices at failed
        split at failed
        · cases failed
        · split at failed <;> cases failed

theorem begins_of_run (follows : Follows h lalr automaton)
    (productive : (productionsOf prodlist h).Productive) {lexems : List Lexem} {lastline : Int}
    {ms : List ParserMove} {f : Feed} (run : Run automaton (Feed.start lexems lastline) ms f) :
    (productionsOf prodlist h).Begins ((tokensOf ms).map Lexem.id) := by
  have words (g : ProductionForest prodlist) : tokensOf (g.moves.map actionMove) = g.yield := by
    unfold actionMove
    rw [tokensOf_map, List.map_id, tokensOf_moves]
  have viable := run_viable follows run
  cases done : ms.any accepting with
  | true =>
    rw [if_pos done] at viable
    obtain ⟨g, whole, rfl⟩ := viable
    refine ⟨[], ?_⟩
    rw [tokensOf_append, words]
    show (productionsOf prodlist h).Sentence ((g.yield ++ []).map Lexem.id ++ [])
    rw [List.append_nil, List.append_nil]
    exact (ProductionForest.rightmost whole).sentence
  | false =>
    rw [done] at viable
    obtain ⟨g, viable, rfl⟩ := viable
    rw [words]
    exact viable.begins follows.exact productive

end Runs

/-- At every time of every run the lexems that are consumed begin a sentence, if every symbol derives
    a word. This also holds for tables with priorities and conflicts. -/
theorem run_begins {engine : PatternEngine} {source : GrammarSource} {langdef : LanguageDef}
    {fuel : Nat} {order : HashOrder (TransitionState × Int)} {warnings warnings' : List Error}
    {automaton : Automaton} (parsed : parseLanguageDef engine source = .ok langdef)
    (fit : FollowSetsFit langdef.prodlist)
    (built : Automaton.build fuel engine order source warnings {} =
      ((automaton, warnings'), .ok ()))
    (productive : (productionsOf langdef.prodlist (wellFormed_of_parseLanguageDef parsed)).Productive)
    {lexems : List Lexem} {lastline : Int} {ms : List ParserMove} {f : Feed}
    (run : Run automaton (Feed.start lexems lastline) ms f) :
    (productionsOf langdef.prodlist (wellFormed_of_parseLanguageDef parsed)).Begins
      ((tokensOf ms).map Lexem.id) := by
  obtain ⟨lalr, follows⟩ := exists_follows parsed fit built
  exact begins_of_run follows productive run

theorem productive_of_leaves {langdef : LanguageDef}
    {h : WellFormed langdef.prodlist langdef.lexer} {rules : List (ContextFreeRule Int Int)}
    (same : langdef.prodlist.map ruleOf = rules)
    (leaves : ∀ r ∈ rules, ∀ n, .nonterminal n ∈ r.output →
      ∃ w : List Int, ⟨n, w.map .terminal⟩ ∈ rules) :
    (productionsOf langdef.prodlist h).Productive := by
  intro p s mem
  cases s with
  | terminal t => exact ⟨[t], .refl⟩
  | nonterminal n =>
    obtain ⟨w, rule⟩ := leaves _ (Sample.rule_mem same p) n mem
    obtain ⟨q, leaf⟩ := Sample.exists_rule (h := h) same rule
    have derives := Productions.derives_rule (G := productionsOf langdef.prodlist h) q
    rw [Productions.head, leaf] at derives
    exact ⟨w, derives⟩

theorem leaves_comma (r : ContextFreeRule Int Int) (mem : r ∈ Sample.commaRules) (n : Int)
    (inside : .nonterminal n ∈ r.output) :
    ∃ w : List Int, ⟨n, w.map .terminal⟩ ∈ Sample.commaRules := by
  have list : n = 2 := by
    simp only [Sample.commaRules, List.mem_cons, List.not_mem_nil, or_false] at mem
    rcases mem with rfl | rfl | rfl <;> simp at inside <;> exact inside
  exact ⟨[], by simp [list, Sample.commaRules]⟩

theorem leaves_sum (r : ContextFreeRule Int Int) (mem : r ∈ Sample.sumRules) (n : Int)
    (inside : .nonterminal n ∈ r.output) :
    ∃ w : List Int, ⟨n, w.map .terminal⟩ ∈ Sample.sumRules := by
  have sum : n = 2 := by
    simp only [Sample.sumRules, List.mem_cons, List.not_mem_nil, or_false] at mem
    rcases mem with rfl | rfl | rfl | rfl <;> simp at inside <;> exact inside
  exact ⟨[], by simp [sum, Sample.sumRules]⟩

/-- After five moves, two of them for the sum in front of the second `+`. -/
theorem run_begins_sum :
    ∃ langdef, ∃ parsed : parseLanguageDef Sample.engine (Sample.grammar Sample.sumLexems) =
        .ok langdef,
      ((tokensOf (runFor (Sample.automaton Sample.sumLexems) 5
        (Feed.start sumInput 2)).1).map Lexem.id) = [2, 1, 1] ∧
      (productionsOf langdef.prodlist (wellFormed_of_parseLanguageDef parsed)).Begins [2, 1, 1] := by
  have consumed : ((tokensOf (runFor (Sample.automaton Sample.sumLexems) 5
      (Feed.start sumInput 2)).1).map Lexem.id) = [2, 1, 1] := by decide +kernel
  obtain ⟨langdef, buildable, -, rules⟩ := Sample.exists_buildable_sum
  refine ⟨langdef, buildable.parsed, consumed, ?_⟩
  rw [← consumed]
  exact run_begins buildable.parsed buildable.fit Sample.build_sum
    (productive_of_leaves rules leaves_sum) (run_runFor _ _ _)

/-- A syntax error of a grammar without priorities and warnings, where every symbol derives a word: the
    lexems before the one that is refused begin a sentence, and with this one they do not. The error
    names this lexem. -/
theorem feedSource_syntaxError {engine : PatternEngine} {source : GrammarSource}
    {langdef : LanguageDef} {fuel : Nat} {order : HashOrder (TransitionState × Int)}
    {warnings : List Error} {automaton : Automaton}
    (parsed : parseLanguageDef engine source = .ok langdef)
    (fit : FollowSetsFit langdef.prodlist) (plain : Plain langdef.prodlist)
    (built : Automaton.build fuel engine order source warnings {} =
      ((automaton, warnings), .ok ()))
    (productive : (productionsOf langdef.prodlist (wellFormed_of_parseLanguageDef parsed)).Productive)
    {lexems : List Lexem} {lastline : Int} {steps : Nat} {arg : String} {line : Int}
    (failed : feedSource steps automaton lexems lastline =
      .error (.thrown ⟨.UnexpectedTokenNotOneOf, arg, line⟩)) :
    (∃ past lexem future, lexems = past ++ lexem :: future ∧
      Names automaton lexem arg line ∧
      (productionsOf langdef.prodlist (wellFormed_of_parseLanguageDef parsed)).Begins
        (past.map Lexem.id) ∧
      ¬ (productionsOf langdef.prodlist (wellFormed_of_parseLanguageDef parsed)).Begins
        ((past ++ [lexem]).map Lexem.id)) ∨
    (Names automaton (Lexem.atEnd lastline) arg line ∧
      (productionsOf langdef.prodlist (wellFormed_of_parseLanguageDef parsed)).Begins
        (lexems.map Lexem.id) ∧
      ¬ (productionsOf langdef.prodlist (wellFormed_of_parseLanguageDef parsed)).Sentence
        (lexems.map Lexem.id)) := by
  obtain ⟨langdef', lalr, b, built⟩ := built_of_build built
  obtain rfl := Except.ok.inj (parsed.symm.trans built.parsed)
  have drives := drives_of_built built fit
  have decided := decided_of_built built fit plain
  have unexpected {e : Failure} (unanswered : Unanswered e)
      (same : e = .thrown ⟨.UnexpectedTokenNotOneOf, arg, line⟩) : False := by
    rcases unanswered with rfl | rfl <;> cases same
  rcases exists_refused failed with ⟨past, lexem, future, ctx, whole, fed, refused⟩ |
    ⟨ctx, fed, refused⟩
  · have reached := reached_of_fed drives.toFollows fed
    refine Or.inl ⟨past, lexem, future, whole, ?_,
      begins_of_fed drives.toFollows productive fed, fun begins => ?_⟩
    · exact (feedUntilConsumed_blames drives reached).kind _ refused arg line rfl
    · exact unexpected ((not_refused_of_begins drives decided fed begins).kind _ refused) rfl
  · have reached := reached_of_fed drives.toFollows fed
    refine Or.inr ⟨?_, begins_of_fed drives.toFollows productive fed, fun sentence => ?_⟩
    · exact (feedUntilConsumed_blames drives reached).kind _ refused arg line rfl
    · exact unexpected
        ((not_refused_of_sentence drives decided fed sentence rfl).kind _ refused) rfl

def wrongInput : List Lexem :=
  [⟨"x", 1, "x", 1⟩, ⟨"comma", 2, ",", 1⟩, ⟨"x", 1, "x", 2⟩, ⟨"x", 1, "x", 3⟩,
    ⟨"comma", 2, ",", 4⟩]

/-- The third `x` is refused, as it has no comma before it. -/
theorem feedSource_syntaxError_comma :
    ∃ langdef, ∃ parsed : parseLanguageDef Sample.engine (Sample.grammar Sample.commaLexems) =
        .ok langdef,
      (feedSource 20 (Sample.automaton Sample.commaLexems) wrongInput 4).map (fun _ => ()) =
        .error (.thrown ⟨.UnexpectedTokenNotOneOf, "x = \"x\" \x7b comma \x7d", 3⟩) ∧
      (productionsOf langdef.prodlist (wellFormed_of_parseLanguageDef parsed)).Begins [1, 2, 1] ∧
      ¬ (productionsOf langdef.prodlist (wellFormed_of_parseLanguageDef parsed)).Begins
        [1, 2, 1, 1] := by
  have refused : (feedSource 20 (Sample.automaton Sample.commaLexems) wrongInput 4).map
      (fun _ => ()) = .error (.thrown ⟨.UnexpectedTokenNotOneOf, "x = \"x\" \x7b comma \x7d", 3⟩) := by
    decide +kernel
  obtain ⟨langdef, buildable, plain, rules⟩ := Sample.exists_buildable_comma
  refine ⟨langdef, buildable.parsed, refused, ?_⟩
  cases failed : feedSource 20 (Sample.automaton Sample.commaLexems) wrongInput 4 with
  | ok ctx =>
    rw [failed] at refused
    cases refused
  | error e =>
    rw [failed] at refused
    obtain rfl := Except.error.inj refused
    rcases feedSource_syntaxError buildable.parsed buildable.fit plain Sample.build_comma
      (productive_of_leaves rules leaves_comma) failed with
      ⟨past, lexem, future, whole, named, begins, no⟩ | ⟨named, -⟩
    · -- only the third `x` is on the third line
      have only : ∀ i < 5, (wrongInput[i]?).map Lexem.line = some 3 → i = 3 := by decide
      have here : wrongInput[past.length]? = some lexem := by simp [whole]
      have position : past.length = 3 := by
        apply only _ (List.getElem?_eq_some_iff.mp here).1
        rw [here]
        exact congrArg some named.line_eq.symm
      obtain rfl : wrongInput.take 3 = past := by rw [whole, ← position, List.take_left]
      obtain rfl : ⟨"x", 1, "x", 3⟩ = lexem := Option.some.inj here
      exact ⟨begins, no⟩
    · cases named.line_eq

end Mewa.Compiler
