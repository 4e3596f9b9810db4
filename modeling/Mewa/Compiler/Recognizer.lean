/- Module: Mewa/Compiler/Recognizer
   digest: The parser of a grammar without priorities and warnings accepts exactly the sentences that
   are not too long, and it shifts only what goes on with a sentence. -/

import Mathlib.Computability.ContextFreeGrammar
import Mewa.Compiler.Refused
import Mewa.Lib.Fuel

set_option autoImplicit false
set_option relaxedAutoImplicit false

namespace Mewa.Compiler

open Mewa.Lib

/-! More steps do not change a result. -/

section Steps

variable {automaton : Automaton} {fuel more : Nat}

theorem feedUntilConsumed_extends (enough : fuel ≤ more) (lexem : Lexem) (ctx : CompilerContext) :
    Extends .outOfFuel (feedUntilConsumed automaton lexem fuel ctx)
      (feedUntilConsumed automaton lexem more ctx) := by
  induction fuel generalizing more ctx with
  | zero => exact fun short => absurd rfl short
  | succ fuel ih =>
    obtain ⟨more, rfl⟩ : ∃ n, more = n + 1 := ⟨more - 1, by omega⟩
    unfold feedUntilConsumed
    apply (Extends.refl _).bind
    rintro ⟨next, consumed⟩
    cases consumed with
    | true => exact Extends.refl _
    | false => exact ih (by omega) next

theorem feedSource_extends (enough : fuel ≤ more) (lexems : List Lexem) (lastline : Int) :
    Extends .outOfFuel (feedSource fuel automaton lexems lastline)
      (feedSource more automaton lexems lastline) := by
  unfold feedSource
  apply Extends.bind
  · apply Extends.foldlM
    intro ctx lexem _
    unfold feedSourceLexem
    split
    · exact Extends.refl _
    · apply (feedUntilConsumed_extends enough lexem ctx).bind
      intro next
      exact Extends.refl _
  · intro ctx
    exact feedUntilConsumed_extends enough _ ctx

end Steps

/-- The parser comes to its end for these lexems. -/
def Accepts (automaton : Automaton) (lexems : List Lexem) (lastline : Int) : Prop :=
  ∃ steps ctx, feedSource steps automaton lexems lastline = .ok ctx

/-- The parser stops since there is no number for a place on the Lua stack. -/
def Overflows (automaton : Automaton) (lexems : List Lexem) (lastline : Int) : Prop :=
  ∃ steps e, feedSource steps automaton lexems lastline = .error e ∧ TooComplex e

theorem feedSource_unique {automaton : Automaton} {lexems : List Lexem} {lastline : Int}
    {steps steps' : Nat} (enough : feedSource steps automaton lexems lastline ≠ .error .outOfFuel)
    (enough' : feedSource steps' automaton lexems lastline ≠ .error .outOfFuel) :
    feedSource steps automaton lexems lastline = feedSource steps' automaton lexems lastline :=
  (feedSource_extends (le_max_left steps steps') lexems lastline enough).symm.trans
    (feedSource_extends (le_max_right steps steps') lexems lastline enough')

theorem Accepts.not_overflows {automaton : Automaton} {lexems : List Lexem} {lastline : Int}
    (accepts : Accepts automaton lexems lastline) : ¬ Overflows automaton lexems lastline := by
  rintro ⟨steps', e, failed, complex⟩
  obtain ⟨steps, ctx, accepted⟩ := accepts
  have enough : feedSource steps automaton lexems lastline ≠ .error .outOfFuel := by
    rw [accepted]
    simp
  have enough' : feedSource steps' automaton lexems lastline ≠ .error .outOfFuel := by
    rw [failed, complex]
    simp
  have same := feedSource_unique enough enough'
  rw [accepted, failed] at same
  cases same

section Sentences

variable {prodlist : List ProductionDef} {lexer : Lexer} {h : WellFormed prodlist lexer}
  {lalr : LalrStates} {automaton : Automaton} {lexems : List Lexem} {lastline : Int}

theorem sentence_of_accepted (follows : Follows h lalr automaton) {ms : List ParserMove} {f : Feed}
    (run : Run automaton (Feed.start lexems lastline) ms f) (accepted : ms.any accepting = true) :
    (productionsOf prodlist h).Sentence (lexems.map Lexem.id) := by
  obtain ⟨g, whole, rfl, -⟩ := run_trees follows run accepted
  exact (ProductionForest.rightmost whole).sentence

theorem accepts_of_sentence (drives : Drives h lalr automaton)
    (decided : Decided h lalr automaton.actions)
    (sentence : (productionsOf prodlist h).Sentence (lexems.map Lexem.id))
    (bounded : ¬ Overflows automaton lexems lastline) : Accepts automaton lexems lastline := by
  obtain ⟨t, parse, rfl⟩ := exists_tree sentence
  have going := going_tooComplex drives decided parse fun _ complex => complex
  have fed := going.feedSource (Or.inl (Nat.lt_succ_self _)) lastline
  cases result : feedSource (t.moves.length + 1) automaton t.yield lastline with
  | ok ctx => exact ⟨_, ctx, result⟩
  | error e => exact absurd ⟨_, e, result, fed.kind e result⟩ bounded

theorem tokens_of_accepted (follows : Follows h lalr automaton) {ms : List ParserMove} {f : Feed}
    (run : Run automaton (Feed.start lexems lastline) ms f) (accepted : ms.any accepting = true) :
    tokensOf ms = lexems := by
  obtain ⟨g, -, leaves, moves, -⟩ := run_trees follows run accepted
  rw [moves, tokensOf_append, ← leaves]
  unfold actionMove
  rw [tokensOf_map, List.map_id, tokensOf_moves]
  exact List.append_nil _

/-- The last lexem of the input is its end. -/
theorem end_of_input {ms : List ParserMove} {f : Feed}
    (run : Run automaton (Feed.start lexems lastline) ms f) {lexem : Lexem}
    (input : f.input = [lexem]) : lexem.id = 0 := by
  obtain ⟨trees, -, holds⟩ := run_holds run
  split at holds
  · rw [holds.2.1] at input
    cases input
  · obtain ⟨-, whole⟩ := holds
    rw [input] at whole
    rw [List.singleton_inj.mp (List.append_inj' whole rfl).2]
    rfl

/-- The lexem that comes next in a tree, or the end of the input behind its leaves. -/
def Ahead (future : List Lexem) (lexem : Lexem) : Prop :=
  future.head? = some lexem ∨ future = [] ∧ lexem.id = 0

theorem Ahead.id_eq {future : List Lexem} {lexem : Lexem} (ahead : Ahead future lexem) :
    lexem.id = (future.head?.map Lexem.id).getD 0 := by
  rcases ahead with first | ⟨rfl, zero⟩
  · rw [first]
    rfl
  · exact zero

section Trees

variable {t : ProductionForest prodlist} {past future : List (Move Lexem (Fin prodlist.length))}
  {ctx : CompilerContext} {lexem : Lexem}

/-- The parser makes the next move of the tree on whose way it is. -/
theorem Along.feed (drives : Drives h lalr automaton) (decided : Decided h lalr automaton.actions)
    (parse : (productionsOf prodlist h).IsParse t.symbols)
    (along : Along h lalr automaton t past future ctx) (ahead : Ahead (tokensOf future) lexem) :
    Yields TooComplex (fun next : CompilerContext × Bool =>
      (∃ past' future', Along h lalr automaton t past' future' next.1 ∧
        tokensOf future = if next.2 then lexem :: tokensOf future' else tokensOf future') ∨
      next.2 = true ∧ tokensOf future = []) (feedLexem automaton lexem ctx) := by
  obtain ⟨f, holds, -⟩ := along.holds
  have countable := countable_tooComplex holds
  cases future with
  | nil =>
    have zero : lexem.id = 0 := ahead.id_eq
    apply (along.accept drives decided parse countable zero).mono
    intro next _ consumed
    exact Or.inr ⟨consumed, rfl⟩
  | cons m future =>
    cases m with
    | shift l =>
      obtain rfl : l = lexem := by
        rcases ahead with first | ⟨none_left, -⟩
        · exact Option.some.inj first
        · cases none_left
      apply (along.shift drives decided parse countable).mono
      rintro ⟨ctx', consumed⟩ _ ⟨rfl, along'⟩
      exact Or.inl ⟨_, future, along', rfl⟩
    | reduce p =>
      apply (along.reduce drives decided parse countable ahead.id_eq).mono
      rintro ⟨ctx', consumed⟩ _ ⟨rfl, along'⟩
      exact Or.inl ⟨_, future, along', rfl⟩

/-- A run is on the way along every tree whose leaves begin with what it has consumed and what it
    looks at. -/
theorem Along.of_run (drives : Drives h lalr automaton) (decided : Decided h lalr automaton.actions)
    (parse : (productionsOf prodlist h).IsParse t.symbols) {ms : List ParserMove} {f : Feed}
    (run : Run automaton (Feed.start lexems lastline) ms f) {rest more : List Lexem}
    (input : f.input = lexem :: rest) (leaves : t.yield = tokensOf ms ++ more)
    (ahead : Ahead more lexem) :
    ∃ past future, Along h lalr automaton t past future f.ctx ∧ tokensOf future = more := by
  induction run generalizing lexem rest more with
  | refl => exact ⟨[], t.moves, Along.start, (tokensOf_moves t).trans leaves⟩
  | @tail ms g f m run step ih =>
    have accepted : ¬ accepting m = true := by
      intro accepts
      obtain ⟨_, -, holds⟩ := run_holds (run.tail step)
      rw [if_pos (by simp [accepts])] at holds
      rw [holds.2.1] at input
      cases input
    obtain ⟨lexem', rest', action, consumed, before, -, table, rfl, fed, after⟩ := step
    obtain ⟨action', table', cases_of⟩ := feedLexem_cases fed
    obtain rfl := Option.some.inj (table.symm.trans table')
    rcases cases_of with ⟨kind, rfl, -⟩ |
      ⟨kind, -, _, _, _, -, -, ⟨accept, -⟩ | ⟨reduce, rfl, -⟩⟩
    · rw [moveOf, if_pos kind, tokensOf_append, List.append_assoc] at leaves
      obtain ⟨past, future, along, left⟩ := ih before leaves (Or.inl rfl)
      rcases (along.feed drives decided parse (left ▸ Or.inl rfl)).result _ fed with
        ⟨past', future', along', consumed⟩ | ⟨-, nothing⟩
      · exact ⟨past', future', along', (List.cons.inj (consumed.symm.trans left)).2⟩
      · rw [left] at nothing
        cases nothing
    · exact absurd (by simp [moveOf, accepting, accept]) accepted
    · rw [moveOf, if_neg kind, tokensOf_append] at leaves
      have leaves : t.yield = tokensOf ms ++ more := leaves.trans (by simp [tokensOf])
      obtain ⟨rfl, -⟩ := List.cons.inj (input.symm.trans after)
      obtain ⟨past, future, along, left⟩ := ih before leaves ahead
      rcases (along.feed drives decided parse (left.symm ▸ ahead)).result _ fed with
        ⟨past', future', along', kept⟩ | ⟨consumed, -⟩
      · exact ⟨past', future', along', kept.symm.trans left⟩
      · cases consumed

theorem feedLexem_of_tree (drives : Drives h lalr automaton)
    (decided : Decided h lalr automaton.actions)
    (parse : (productionsOf prodlist h).IsParse t.symbols) {ms : List ParserMove} {f : Feed}
    (run : Run automaton (Feed.start lexems lastline) ms f) {rest more : List Lexem}
    (input : f.input = lexem :: rest) (leaves : t.yield = tokensOf ms ++ more)
    (ahead : Ahead more lexem) : FailsWith TooComplex (feedLexem automaton lexem f.ctx) := by
  obtain ⟨past, future, along, left⟩ := Along.of_run drives decided parse run input leaves ahead
  exact (along.feed drives decided parse (left.symm ▸ ahead)).toFailsWith

end Trees

/-- A lexem is not expected by the parser. -/
def Unexpected (automaton : Automaton) (lexem : Lexem) (ctx : CompilerContext) : Prop :=
  ∃ arg line, feedLexem automaton lexem ctx = .error (.thrown ⟨.UnexpectedTokenNotOneOf, arg, line⟩)

theorem not_unexpected {ctx : CompilerContext} {lexem : Lexem}
    (fails : FailsWith TooComplex (feedLexem automaton lexem ctx)) :
    ¬ Unexpected automaton lexem ctx := by
  rintro ⟨arg, line, failed⟩
  cases fails.kind _ failed

theorem not_begins_of_unexpected (drives : Drives h lalr automaton)
    (decided : Decided h lalr automaton.actions) {ms : List ParserMove} {f : Feed}
    (run : Run automaton (Feed.start lexems lastline) ms f) {lexem : Lexem} {rest : List Lexem}
    (input : f.input = lexem :: rest) (unexpected : Unexpected automaton lexem f.ctx) :
    ¬ (productionsOf prodlist h).Begins ((tokensOf ms ++ [lexem]).map Lexem.id) := by
  rintro ⟨ids, sentence⟩
  -- the texts of the lexems that would follow do not matter
  have more : ids = (ids.map fun id => (⟨"", id, "", 0⟩ : Lexem)).map Lexem.id := by
    rw [List.map_map]
    exact (List.map_id ids).symm
  rw [more, ← List.map_append, List.append_assoc] at sentence
  obtain ⟨t, parse, leaves⟩ := exists_tree sentence
  exact not_unexpected (feedLexem_of_tree drives decided parse run input leaves (Or.inl rfl))
    unexpected

theorem not_sentence_of_unexpected (drives : Drives h lalr automaton)
    (decided : Decided h lalr automaton.actions) {ms : List ParserMove} {f : Feed}
    (run : Run automaton (Feed.start lexems lastline) ms f) {lexem : Lexem}
    (input : f.input = [lexem]) (at_end : lexem.id = 0)
    (unexpected : Unexpected automaton lexem f.ctx) :
    ¬ (productionsOf prodlist h).Sentence ((tokensOf ms).map Lexem.id) := by
  intro sentence
  obtain ⟨t, parse, leaves⟩ := exists_tree sentence
  exact not_unexpected (feedLexem_of_tree drives decided parse run input
    (leaves.trans (List.append_nil _).symm) (Or.inr ⟨rfl, at_end⟩)) unexpected

end Sentences

section Recognizer

variable {engine : PatternEngine} {source : GrammarSource} {langdef : LanguageDef} {fuel : Nat}
  {order : HashOrder (TransitionState × Int)} {warnings : List Error} {automaton : Automaton}

/-- The errors of a grammar without priorities and warnings, where every symbol derives a word, are in
    the right place: what is consumed begins a sentence, and with a lexem that is not expected it does
    not. No lexem is consumed that does not go on with a sentence, and nothing else is accepted. -/
theorem run_refuses (parsed : parseLanguageDef engine source = .ok langdef)
    (fit : FollowSetsFit langdef.prodlist) (plain : Plain langdef.prodlist)
    (built : Automaton.build fuel engine order source warnings {} =
      ((automaton, warnings), .ok ()))
    (productive : (productionsOf langdef.prodlist (wellFormed_of_parseLanguageDef parsed)).Productive)
    {lexems : List Lexem} {lastline : Int} {ms : List ParserMove} {f : Feed}
    (run : Run automaton (Feed.start lexems lastline) ms f) :
    (∀ lexem rest, f.input = lexem :: rest → Unexpected automaton lexem f.ctx →
      (productionsOf langdef.prodlist (wellFormed_of_parseLanguageDef parsed)).Begins
        ((tokensOf ms).map Lexem.id) ∧
      if rest = [] then
        ¬ (productionsOf langdef.prodlist (wellFormed_of_parseLanguageDef parsed)).Sentence
          ((tokensOf ms).map Lexem.id)
      else
        ¬ (productionsOf langdef.prodlist (wellFormed_of_parseLanguageDef parsed)).Begins
          ((tokensOf ms ++ [lexem]).map Lexem.id)) ∧
    (∀ lexem g, Step automaton f (.shift lexem) g →
      (productionsOf langdef.prodlist (wellFormed_of_parseLanguageDef parsed)).Begins
        ((tokensOf ms ++ [lexem]).map Lexem.id)) ∧
    ∀ action g, Step automaton f (.reduce action) g → action.type = .Accept →
      (productionsOf langdef.prodlist (wellFormed_of_parseLanguageDef parsed)).Sentence
        ((tokensOf ms).map Lexem.id) := by
  obtain ⟨langdef', lalr, b, built⟩ := built_of_build built
  obtain rfl := Except.ok.inj (parsed.symm.trans built.parsed)
  have drives := drives_of_built built fit
  have decided := decided_of_built built fit plain
  refine ⟨fun lexem rest input unexpected => ?_, fun lexem g step => ?_,
    fun action g step accept => ?_⟩
  · refine ⟨begins_of_run drives.toFollows productive run, ?_⟩
    split
    · rename_i last
      rw [last] at input
      exact not_sentence_of_unexpected drives decided run input (end_of_input run input) unexpected
    · exact not_begins_of_unexpected drives decided run input unexpected
  · have begins := begins_of_run drives.toFollows productive (run.tail step)
    rwa [tokensOf_append] at begins
  · have accepted : (ms ++ [Move.reduce action]).any accepting = true := by
      simp [accepting, accept]
    have sentence := sentence_of_accepted drives.toFollows (run.tail step) accepted
    rwa [← tokens_of_accepted drives.toFollows (run.tail step) accepted, tokensOf_append,
      show tokensOf [Move.reduce action] = ([] : List Lexem) from rfl, List.append_nil] at sentence

/-- The third `x` is refused, and a list with all its commas is accepted. -/
theorem run_refuses_comma :
    ∃ langdef, ∃ parsed : parseLanguageDef Sample.engine (Sample.grammar Sample.commaLexems) =
        .ok langdef,
      (productionsOf langdef.prodlist (wellFormed_of_parseLanguageDef parsed)).Begins [1, 2, 1] ∧
      ¬ (productionsOf langdef.prodlist (wellFormed_of_parseLanguageDef parsed)).Begins
        [1, 2, 1, 1] := by
  obtain ⟨langdef, buildable, plain, rules⟩ := Sample.exists_buildable_comma
  have run := run_runFor (Sample.automaton Sample.commaLexems) 20 (Feed.start wrongInput 4)
  generalize stopped : runFor (Sample.automaton Sample.commaLexems) 20 (Feed.start wrongInput 4) =
    result at run
  have checks : (tokensOf (runFor (Sample.automaton Sample.commaLexems) 20
        (Feed.start wrongInput 4)).1).map Lexem.id = [1, 2, 1] ∧
      (runFor (Sample.automaton Sample.commaLexems) 20 (Feed.start wrongInput 4)).2.input =
        [⟨"x", 1, "x", 3⟩, ⟨"comma", 2, ",", 4⟩, Lexem.atEnd 4] ∧
      (feedLexem (Sample.automaton Sample.commaLexems) ⟨"x", 1, "x", 3⟩
        (runFor (Sample.automaton Sample.commaLexems) 20 (Feed.start wrongInput 4)).2.ctx).map
          (fun _ => ()) =
        .error (.thrown ⟨.UnexpectedTokenNotOneOf, "x = \"x\" \x7b comma \x7d", 3⟩) := by
    decide +kernel
  rw [stopped] at checks
  obtain ⟨tokens, input, refused⟩ := checks
  have unexpected : Unexpected (Sample.automaton Sample.commaLexems) ⟨"x", 1, "x", 3⟩
      result.2.ctx := by
    cases fed : feedLexem (Sample.automaton Sample.commaLexems) ⟨"x", 1, "x", 3⟩ result.2.ctx with
    | ok next =>
      rw [fed] at refused
      cases refused
    | error e =>
      rw [fed] at refused
      exact ⟨_, _, fed.trans (congrArg Except.error (Except.error.inj refused))⟩
  obtain ⟨refuses, -⟩ := run_refuses buildable.parsed buildable.fit plain Sample.build_comma
    (productive_of_leaves rules leaves_comma) run
  obtain ⟨begins, no⟩ := refuses _ _ input unexpected
  rw [if_neg (by simp), List.map_append, tokens] at no
  rw [tokens] at begins
  exact ⟨langdef, buildable.parsed, begins, no⟩

end Recognizer

/-! A list that is too long. -/

theorem getNextLuaStackIndex_lt {stack : List State} {index : Int}
    (next : getNextLuaStackIndex stack = .ok index) : index < maxInt := by
  unfold getNextLuaStackIndex at next
  split at next
  · obtain rfl := Except.ok.inj next
    decide
  · split at next
    · obtain ⟨_, -, short⟩ := bind_eq_ok.mp next
      cases short
    · rename_i below
      obtain rfl := Except.ok.inj next
      exact not_le.mp below

section Lists

variable {automaton : Automaton} {ctx ctx' : CompilerContext} {action : Action}
  {nofElements scopeStart : Int} {lexem : Lexem}

theorem feedGoto_luaStack
    (moved : feedGoto automaton action nofElements scopeStart lexem ctx = .ok ctx') :
    ctx'.luaStack = ctx.luaStack := by
  unfold feedGoto at moved
  split at moved
  · cases moved
  · split at moved
    · obtain ⟨_, -, missing⟩ := bind_eq_ok.mp moved
      cases missing
    · split at moved
      · obtain ⟨_, -, pushed⟩ := bind_eq_ok.mp moved
        rw [← Except.ok.inj pushed]
      · rw [← Except.ok.inj moved]

theorem feedAccept_luaStack (accepted : feedAccept nofElements lexem ctx = .ok ctx') :
    ctx'.luaStack = ctx.luaStack := by
  unfold feedAccept at accepted
  split at accepted
  · cases accepted
  · split at accepted
    · split at accepted
      · cases accepted
      · rw [← Except.ok.inj accepted]
    · cases accepted

/-- Without calls and keywords every lexem has an element on the Lua stack, and there are fewer of
    them than numbers. -/
theorem length_luaStack (uncalled : ∀ key action, automaton.actions.find key = some action →
      action.call = 0)
    (words : ∀ id, automaton.lexer.isKeyword id ≠ .ok true) {lexems : List Lexem} {lastline : Int}
    {ms : List ParserMove} {f : Feed} (run : Run automaton (Feed.start lexems lastline) ms f) :
    f.ctx.luaStack.length = (tokensOf ms).length ∧ (f.ctx.luaStack.length : Int) < maxInt := by
  induction run with
  | refl => exact ⟨rfl, show (0 : Int) < maxInt by decide⟩
  | @tail ms f g m run step ih =>
    obtain ⟨length, bound⟩ := ih
    obtain ⟨trees, -, holds⟩ := run_holds run
    obtain ⟨lexem, rest, action, consumed, input, -, table, rfl, fed, -⟩ := step
    have going : ms.any accepting = false := by
      by_contra accepted
      rw [Bool.not_eq_false] at accepted
      rw [accepted] at holds
      rw [holds.2.1] at input
      cases input
    rw [going] at holds
    obtain ⟨action', table', cases_of⟩ := feedLexem_cases fed
    obtain rfl := Option.some.inj (table.symm.trans table')
    have uncalled : action.call = 0 := by
      unfold actionOf at table
      obtain ⟨top, -, entry⟩ := Option.bind_eq_some_iff.mp table
      exact uncalled _ _ entry
    rw [tokensOf_append, List.length_append]
    rcases cases_of with ⟨kind, -, shifted⟩ | ⟨kind, -, scopeStart, reduced, n, -, hr, rest_of⟩
    · rw [moveOf, if_pos kind]
      unfold feedShift at shifted
      obtain ⟨keyword, known, shifted⟩ := bind_eq_ok.mp shifted
      cases keyword with
      | true => exact absurd known (words _)
      | false =>
        simp only [Bool.false_eq_true, if_false] at shifted
        obtain ⟨index, next, shifted⟩ := bind_eq_ok.mp shifted
        have index_eq := StackOf.getNextLuaStackIndex_eq holds.1 next
        have index_lt := getNextLuaStackIndex_lt next
        rw [← Except.ok.inj shifted]
        simp only [luaPushLexem, tokensOf, List.length_append, List.length_singleton]
        omega
    · have kept : g.ctx.luaStack = f.ctx.luaStack := by
        unfold feedReduce at hr
        rw [if_neg (not_not.mpr uncalled)] at hr
        obtain ⟨rfl, -⟩ := Prod.mk.inj (Except.ok.inj hr)
        rcases rest_of with ⟨-, -, accepted⟩ | ⟨-, -, moved⟩
        · exact (feedAccept_luaStack accepted).trans rfl
        · exact (feedGoto_luaStack moved).trans rfl
      rw [moveOf, if_neg kind, kept]
      exact ⟨by simpa [tokensOf] using length, bound⟩

end Lists

/-- As many `x` as there are numbers for the places on the Lua stack. -/
def longInput : List Lexem := List.replicate maxInt.toNat ⟨"x", 1, "x", 1⟩

theorem sentence_list {langdef : LanguageDef} {h : WellFormed langdef.prodlist langdef.lexer}
    (rules : langdef.prodlist.map ruleOf = Sample.listRules) (n : Nat) :
    (productionsOf langdef.prodlist h).Sentence (List.replicate (n + 1) 1) := by
  obtain ⟨start, start_rule⟩ := Sample.exists_rule (h := h) (r := ⟨1, [.nonterminal 2]⟩) rules
    (by simp [Sample.listRules])
  obtain ⟨more, more_rule⟩ := Sample.exists_rule (h := h)
    (r := ⟨2, [.terminal 1, .nonterminal 2]⟩) rules (by simp [Sample.listRules])
  obtain ⟨last, last_rule⟩ := Sample.exists_rule (h := h) (r := ⟨2, [.terminal 1]⟩) rules
    (by simp [Sample.listRules])
  have list : (productionsOf langdef.prodlist h).Derives [.nonterminal 2]
      ((List.replicate (n + 1) 1).map .terminal) := by
    induction n with
    | zero =>
      have step := Productions.derives_rule (G := productionsOf langdef.prodlist h) last
      rwa [Productions.head, last_rule] at step
    | succ n ih =>
      have step := Productions.derives_rule (G := productionsOf langdef.prodlist h) more
      rw [Productions.head, more_rule] at step
      exact step.trans (ih.append_left [.terminal 1])
  have step := Productions.derives_rule (G := productionsOf langdef.prodlist h) start
  rw [Productions.head, start_rule] at step
  unfold Productions.Sentence
  rw [head_start]
  exact step.trans list

end Mewa.Compiler
