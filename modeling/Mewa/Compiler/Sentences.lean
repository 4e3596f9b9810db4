/- Module: Mewa/Compiler/Sentences
   digest: What the parser accepts is a sentence, its reductions are a rightmost derivation of it in
   reverse, and its Lua stack is the fold over the parse tree. -/

import Mewa.Automaton.Decided
import Mewa.Compiler.Viable

set_option autoImplicit false
set_option relaxedAutoImplicit false

namespace Mewa.Compiler

open Mewa.Lib

namespace ProductionForest

variable {prodlist : List ProductionDef} {lexer : Lexer} {h : WellFormed prodlist lexer}
  {g : ProductionForest prodlist}

theorem moves_actions : g.actions.moves = g.moves.map actionMove := ParseForest.moves_map g

theorem fits_actions (valid : (productionsOf prodlist h).Valid g.symbols) :
    g.actions.Fits Action.count := by
  have fits : ParseForest.Fits (productionsOf prodlist h).arity (ProductionForest.symbols g) :=
    valid.fits
  unfold symbols at fits
  have lengths (p : Fin prodlist.length) :
      (productionsOf prodlist h).arity (id p) = (prodlist.get p).right.length := List.length_map _
  have counts (p : Fin prodlist.length) :
      (prodlist.get p).reduceAction.count = (prodlist.get p).right.length := rfl
  rw [ParseForest.fits_map lengths] at fits
  exact (ParseForest.fits_map counts).mpr fits

theorem yield_symbols : g.symbols.yield = g.yield.map fun lexem => .terminal lexem.id :=
  ParseForest.yield_map g

end ProductionForest

theorem shift_mem {T P : Type} {t : T} {ms : List (Move T P)} (mem : t ∈ tokensOf ms) :
    Move.shift t ∈ ms := by
  induction ms with
  | nil => cases mem
  | cons m ms ih =>
    cases m with
    | shift t' =>
      rcases List.mem_cons.mp mem with rfl | later
      · exact List.mem_cons_self
      · exact List.mem_cons_of_mem _ (ih later)
    | reduce p => exact List.mem_cons_of_mem _ (ih mem)

section Runs

variable {prodlist : List ProductionDef} {lexer : Lexer} {h : WellFormed prodlist lexer}
  {lalr : LalrStates} {automaton : Automaton} {lexems : List Lexem} {lastline : Int}

theorem Step.viable (follows : Follows h lalr automaton) {f f' : Feed} {m : ParserMove}
    {g : ProductionForest prodlist} (viable : Viable h lalr f.ctx.stateStack g)
    (step : Step automaton f m f') :
    if accepting m then (productionsOf prodlist h).IsParse g.symbols ∧
      m = .reduce (prodlist.get (productionsOf prodlist h).start).acceptAction
    else ∃ g' : ProductionForest prodlist, Viable h lalr f'.ctx.stateStack g' ∧
      g'.moves.map actionMove = g.moves.map actionMove ++ [m] := by
  obtain ⟨lexem, rest, action, consumed, input, -, table, rfl, fed, -⟩ := step
  obtain ⟨action', table', cases_of⟩ := feedLexem_cases fed
  obtain rfl := Option.some.inj (table.symm.trans table')
  rcases cases_of with ⟨kind, rfl, shifted⟩ |
    ⟨kind, -, scopeStart, reduced, n, -, hr, ⟨accept, rfl, -⟩ | ⟨reduce, rfl, hg⟩⟩
  · have not_accepting : accepting (moveOf action lexem) = false := by
      simp [moveOf, kind, accepting]
    rw [not_accepting]
    refine ⟨_, (viable.shift follows table kind shifted).2, ?_⟩
    rw [ParseForest.moves_append, List.map_append, moveOf, if_pos kind]
    rfl
  · have is_accepting : accepting (moveOf action lexem) = true := by
      simp [moveOf, accepting, accept]
    rw [is_accepting]
    obtain ⟨action_eq, roots⟩ := viable.accept follows table accept
    refine ⟨⟨viable.valid, roots⟩, ?_⟩
    rw [moveOf, if_neg kind, action_eq]
  · have not_accepting : accepting (moveOf action lexem) = false := by
      simp [moveOf, accepting, reduce]
    rw [not_accepting]
    obtain ⟨p, before, trees, action_eq, rfl, -, viable'⟩ :=
      viable.reduce follows table reduce (feedReduce_states hr) hg
    refine ⟨_, viable', ?_⟩
    rw [ParseForest.moves_append, ParseForest.moves_append, ParseForest.moves, ParseForest.moves,
      moveOf, if_neg kind, action_eq]
    simp only [List.map_append, List.map_cons, List.map_nil, List.append_assoc]
    rfl

theorem run_viable (follows : Follows h lalr automaton) {ms : List ParserMove} {f : Feed}
    (run : Run automaton (Feed.start lexems lastline) ms f) :
    if ms.any accepting then ∃ g : ProductionForest prodlist, (productionsOf prodlist h).IsParse g.symbols ∧
      ms = g.moves.map actionMove ++
        [.reduce (prodlist.get (productionsOf prodlist h).start).acceptAction]
    else ∃ g : ProductionForest prodlist, Viable h lalr f.ctx.stateStack g ∧
      g.moves.map actionMove = ms := by
  induction run with
  | refl => exact ⟨.nil, ⟨trivial, .bottom rfl⟩, rfl⟩
  | @tail ms f f' m run step ih =>
    cases done : ms.any accepting with
    | true =>
      obtain ⟨_, -, holds⟩ := run_holds run
      rw [if_pos done] at holds
      obtain ⟨lexem, rest, -, -, input, -⟩ := step
      rw [holds.2.1] at input
      cases input
    | false =>
      rw [done] at ih
      obtain ⟨g, viable, rfl⟩ := ih
      have next := step.viable follows viable
      rw [List.any_append, done, Bool.false_or, List.any_cons, List.any_nil, Bool.or_false]
      cases last : accepting m with
      | true =>
        rw [last] at next
        obtain ⟨whole, rfl⟩ := next
        exact ⟨g, whole, rfl⟩
      | false =>
        rw [last] at next
        exact next

theorem run_trees (follows : Follows h lalr automaton) {ms : List ParserMove} {f : Feed}
    (run : Run automaton (Feed.start lexems lastline) ms f) (accepted : ms.any accepting = true) :
    ∃ g : ProductionForest prodlist, (productionsOf prodlist h).IsParse g.symbols ∧ g.yield = lexems ∧
      ms = g.moves.map actionMove ++
        [.reduce (prodlist.get (productionsOf prodlist h).start).acceptAction] ∧
      Accepted automaton.lexer f.ctx
        (.node (prodlist.get (productionsOf prodlist h).start).acceptAction g.actions .nil) := by
  have viable := run_viable follows run
  rw [if_pos accepted] at viable
  obtain ⟨g, whole, rfl⟩ := viable
  obtain ⟨trees, replayed, holds⟩ := run_holds run
  rw [if_pos accepted] at holds
  obtain ⟨folded, -, leaves⟩ := holds
  have length : g.actions.length =
      (prodlist.get (productionsOf prodlist h).start).acceptAction.count := by
    have same := congrArg List.length whole.roots_eq
    rw [Productions.length_roots] at same
    have first : g.actions.length = g.length := ParseForest.length_map g
    have second : g.symbols.length = g.length := ParseForest.length_map g
    rw [first, ← second, same]
    exact List.length_map _
  have fits : (ParseForest.node (prodlist.get (productionsOf prodlist h).start).acceptAction g.actions
      .nil).Fits Action.count := ⟨length, ProductionForest.fits_actions whole.valid, trivial⟩
  have built := ParseForest.replay_moves fits .nil
  rw [ParseForest.moves, ParseForest.moves, ProductionForest.moves_actions] at built
  obtain rfl := Option.some.inj (replayed.symm.trans built)
  refine ⟨g, whole, ?_, rfl, folded⟩
  have same : g.actions.yield = g.yield := by
    have mapped : g.actions.yield = g.yield.map id := ParseForest.yield_map g
    rw [mapped, List.map_id]
  rw [← same, ← leaves]
  simp [ParseForest.append, ParseForest.yield]

/-- The productions that were reduced, from the last one to the first one, are a rightmost derivation
    of the input. -/
theorem ProductionForest.rightmost {g : ProductionForest prodlist}
    (whole : (productionsOf prodlist h).IsParse g.symbols) :
    (productionsOf prodlist h).Rightmost
      [(productionsOf prodlist h).head (productionsOf prodlist h).start]
      ((productionsOf prodlist h).start :: (reductionsOf g.moves).reverse)
      ((g.yield.map Lexem.id).map .terminal) := by
  have leaves : g.symbols.yield = (g.yield.map Lexem.id).map .terminal := by
    rw [ProductionForest.yield_symbols, List.map_map]
    rfl
  have derivation := whole.valid.rightmost leaves
  have moves : g.symbols.moves = g.moves.map (Move.map (fun lexem => .terminal lexem.id) id) :=
    ParseForest.moves_map g
  rw [whole.roots_eq, moves, reductionsOf_map, List.map_id] at derivation
  have first := @Productions.Rightmost.step _ _ _ (productionsOf prodlist h) []
    (productionsOf prodlist h).start [] (reductionsOf g.moves).reverse
    ((g.yield.map Lexem.id).map .terminal)
  simp only [List.map_nil, List.append_nil, List.nil_append] at first
  exact first derivation

theorem accepted_of_consumed (follows : Follows h lalr automaton) {ms : List ParserMove}
    {ctx : CompilerContext} (run : Run automaton (Feed.start lexems lastline) ms ⟨ctx, []⟩) :
    ms.any accepting = true := by
  -- no lexem with the number 0 is shifted
  have shifted {f : Feed} {ns : List ParserMove}
      (run : Run automaton (Feed.start lexems lastline) ns f) :
      ∀ lexem, Move.shift lexem ∈ ns → 0 < lexem.id := by
    induction run with
    | refl => simp
    | @tail ns f f' m run step ih =>
      intro lexem mem
      rcases List.mem_append.mp mem with old | new
      · exact ih lexem old
      · obtain rfl := List.mem_singleton.mp new
        have viable := run_viable follows run
        cases done : ns.any accepting with
        | true =>
          obtain ⟨_, -, holds⟩ := run_holds run
          rw [if_pos done] at holds
          obtain ⟨lexem, rest, -, -, input, -⟩ := step
          rw [holds.2.1] at input
          cases input
        | false =>
          rw [done] at viable
          obtain ⟨g, viable, -⟩ := viable
          obtain ⟨lexem', rest, action, consumed, input, -, table, move, fed, -⟩ := step
          obtain ⟨action', table', cases_of⟩ := feedLexem_cases fed
          obtain rfl := Option.some.inj (table.symm.trans table')
          unfold moveOf at move
          split at move
          · rename_i kind
            obtain rfl := Move.shift.inj move
            rcases cases_of with ⟨-, -, shifted⟩ | ⟨other, -⟩
            · exact (viable.shift follows table kind shifted).1
            · exact absurd kind other
          · cases move
  by_contra not_accepted
  have not_accepted : ms.any accepting = false := by simpa using not_accepted
  obtain ⟨trees, replayed, holds⟩ := run_holds run
  rw [not_accepted] at holds
  obtain ⟨-, leaves⟩ := holds
  have moves := ParseForest.moves_of_replay replayed
  have tokens := tokensOf_moves trees
  rw [moves] at tokens
  have last : Lexem.atEnd lastline ∈ tokensOf ms := by
    have same : trees.yield = lexems ++ [Lexem.atEnd lastline] := by
      simpa using leaves
    rw [show tokensOf ms = trees.yield from tokens, same]
    simp
  have positive := shifted run _ (shift_mem last)
  simp [Lexem.atEnd] at positive

theorem rightmost_of_run (follows : Follows h lalr automaton) {ms : List ParserMove}
    {ctx : CompilerContext} (run : Run automaton (Feed.start lexems lastline) ms ⟨ctx, []⟩) :
    ∃ ps : List (Fin prodlist.length),
      reductionsOf ms = ps.map (fun p => (prodlist.get p).reduceAction) ++
        [(prodlist.get (productionsOf prodlist h).start).acceptAction] ∧
      (productionsOf prodlist h).Rightmost [.nonterminal 1]
        ((productionsOf prodlist h).start :: ps.reverse) ((lexems.map Lexem.id).map .terminal) := by
  obtain ⟨g, whole, rfl, rfl, -⟩ := run_trees follows run (accepted_of_consumed follows run)
  refine ⟨reductionsOf g.moves, ?_, ?_⟩
  · rw [reductionsOf_append]
    unfold actionMove
    rw [reductionsOf_map]
    rfl
  · have derivation := ProductionForest.rightmost whole
    rwa [head_start] at derivation

end Runs

section Source

variable {engine : PatternEngine} {source : GrammarSource} {langdef : LanguageDef} {fuel : Nat}
  {order : HashOrder (TransitionState × Int)} {warnings warnings' : List Error}
  {automaton : Automaton} {lexems : List Lexem} {lastline : Int}

theorem exists_follows (parsed : parseLanguageDef engine source = .ok langdef)
    (fit : FollowSetsFit langdef.prodlist)
    (built : Automaton.build fuel engine order source warnings {} =
      ((automaton, warnings'), .ok ())) :
    ∃ lalr, Follows (wellFormed_of_parseLanguageDef parsed) lalr automaton := by
  obtain ⟨langdef', lalr, b, built⟩ := built_of_build built
  obtain rfl := Except.ok.inj (parsed.symm.trans built.parsed)
  exact ⟨lalr, follows_of_built built fit⟩

/-- An input that is accepted is a sentence of the grammar. The reductions made are a rightmost
    derivation of it in reverse. -/
theorem feedSource_rightmost (parsed : parseLanguageDef engine source = .ok langdef)
    (fit : FollowSetsFit langdef.prodlist)
    (built : Automaton.build fuel engine order source warnings {} =
      ((automaton, warnings'), .ok ())) {steps : Nat} {ctx : CompilerContext}
    (accepted : feedSource steps automaton lexems lastline = .ok ctx) :
    ∃ ms, Run automaton (Feed.start lexems lastline) ms ⟨ctx, []⟩ ∧
      ∃ ps : List (Fin langdef.prodlist.length),
        reductionsOf ms = ps.map (fun p => (langdef.prodlist.get p).reduceAction) ++
          [(langdef.prodlist.get (productionsOf langdef.prodlist
            (wellFormed_of_parseLanguageDef parsed)).start).acceptAction] ∧
        (productionsOf langdef.prodlist (wellFormed_of_parseLanguageDef parsed)).Rightmost
          [.nonterminal 1]
          ((productionsOf langdef.prodlist (wellFormed_of_parseLanguageDef parsed)).start ::
            ps.reverse) ((lexems.map Lexem.id).map .terminal) := by
  obtain ⟨lalr, follows⟩ := exists_follows parsed fit built
  obtain ⟨ms, run⟩ := run_of_feedSource accepted
  exact ⟨ms, run, rightmost_of_run follows run⟩

/-- A sum with nothing between its two `+`. -/
def sumInput : List Lexem :=
  [⟨"x", 2, "x", 1⟩, ⟨"+", 1, "+", 1⟩, ⟨"+", 1, "+", 1⟩, ⟨"x", 2, "x", 2⟩]

theorem accepted_sum :
    ∃ ctx, feedSource 20 (Sample.automaton Sample.sumLexems) sumInput 2 = .ok ctx := by
  have returned : (feedSource 20 (Sample.automaton Sample.sumLexems) sumInput
      2).toOption.isSome = true := by decide +kernel
  obtain ⟨ctx, accepted⟩ := Option.isSome_iff_exists.mp returned
  exact ⟨ctx, toOption_eq_some.mp accepted⟩

theorem feedSource_rightmost_sum :
    ∃ langdef, ∃ parsed : parseLanguageDef Sample.engine (Sample.grammar Sample.sumLexems) =
        .ok langdef,
      (∃ ctx, feedSource 20 (Sample.automaton Sample.sumLexems) sumInput 2 = .ok ctx) ∧
      ∃ ps, (productionsOf langdef.prodlist (wellFormed_of_parseLanguageDef parsed)).Rightmost
        [.nonterminal 1] ps ([2, 1, 1, 2].map .terminal) := by
  obtain ⟨langdef, buildable, -⟩ := Sample.exists_buildable_sum
  obtain ⟨ctx, accepted⟩ := accepted_sum
  obtain ⟨ms, -, ps, -, derivation⟩ :=
    feedSource_rightmost buildable.parsed buildable.fit Sample.build_sum accepted
  exact ⟨langdef, buildable.parsed, ⟨ctx, accepted⟩, _, derivation⟩

/-- The Lua stack of an input that is accepted is the fold over its parse tree. -/
theorem feedSource_ast (parsed : parseLanguageDef engine source = .ok langdef)
    (fit : FollowSetsFit langdef.prodlist)
    (built : Automaton.build fuel engine order source warnings {} =
      ((automaton, warnings'), .ok ())) {steps : Nat} {ctx : CompilerContext}
    (accepted : feedSource steps automaton lexems lastline = .ok ctx) :
    ∃ g : ProductionForest langdef.prodlist,
      (productionsOf langdef.prodlist (wellFormed_of_parseLanguageDef parsed)).IsParse g.symbols ∧
      g.yield = lexems ∧
      astOf automaton.lexer (.node ((langdef.prodlist.get (productionsOf langdef.prodlist
        (wellFormed_of_parseLanguageDef parsed)).start).acceptAction) g.actions .nil) {} =
          (ctx.luaStack, ⟨ctx.scopestep, ctx.line⟩) := by
  obtain ⟨lalr, follows⟩ := exists_follows parsed fit built
  obtain ⟨ms, run⟩ := run_of_feedSource accepted
  obtain ⟨g, whole, leaves, -, folded⟩ :=
    run_trees follows run (accepted_of_consumed follows run)
  exact ⟨g, whole, leaves, folded.fold⟩

theorem feedSource_ast_sum :
    ∃ langdef, ∃ parsed : parseLanguageDef Sample.engine (Sample.grammar Sample.sumLexems) =
        .ok langdef,
      ∃ ctx, feedSource 20 (Sample.automaton Sample.sumLexems) sumInput 2 = .ok ctx ∧
      ∃ g : ProductionForest langdef.prodlist,
        (productionsOf langdef.prodlist (wellFormed_of_parseLanguageDef parsed)).IsParse
          g.symbols ∧ g.yield = sumInput ∧
        astOf (Sample.automaton Sample.sumLexems).lexer (.node ((langdef.prodlist.get
          (productionsOf langdef.prodlist
            (wellFormed_of_parseLanguageDef parsed)).start).acceptAction) g.actions .nil) {} =
              (ctx.luaStack, ⟨ctx.scopestep, ctx.line⟩) := by
  obtain ⟨langdef, buildable, -⟩ := Sample.exists_buildable_sum
  obtain ⟨ctx, accepted⟩ := accepted_sum
  exact ⟨langdef, buildable.parsed, ctx, accepted,
    feedSource_ast buildable.parsed buildable.fit Sample.build_sum accepted⟩

end Source

end Mewa.Compiler
