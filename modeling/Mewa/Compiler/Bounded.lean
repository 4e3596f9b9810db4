/- Module: Mewa/Compiler/Bounded
   digest: A parser without empty productions and without cycles of unit productions stops for every
   input, after a number of steps that is a multiple of its length. -/

import Mewa.Compiler.Internal
import Mewa.Lib.Sizes

set_option autoImplicit false
set_option relaxedAutoImplicit false

namespace Mewa.Compiler

open Mewa.Lib

section Runs

variable {prodlist : List ProductionDef} {lexer : Lexer} {h : WellFormed prodlist lexer}
  {lalr : LalrStates} {automaton : Automaton} {lexems : List Lexem} {lastline : Int}
  {rank : Int → Nat} {bound : Nat}

theorem length_moves_le (ranked : (productionsOf prodlist h).Ranked rank bound)
    {g : ProductionForest prodlist} (valid : (productionsOf prodlist h).Valid g.symbols) :
    g.moves.length ≤ (2 * bound + 3) * g.yield.length := by
  have reductions := ranked.reductions_le valid
  rw [ProductionForest.yield_symbols, List.length_map] at reductions
  have same : (reductionsOf (ParseForest.moves g.symbols)).length = (reductionsOf g.moves).length := by
    unfold ProductionForest.symbols
    rw [ParseForest.moves_map, reductionsOf_map, List.map_id]
  have total : (2 * bound + 3) * g.yield.length =
      2 * (bound + 1) * g.yield.length + g.yield.length := by ring
  rw [length_moves, tokensOf_moves, total, ← same]
  omega

theorem run_length_le (follows : Follows h lalr automaton)
    (ranked : (productionsOf prodlist h).Ranked rank bound) {ms : List ParserMove} {f : Feed}
    (run : Run automaton (Feed.start lexems lastline) ms f) :
    ms.length ≤ (2 * bound + 3) * (lexems.length + 1) + 1 := by
  have viable := run_viable follows run
  obtain ⟨trees, replayed, holds⟩ := run_holds run
  have moves := ParseForest.moves_of_replay replayed
  have more : (2 * bound + 3) * (lexems.length + 1) =
      (2 * bound + 3) * lexems.length + (2 * bound + 3) := by ring
  cases done : ms.any accepting with
  | true =>
    obtain ⟨g, parse, leaves, rfl, -⟩ := run_trees follows run done
    have few := length_moves_le ranked parse.valid
    rw [leaves] at few
    rw [List.length_append, List.length_map, List.length_singleton]
    omega
  | false =>
    rw [done] at viable holds
    obtain ⟨g, viable, rfl⟩ := viable
    have few := length_moves_le ranked viable.valid
    have leaves := congrArg List.length holds.2
    rw [List.length_append, List.length_append, List.length_singleton] at leaves
    have tokens : trees.yield = g.yield := by
      rw [← tokensOf_moves, ← tokensOf_moves, moves]
      unfold actionMove
      rw [ParseForest.moves, List.nil_append, tokensOf_map, List.map_id]
    rw [tokens] at leaves
    have within : g.yield.length ≤ lexems.length + 1 := by omega
    have scaled := Nat.mul_le_mul_left (2 * bound + 3) within
    rw [List.length_map]
    omega

end Runs

/-- The parser of a grammar without empty right sides, where the nonterminals that are alone on a right
    side go down in rank, stops for every input. -/
theorem run_bounded {engine : PatternEngine} {source : GrammarSource} {langdef : LanguageDef}
    {fuel : Nat} {order : HashOrder (TransitionState × Int)} {warnings warnings' : List Error}
    {automaton : Automaton} (parsed : parseLanguageDef engine source = .ok langdef)
    (fit : FollowSetsFit langdef.prodlist)
    (built : Automaton.build fuel engine order source warnings {} =
      ((automaton, warnings'), .ok ())) {rank : Int → Nat} {bound : Nat}
    (ranked : (productionsOf langdef.prodlist (wellFormed_of_parseLanguageDef parsed)).Ranked
      rank bound) {lexems : List Lexem} {lastline : Int} {ms : List ParserMove} {f : Feed}
    (run : Run automaton (Feed.start lexems lastline) ms f) :
    ms.length ≤ (2 * bound + 3) * (lexems.length + 1) + 1 := by
  obtain ⟨lalr, follows⟩ := exists_follows parsed fit built
  exact run_length_le follows ranked run

theorem rule_cases_list {langdef : LanguageDef}
    {h : WellFormed langdef.prodlist langdef.lexer}
    (rules : langdef.prodlist.map ruleOf = Sample.listRules) (p : Fin langdef.prodlist.length) :
    (productionsOf langdef.prodlist h).rule p = ⟨1, [.nonterminal 2]⟩ ∨
      (productionsOf langdef.prodlist h).rule p = ⟨2, [.terminal 1, .nonterminal 2]⟩ ∨
      (productionsOf langdef.prodlist h).rule p = ⟨2, [.terminal 1]⟩ := by
  simpa [Sample.listRules] using Sample.rule_mem (h := h) rules p

theorem ranked_list {langdef : LanguageDef} {h : WellFormed langdef.prodlist langdef.lexer}
    (rules : langdef.prodlist.map ruleOf = Sample.listRules) :
    (productionsOf langdef.prodlist h).Ranked (fun n => (2 - n).toNat) 1 where
  nonempty p := by
    rcases rule_cases_list (h := h) rules p with rule | rule | rule <;> simp [rule]
  unit p B single := by
    rcases rule_cases_list (h := h) rules p with rule | rule | rule
    · rw [rule] at single ⊢
      simp only [List.cons.injEq, Symbol.nonterminal.injEq, and_true] at single
      simp [← single]
    all_goals simp [rule] at single
  le_bound p := by
    rcases rule_cases_list (h := h) rules p with rule | rule | rule <;> simp [rule]

def listInput : List Lexem := [⟨"x", 1, "x", 1⟩, ⟨"x", 1, "x", 2⟩]

theorem run_bounded_list :
    (runFor (Sample.automaton Sample.listLexems) 20 (Feed.start listInput 2)).1.length ≤
      (2 * 1 + 3) * (listInput.length + 1) + 1 := by
  obtain ⟨langdef, buildable, -, rules⟩ := Sample.exists_buildable_list
  exact run_bounded buildable.parsed buildable.fit Sample.build_list (ranked_list rules)
    (run_runFor _ _ _)

end Mewa.Compiler
