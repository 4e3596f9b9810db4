/- Module: Mewa/Compiler/Counter
   digest: The counter of steps and scopes counts the reductions with a call and a scope flag. -/

import Mewa.Automaton.Entries
import Mewa.Compiler.Scopes
import Mewa.Lib.Derivation

set_option autoImplicit false
set_option relaxedAutoImplicit false

namespace Mewa

open Mewa.Lib

def Action.DoneBy (action : Action) (prod : ProductionDef) : Prop :=
  action = prod.reduceAction ∨ action = prod.acceptAction

namespace ProductionDef

/-- The reductions by a production should count: it is declared with a step, or with a scope and a
    function. -/
def counts (prod : ProductionDef) : Bool :=
  prod.scope = .Step || (prod.scope = .Scope && prod.callidx ≠ 0)

/-- A production declared with a step and without a function. -/
def bareStep (prod : ProductionDef) : Bool := prod.scope = .Step && prod.callidx = 0

end ProductionDef

theorem Action.DoneBy.call {action : Action} {prod : ProductionDef} (done : action.DoneBy prod) :
    action.call = prod.callidx ∧ action.scopeflag = prod.scope := by
  rcases done with rfl | rfl <;> exact ⟨rfl, rfl⟩

theorem Candidate.exists_production {input : BuildInput} {state : TransitionState}
    {terminal : Int} {action : Action} (candidate : Candidate input state terminal action)
    (reduces : action.type ≠ .Shift) : ∃ prod ∈ input.prodlist, action.DoneBy prod := by
  cases candidate with
  | shift _ _ _ => exact absurd rfl reduces
  | @reduce item prod elems _ completed _ _ =>
    obtain ⟨in_list, -⟩ := Option.filter_eq_some_iff.mp completed
    exact ⟨prod, List.mem_of_getElem? in_list, Or.inl rfl⟩
  | @accept prod _ _ head => exact ⟨prod, List.mem_of_mem_head? head, Or.inr rfl⟩

namespace Compiler

def increment (action : Action) : Int :=
  if action.call ≠ 0 ∧ action.scopeflag ≠ .NoScope then 1 else 0

def moveIncrement : ParserMove → Int
  | .shift _ => 0
  | .reduce action => increment action

theorem feedReduce_scopestep {action : Action} {scopeStart : Int}
    {ctx reduced : CompilerContext} {n : Int}
    (h : feedReduce action scopeStart ctx = .ok (reduced, n)) :
    reduced.scopestep = ctx.scopestep + increment action := by
  unfold feedReduce at h
  unfold increment
  split at h
  · rename_i call
    obtain ⟨made, hmade, h⟩ := bind_eq_ok.mp h
    obtain ⟨rfl, -⟩ := Prod.mk.inj (Except.ok.inj h)
    unfold luaReduceStruct at hmade
    simp only at hmade
    split at hmade
    · simp at hmade
    · obtain rfl := Except.ok.inj hmade
      by_cases scope : action.scopeflag = .NoScope <;> simp [scope, call]
  · rename_i call
    obtain ⟨rfl, -⟩ := Prod.mk.inj (Except.ok.inj h)
    simp [not_not.mp call]

theorem feedShift_scopestep {automaton : Automaton} {state : Int} {lexem : Lexem}
    {ctx ctx' : CompilerContext} (h : feedShift automaton state lexem ctx = .ok ctx') :
    ctx'.scopestep = ctx.scopestep := by
  unfold feedShift at h
  obtain ⟨keyword, _, h⟩ := bind_eq_ok.mp h
  split at h
  · obtain rfl := Except.ok.inj h
    rfl
  · obtain ⟨index, _, h⟩ := bind_eq_ok.mp h
    obtain rfl := Except.ok.inj h
    rfl

theorem feedAccept_scopestep {n : Int} {lexem : Lexem} {ctx ctx' : CompilerContext}
    (h : feedAccept n lexem ctx = .ok ctx') : ctx'.scopestep = ctx.scopestep := by
  unfold feedAccept at h
  split at h
  · simp [throw] at h
  · split at h
    · split at h
      · simp [throw] at h
      · obtain rfl := Except.ok.inj h
        rfl
    · simp [throw] at h

theorem feedGoto_scopestep {automaton : Automaton} {action : Action} {n scopeStart : Int}
    {lexem : Lexem} {ctx ctx' : CompilerContext}
    (h : feedGoto automaton action n scopeStart lexem ctx = .ok ctx') :
    ctx'.scopestep = ctx.scopestep := by
  unfold feedGoto at h
  split at h
  · simp at h
  · split at h
    · obtain ⟨info, _, h⟩ := bind_eq_ok.mp h
      simp [throw] at h
    · split at h
      · obtain ⟨index, _, h⟩ := bind_eq_ok.mp h
        obtain rfl := Except.ok.inj h
        rfl
      · obtain rfl := Except.ok.inj h
        rfl

theorem Step.scopestep {automaton : Automaton} {f g : Feed} {m : ParserMove}
    (step : Step automaton f m g) : g.ctx.scopestep = f.ctx.scopestep + moveIncrement m := by
  obtain ⟨lexem, rest, action, consumed, -, -, table, rfl, fed, -⟩ := step
  obtain ⟨action', table', cases_of⟩ := feedLexem_cases fed
  obtain rfl := Option.some.inj (table.symm.trans table')
  rcases cases_of with ⟨kind, -, shifted⟩ | ⟨kind, -, _, reduced, n, -, hr, rest_of⟩
  · rw [feedShift_scopestep shifted, moveOf, if_pos kind]
    simp [moveIncrement]
  · rw [moveOf, if_neg kind, moveIncrement, ← feedReduce_scopestep hr]
    rcases rest_of with ⟨-, -, ha⟩ | ⟨-, -, hg⟩
    · exact feedAccept_scopestep ha
    · exact feedGoto_scopestep hg

theorem Run.reduction_mem {automaton : Automaton} {f g : Feed} {ms : List ParserMove}
    (run : Run automaton f ms g) : ∀ action ∈ reductionsOf ms,
      action.type ≠ .Shift ∧ ∃ key, automaton.actions.find key = some action := by
  induction run with
  | refl => simp [reductionsOf]
  | @tail ms g h m run step ih =>
    intro action mem
    rw [reductionsOf_append] at mem
    rcases List.mem_append.mp mem with old | new
    · exact ih action old
    · obtain ⟨lexem, _, action', _, _, _, table, rfl, _, _⟩ := step
      unfold moveOf at new
      split at new
      · simp [reductionsOf] at new
      · rename_i kind
        obtain rfl : action = action' := by simpa [reductionsOf] using new
        obtain ⟨top, -, found⟩ := Option.bind_eq_some_iff.mp table
        exact ⟨kind, _, found⟩

/-- The counter law for a run with the productions of its reductions: it is the number of those
    that count, each of them adds one and nothing else changes it. -/
structure CounterLaw (automaton : Automaton) (start g : Feed) (ms : List ParserMove)
    (prods : List ProductionDef) : Prop where
  total : g.ctx.scopestep = (prods.countP ProductionDef.counts : Nat)
  shift : ∀ {past lexem after f f'}, ms = past ++ .shift lexem :: after →
    Run automaton start past f → Step automaton f (.shift lexem) f' →
    f'.ctx.scopestep = f.ctx.scopestep
  reduce : ∀ {past action after f f' prod}, ms = past ++ .reduce action :: after →
    Run automaton start past f → Step automaton f (.reduce action) f' →
    prods[(reductionsOf past).length]? = some prod →
    f'.ctx.scopestep = f.ctx.scopestep + if prod.counts then 1 else 0

def DoneBy (langdef : LanguageDef) (ms : List ParserMove) (prods : List ProductionDef) : Prop :=
  List.Forall₂ (fun action prod => prod ∈ langdef.prodlist ∧ action.DoneBy prod)
    (reductionsOf ms) prods

theorem increment_eq {action : Action} {prod : ProductionDef} (done : action.DoneBy prod) :
    increment action = (if prod.counts then 1 else 0) - if prod.bareStep then 1 else 0 := by
  obtain ⟨call, scope⟩ := done.call
  unfold increment ProductionDef.counts ProductionDef.bareStep
  rw [call, scope]
  cases prod.scope <;> by_cases zero : prod.callidx = 0 <;> simp [zero]

theorem Run.scopestep {automaton : Automaton} {f g : Feed} {ms : List ParserMove}
    (run : Run automaton f ms g) {prods : List ProductionDef}
    (done : List.Forall₂ Action.DoneBy (reductionsOf ms) prods) :
    g.ctx.scopestep + (prods.countP ProductionDef.bareStep : Nat) =
      f.ctx.scopestep + (prods.countP ProductionDef.counts : Nat) := by
  induction run generalizing prods with
  | refl =>
    cases done
    simp
  | @tail ms g h m run step ih =>
    rw [step.scopestep]
    cases m with
    | shift lexem =>
      rw [reductionsOf_append, reductionsOf, reductionsOf, List.append_nil] at done
      have same := ih done
      simpa [moveIncrement] using same
    | reduce action =>
      rw [reductionsOf_append, reductionsOf, reductionsOf] at done
      obtain ⟨before, last, done_before, done_last, rfl⟩ :
          ∃ before last, List.Forall₂ Action.DoneBy (reductionsOf ms) before ∧
            List.Forall₂ Action.DoneBy [action] last ∧ prods = before ++ last :=
        ⟨prods.take (reductionsOf ms).length, prods.drop (reductionsOf ms).length,
          by simpa using List.forall₂_take (reductionsOf ms).length done,
          by simpa using List.forall₂_drop (reductionsOf ms).length done,
          (List.take_append_drop _ _).symm⟩
      cases done_last with
      | @cons _ prod _ _ by_prod nothing =>
        cases nothing
        have before_eq := ih done_before
        have added := increment_eq by_prod
        rw [moveIncrement, added, List.countP_append, List.countP_append, List.countP_singleton,
          List.countP_singleton]
        push_cast
        split_ifs <;> omega

/-- The counter law holds of a run from the start if and only if no reduction of it is by a
    production with a step and without a function. -/
theorem counterLaw_iff {automaton : Automaton} {lexems : List Lexem} {lastline : Int}
    {ms : List ParserMove} {g : Feed} (run : Run automaton (Feed.start lexems lastline) ms g)
    {prods : List ProductionDef} (done : List.Forall₂ Action.DoneBy (reductionsOf ms) prods) :
    CounterLaw automaton (Feed.start lexems lastline) g ms prods ↔
      ∀ prod ∈ prods, prod.bareStep = false := by
  have total := run.scopestep done
  have zero : (Feed.start lexems lastline).ctx.scopestep = 0 := rfl
  rw [zero, Int.zero_add] at total
  constructor
  · intro law
    have none_missed : prods.countP ProductionDef.bareStep = 0 := by
      have counted := law.total
      omega
    intro prod mem
    exact Bool.eq_false_iff.mpr (List.countP_eq_zero.mp none_missed prod mem)
  · intro none_bare
    have none_missed : prods.countP ProductionDef.bareStep = 0 :=
      List.countP_eq_zero.mpr fun prod mem => by simp [none_bare prod mem]
    refine ⟨by omega, ?_, ?_⟩
    · intro past lexem after f f' _ _ step
      rw [step.scopestep]
      simp [moveIncrement]
    · intro past action after f f' prod split _ step at_index
      have by_prod : action.DoneBy prod := by
        rw [split, reductionsOf_append, reductionsOf] at done
        have tail := List.forall₂_drop (reductionsOf past).length done
        rw [List.drop_left, List.drop_eq_getElem_cons (List.getElem?_eq_some_iff.mp at_index).1,
          (List.getElem?_eq_some_iff.mp at_index).2] at tail
        exact (List.forall₂_cons.mp tail).1
      rw [step.scopestep, moveIncrement, increment_eq by_prod,
        none_bare prod (List.mem_of_getElem? at_index)]
      simp

/-- The reductions of every run of a built automaton are by productions of its grammar, with the
    children first, and the counter law holds of the run if and only if none of the productions has
    a step without a function. -/
theorem build_counterLaw_iff {fuel : Nat} {engine : PatternEngine}
    {order : HashOrder (TransitionState × Int)} {source : GrammarSource}
    {warnings warnings' : List Error} {automaton : Automaton}
    (built : Automaton.build fuel engine order source warnings {} =
      ((automaton, warnings'), .ok ()))
    {lexems : List Lexem} {lastline : Int} {ms : List ParserMove} {g : Feed}
    (run : Run automaton (Feed.start lexems lastline) ms g) :
    ∃ langdef, parseLanguageDef engine source = .ok langdef ∧
      (∃ f, ParseForest.nil.replay Action.count ms = some f) ∧
      (∃ prods, DoneBy langdef ms prods) ∧
      ∀ prods, DoneBy langdef ms prods →
        (CounterLaw automaton (Feed.start lexems lastline) g ms prods ↔
          ∀ prod ∈ prods, ¬ (prod.scope = .Step ∧ prod.callidx = 0)) := by
  obtain ⟨langdef, lalr, b, built⟩ := built_of_build built
  obtain ⟨f, replayed, -⟩ := run_holds run
  refine ⟨langdef, built.parsed, ⟨f, replayed⟩, ?_, ?_⟩
  · have each : ∀ action ∈ reductionsOf ms,
        ∃ prod ∈ langdef.prodlist, action.DoneBy prod := by
      intro action mem
      obtain ⟨kind, key, found⟩ := run.reduction_mem action mem
      rw [built.actions] at found
      obtain ⟨state, -, candidate⟩ := built.sound.actions key action found
      exact candidate.exists_production kind
    unfold DoneBy
    generalize reductionsOf ms = actions at each
    induction actions with
    | nil => exact ⟨[], .nil⟩
    | cons action actions ih =>
      obtain ⟨prod, done⟩ := each action List.mem_cons_self
      obtain ⟨prods, rest⟩ := ih fun x mem => each x (List.mem_cons_of_mem action mem)
      exact ⟨prod :: prods, .cons done rest⟩
  · intro prods done
    rw [counterLaw_iff run (done.imp fun _ _ => And.right)]
    simp [ProductionDef.bareStep]

theorem build_counterLaw_iff_blocks :
    ∃ langdef, parseLanguageDef Sample.engine (Sample.grammar blockLexems) = .ok langdef ∧
      (∃ f, ParseForest.nil.replay Action.count
        (runFor (Sample.automaton blockLexems) 40 (Feed.start blockInput 1)).1 = some f) ∧
      (∃ prods, DoneBy langdef
        (runFor (Sample.automaton blockLexems) 40 (Feed.start blockInput 1)).1 prods) ∧
      ∀ prods, DoneBy langdef
          (runFor (Sample.automaton blockLexems) 40 (Feed.start blockInput 1)).1 prods →
        (CounterLaw (Sample.automaton blockLexems) (Feed.start blockInput 1)
            (runFor (Sample.automaton blockLexems) 40 (Feed.start blockInput 1)).2
            (runFor (Sample.automaton blockLexems) 40 (Feed.start blockInput 1)).1 prods ↔
          ∀ prod ∈ prods, ¬ (prod.scope = .Step ∧ prod.callidx = 0)) := by
  have built : Sample.build blockLexems = ((Sample.automaton blockLexems, []), .ok ()) :=
    Sample.build_eq (by decide +kernel) (by decide +kernel)
  exact build_counterLaw_iff built (run_runFor _ _ _)

/-- A list whose items are joined by productions with a step and no function. -/
def stepLexems : List (LexemType × String) :=
  [(.IDENT, "S"), (.EQUAL, "="), (.IDENT, "L"), (.SEMICOLON, ";"),
    (.IDENT, "L"), (.EQUAL, "="), (.IDENT, "x"), (.IDENT, "L"), (.OPENBRK, "("), (.STEP, ">>"),
    (.CLOSEBRK, ")"), (.OR, "|"), (.IDENT, "x"), (.OPENBRK, "("), (.STEP, ">>"), (.IDENT, "leaf"),
    (.CLOSEBRK, ")"), (.SEMICOLON, ";"),
    (.IDENT, "x"), (.DDOT, ":"), (.SQSTRING, "x"), (.SEMICOLON, ";")]

def stepInput : List Lexem := [⟨"x", 1, "x", 1⟩, ⟨"x", 1, "x", 1⟩]

/-- The source `x x` is reduced by two productions with a step, but the counter is 1. -/
theorem bareStep_not_counted :
    ∃ langdef prods ms g,
      Sample.build stepLexems = ((Sample.automaton stepLexems, []), .ok ()) ∧
      parseLanguageDef Sample.engine (Sample.grammar stepLexems) = .ok langdef ∧
      Run (Sample.automaton stepLexems) (Feed.start stepInput 1) ms g ∧
      ms.any accepting = true ∧ DoneBy langdef ms prods ∧
      prods.countP ProductionDef.counts = 2 ∧ g.ctx.scopestep = 1 ∧
      ¬ CounterLaw (Sample.automaton stepLexems) (Feed.start stepInput 1) g ms prods := by
  have shape : ((parseLanguageDef Sample.engine (Sample.grammar stepLexems)).toOption.bind
      fun langdef => do
        let leaf ← langdef.prodlist[2]?
        let list ← langdef.prodlist[1]?
        let start ← langdef.prodlist[0]?
        some (decide (reductionsOf (runFor (Sample.automaton stepLexems) 20
            (Feed.start stepInput 1)).1 =
              [leaf.reduceAction, list.reduceAction, start.acceptAction] ∧
          [leaf, list, start].countP ProductionDef.counts = 2))) = some true := by decide +kernel
  have counter : (runFor (Sample.automaton stepLexems) 20
      (Feed.start stepInput 1)).2.ctx.scopestep = 1 := by decide +kernel
  have accepted : (runFor (Sample.automaton stepLexems) 20
      (Feed.start stepInput 1)).1.any accepting = true := by decide +kernel
  obtain ⟨langdef, parsed, shape⟩ := Option.bind_eq_some_iff.mp shape
  obtain ⟨leaf, at_leaf, shape⟩ := Option.bind_eq_some_iff.mp shape
  obtain ⟨list, at_list, shape⟩ := Option.bind_eq_some_iff.mp shape
  obtain ⟨start, at_start, shape⟩ := Option.bind_eq_some_iff.mp shape
  obtain ⟨reductions, count⟩ := of_decide_eq_true (Option.some.inj shape)
  refine ⟨langdef, [leaf, list, start], _, _,
    Sample.build_eq (by decide +kernel) (by decide +kernel), toOption_eq_some.mp parsed,
    run_runFor (Sample.automaton stepLexems) 20 (Feed.start stepInput 1), accepted, ?_, count,
    counter, ?_⟩
  · unfold DoneBy
    rw [reductions]
    exact .cons ⟨List.mem_of_getElem? at_leaf, Or.inl rfl⟩
      (.cons ⟨List.mem_of_getElem? at_list, Or.inl rfl⟩
        (.cons ⟨List.mem_of_getElem? at_start, Or.inr rfl⟩ .nil))
  · intro law
    have total := law.total
    rw [counter, count] at total
    omega

end Compiler

end Mewa
