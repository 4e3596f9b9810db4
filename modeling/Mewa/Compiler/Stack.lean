/- Module: Mewa/Compiler/Stack
   digest: Every step keeps the Lua stack the fold of the trees that its moves have built. -/

import Mewa.Compiler.Ast

set_option autoImplicit false
set_option relaxedAutoImplicit false

namespace Mewa.Compiler

open Mewa.Lib

def Holds (lexer : Lexer) (ctx : CompilerContext) (f : ActionForest) : Prop :=
  StackOf lexer ctx.stateStack f ⟨ctx.scopestep, ctx.line⟩ ctx.luaStack

theorem Holds.start (lexer : Lexer) : Holds lexer {} .nil := StackOf.bottom

/-- What is left of a context when the states of a right side are taken away and their nodes are
    made those of the left side. -/
structure Reduced (lexer : Lexer) (action : Action) (f : ActionForest) (ctx : CompilerContext)
    (nofElements : Int) (before trees : ActionForest) (start : FoldState)
    (below : List AstNode) : Prop where
  forest : f = before.append trees
  length : trees.length = action.count
  stackOf : StackOf lexer ctx.stateStack before start below
  nodes_eq : ctx.luaStack = below ++ (astOf lexer (.node action trees .nil) start).1
  fold : (astOf lexer (.node action trees .nil) start).2 = ⟨ctx.scopestep, ctx.line⟩
  count_eq : nofElements = ((astOf lexer (.node action trees .nil) start).1.length : Int)

section Effects

variable {automaton : Automaton} {ctx : CompilerContext} {f : ActionForest}

theorem Holds.shift (holds : Holds automaton.lexer ctx f) {state : Int} {lexem : Lexem}
    {ctx' : CompilerContext} (h : feedShift automaton state lexem ctx = .ok ctx') :
    Holds automaton.lexer ctx' (f.append (.leaf lexem .nil)) := by
  have pushed := StackOf.push state (.leaf lexem .nil) rfl holds
  rw [astOf_leaf] at pushed
  unfold feedShift at h
  obtain ⟨keyword, kind, h⟩ := bind_eq_ok.mp h
  cases keyword with
  | true =>
    obtain rfl := Except.ok.inj h
    simpa [Holds, lexemNodes, kind, stateFor] using pushed
  | false =>
    simp only [Bool.false_eq_true, if_false] at h
    obtain ⟨index, next, h⟩ := bind_eq_ok.mp h
    obtain rfl := Except.ok.inj h
    have index_eq := holds.getNextLuaStackIndex_eq next
    simpa [Holds, lexemNodes, kind, stateFor, luaPushLexem, index_eq] using pushed

theorem scopeStartOf_eq {count : Nat} {s : FoldState} {nodes : List AstNode}
    {before trees : ActionForest} {start : FoldState} {below : List AstNode}
    (popped : StackOf.Popped automaton.lexer ctx.stateStack count f s nodes before trees start
      below) (scope : s.scopestep = ctx.scopestep) {scopeStart : Int}
    (h : scopeStartOf count ctx = .ok scopeStart) : scopeStart = start.scopestep := by
  unfold scopeStartOf at h
  split at h
  · rename_i zero
    obtain rfl := Except.ok.inj h
    rw [popped.empty zero, scope]
  · rename_i pos
    cases found : ctx.stateStack[count - 1]? with
    | none => simp [found] at h
    | some st =>
      rw [found] at h
      obtain rfl := Except.ok.inj h
      exact popped.counter st found (by omega)

theorem getLuaStackReductionSize_eq {stack : List State} {count : Nat} {s : FoldState}
    {nodes : List AstNode} {before trees : ActionForest} {start : FoldState}
    {below : List AstNode}
    (popped : StackOf.Popped automaton.lexer stack count f s nodes before trees start below) :
    getLuaStackReductionSize stack count = ((astOf automaton.lexer trees start).1.length : Int) := by
  have nodes_eq := congrArg List.length popped.nodes_eq
  rw [List.length_append] at nodes_eq
  unfold getLuaStackReductionSize
  simp only [popped.same, popped.first, popped.last]
  by_cases empty : (astOf automaton.lexer trees start).1 = []
  · simp [empty]
  · simp only [empty, if_false, Option.getD_some]
    omega

theorem Holds.reduce (holds : Holds automaton.lexer ctx f) {action : Action}
    (deep : action.count < ctx.stateStack.length) {scopeStart : Int}
    (scope : scopeStartOf action.count ctx = .ok scopeStart) {reduced : CompilerContext}
    {nofElements : Int} (h : feedReduce action scopeStart ctx = .ok (reduced, nofElements)) :
    ∃ before trees start below,
      Reduced automaton.lexer action f reduced nofElements before trees start below ∧
      scopeStart = start.scopestep ∧ reduced.stateStack = ctx.stateStack.drop action.count := by
  obtain ⟨before, trees, start, below, popped⟩ := StackOf.pop action.count holds deep
  have scopeStart_eq := scopeStartOf_eq popped rfl scope
  have nodes_eq := popped.nodes_eq
  have size := getLuaStackReductionSize_eq popped
  refine ⟨before, trees, start, below, ?_, scopeStart_eq, ?_⟩
  · unfold feedReduce at h
    split at h
    · rename_i call
      obtain ⟨made, hmade, h⟩ := bind_eq_ok.mp h
      obtain ⟨rfl, rfl⟩ := Prod.mk.inj (Except.ok.inj h)
      have room : (ctx.luaStack.length : Int) =
          below.length + (astOf automaton.lexer trees start).1.length := by
        rw [nodes_eq, List.length_append]
        omega
      have nof : ((((ctx.stateStack.take action.count).find? fun st => st.luastki ≠ 0).map
            fun st => st.luastki + st.luastkn).getD 0) -
          (((ctx.stateStack.take action.count).reverse.find? fun st => st.luastki ≠ 0).map
            State.luastki).getD 0 = ((astOf automaton.lexer trees start).1.length : Int) := by
        rw [← size]
        simp only [getLuaStackReductionSize, popped.same]
      unfold luaReduceStruct at hmade
      simp only [nof] at hmade
      have enough : ¬ (((astOf automaton.lexer trees start).1.length : Int) < 0 ∨
          ((astOf automaton.lexer trees start).1.length : Int) > ctx.luaStack.length) := by
        omega
      rw [if_neg enough] at hmade
      obtain rfl := Except.ok.inj hmade
      have rest : ctx.luaStack.length -
          (((astOf automaton.lexer trees start).1.length : Int)).toNat = below.length := by
        omega
      have made_eq : astOf automaton.lexer (.node action trees .nil) start =
          productionNodes action start.scopestep (astOf automaton.lexer trees start).1
            ⟨ctx.scopestep, ctx.line⟩ := by
        rw [astOf_node, popped.fold]
      constructor
      · exact popped.forest
      · exact popped.length
      · exact popped.stackOf
      · simp only [rest, made_eq, productionNodes, call, if_false, scopeStart_eq]
        rw [nodes_eq, List.take_left, List.drop_left]
      · simp only [made_eq, productionNodes, call, if_false]
      · simp only [made_eq, productionNodes, call, if_false, List.length_singleton]
        rfl
    · rename_i call
      have call : action.call = 0 := not_not.mp call
      obtain ⟨rfl, rfl⟩ := Prod.mk.inj (Except.ok.inj h)
      have made_eq : astOf automaton.lexer (.node action trees .nil) start =
          astOf automaton.lexer trees start := by
        rw [astOf_node, productionNodes, if_pos call]
      constructor
      · exact popped.forest
      · exact popped.length
      · exact popped.stackOf
      · rw [made_eq]
        exact nodes_eq
      · rw [made_eq]
        exact popped.fold
      · rw [made_eq]
        exact size
  · unfold feedReduce at h
    split at h
    · obtain ⟨made, hmade, h⟩ := bind_eq_ok.mp h
      obtain ⟨rfl, rfl⟩ := Prod.mk.inj (Except.ok.inj h)
      unfold luaReduceStruct at hmade
      simp only at hmade
      split at hmade
      · simp at hmade
      · obtain rfl := Except.ok.inj hmade
        rfl
    · obtain ⟨rfl, rfl⟩ := Prod.mk.inj (Except.ok.inj h)
      rfl

theorem Reduced.goto {action : Action} {nofElements : Int} {before trees : ActionForest}
    {start : FoldState} {below : List AstNode}
    (reduced : Reduced automaton.lexer action f ctx nofElements before trees start below)
    {lexem : Lexem} {ctx' : CompilerContext}
    (h : feedGoto automaton action nofElements start.scopestep lexem ctx = .ok ctx') :
    Holds automaton.lexer ctx' (before.append (.node action trees .nil)) := by
  unfold feedGoto at h
  cases stack : ctx.stateStack with
  | nil => simp [stack] at h
  | cons top rest =>
    simp only [stack] at h
    cases entry : automaton.gotos.find ⟨top.index, action.value⟩ with
    | none =>
      simp only [entry] at h
      obtain ⟨info, _, h⟩ := bind_eq_ok.mp h
      simp [throw] at h
    | some state =>
      simp only [entry] at h
      have pushed := StackOf.push state (.node action trees .nil) rfl reduced.stackOf
      rw [reduced.fold, ← reduced.nodes_eq] at pushed
      split at h
      · rename_i some_nodes
        obtain ⟨index, next, h⟩ := bind_eq_ok.mp h
        obtain rfl := Except.ok.inj h
        have index_eq := reduced.stackOf.getNextLuaStackIndex_eq (stack ▸ next)
        have nonempty : (astOf automaton.lexer (.node action trees .nil) start).1 ≠ [] := by
          intro empty
          rw [reduced.count_eq, empty] at some_nodes
          exact some_nodes rfl
        simpa [Holds, stateFor, nonempty, index_eq, reduced.count_eq, stack] using pushed
      · rename_i none_nodes
        obtain rfl := Except.ok.inj h
        have empty : (astOf automaton.lexer (.node action trees .nil) start).1 = [] := by
          rw [reduced.count_eq] at none_nodes
          simpa using none_nodes
        simpa [Holds, stateFor, empty, stack] using pushed

theorem Reduced.accept {action : Action} {nofElements : Int} {before trees : ActionForest}
    {start : FoldState} {below : List AstNode}
    (reduced : Reduced automaton.lexer action f ctx nofElements before trees start below)
    {lexem : Lexem} {ctx' : CompilerContext}
    (h : feedAccept nofElements lexem ctx = .ok ctx') :
    lexem.id = 0 ∧ before = .nil ∧ start = {} ∧ ctx' = { ctx with
      stateStack := [⟨1, 1, (ctx.luaStack.length : Int) + 1, 0⟩] } := by
  unfold feedAccept at h
  split at h
  · simp [throw] at h
  · rename_i at_end
    cases stack : ctx.stateStack with
    | nil => simp [stack, throw] at h
    | cons st rest =>
      cases rest with
      | cons st2 rest => simp [stack, throw] at h
      | nil =>
        simp only [stack] at h
        split at h
        · simp [throw] at h
        · obtain rfl := Except.ok.inj h
          have single : ctx.stateStack.length = 1 := by rw [stack]; rfl
          obtain ⟨bottom, rfl, rfl⟩ := reduced.stackOf.eq_bottom single
          have none_below : below = [] := by
            have fold := reduced.stackOf.ast_eq
            exact (congrArg Prod.fst fold).symm
          have st_eq : st = ⟨1, 0, 0, 0⟩ := (List.cons.inj (stack.symm.trans bottom)).1
          have count_eq := reduced.count_eq
          have nodes_eq := congrArg List.length reduced.nodes_eq
          rw [none_below, List.nil_append] at nodes_eq
          refine ⟨not_not.mp at_end, rfl, rfl, ?_⟩
          rw [st_eq, count_eq, ← nodes_eq]

end Effects

/-- The context after the acceptance: the nodes of one tree are on the Lua stack. -/
structure Accepted (lexer : Lexer) (ctx : CompilerContext) (f : ActionForest) : Prop where
  single : f.length = 1
  fold : astOf lexer f {} = (ctx.luaStack, ⟨ctx.scopestep, ctx.line⟩)
  states : ctx.stateStack = [⟨1, 1, (ctx.luaStack.length : Int) + 1, 0⟩]

theorem Holds.step {automaton : Automaton} {g h : Feed} {m : ParserMove} {f : ActionForest}
    (holds : Holds automaton.lexer g.ctx f) (step : Step automaton g m h) :
    ∃ f', f.apply Action.count m = some f' ∧
      if accepting m then
        Accepted automaton.lexer h.ctx f' ∧ h.input = [] ∧
          ∃ last, f'.yield ++ [last] = f.yield ++ g.input
      else Holds automaton.lexer h.ctx f' ∧ f'.yield ++ h.input = f.yield ++ g.input := by
  obtain ⟨lexem, rest, action, consumed, input, id_pos, table, rfl, fed, after⟩ := step
  obtain ⟨action', table', cases_of⟩ := feedLexem_cases fed
  obtain rfl := Option.some.inj (table.symm.trans table')
  rcases cases_of with ⟨kind, rfl, shifted⟩ | ⟨kind, deep, scopeStart, reduced, n, scope, hr, rest_of⟩
  · refine ⟨f.append (.leaf lexem .nil), by simp [moveOf, kind, ParseForest.apply], ?_⟩
    have not_accepting : accepting (moveOf action lexem) = false := by
      simp [moveOf, kind, accepting]
    rw [not_accepting]
    exact ⟨holds.shift shifted, by simp [ParseForest.yield, after, input]⟩
  · obtain ⟨before, trees, start, below, red, rfl, -⟩ := holds.reduce deep scope hr
    have applied : f.apply Action.count (moveOf action lexem) =
        some (before.append (.node action trees .nil)) := by
      rw [moveOf, if_neg kind, red.forest]
      exact ParseForest.apply_reduce red.length
    refine ⟨_, applied, ?_⟩
    rcases rest_of with ⟨accept, rfl, ha⟩ | ⟨reduce, rfl, hg⟩
    · have is_accepting : accepting (moveOf action lexem) = true := by
        simp [moveOf, accepting, accept]
      rw [is_accepting]
      obtain ⟨at_end, rfl, rfl, ctx_eq⟩ := red.accept ha
      have nodes_eq := red.nodes_eq
      have fold := red.fold
      have none_below : below = [] := (congrArg Prod.fst red.stackOf.ast_eq).symm
      rw [none_below, List.nil_append] at nodes_eq
      have last : rest = [] := by
        by_contra more
        have := id_pos more
        omega
      refine ⟨⟨rfl, ?_, ?_⟩, ?_, ?_⟩
      · rw [ctx_eq]
        exact Prod.ext nodes_eq.symm fold
      · rw [ctx_eq]
      · rw [after, if_pos rfl, last]
      · refine ⟨lexem, ?_⟩
        rw [red.forest, input, last]
        simp [ParseForest.append, ParseForest.yield]
    · have not_accepting : accepting (moveOf action lexem) = false := by
        simp [moveOf, accepting, reduce]
      rw [not_accepting]
      refine ⟨red.goto hg, ?_⟩
      rw [red.forest, after, input]
      simp [ParseForest.yield]

/-- The stacks of a run from the start: as long as it has not accepted they are those of the trees
    built by its moves. -/
theorem run_holds {automaton : Automaton} {lexems : List Lexem} {lastline : Int}
    {ms : List ParserMove} {g : Feed} (run : Run automaton (Feed.start lexems lastline) ms g) :
    ∃ f, ParseForest.nil.replay Action.count ms = some f ∧
      if ms.any accepting then
        Accepted automaton.lexer g.ctx f ∧ g.input = [] ∧ f.yield = lexems
      else Holds automaton.lexer g.ctx f ∧ f.yield ++ g.input = lexems ++ [Lexem.atEnd lastline] := by
  induction run with
  | refl => exact ⟨.nil, rfl, Holds.start automaton.lexer, rfl⟩
  | @tail ms g h m run step ih =>
    obtain ⟨f, replayed, ih⟩ := ih
    cases done : ms.any accepting with
    | true =>
      simp only [done, if_true] at ih
      obtain ⟨lexem, rest, -, -, input, -⟩ := step
      simp [ih.2.1] at input
    | false =>
      simp only [done, Bool.false_eq_true, if_false] at ih
      obtain ⟨holds, left⟩ := ih
      obtain ⟨f', applied, next⟩ := holds.step step
      refine ⟨f', ?_, ?_⟩
      · rw [ParseForest.replay_append, replayed]
        simp [ParseForest.replay, applied]
      · rw [List.any_append, done, Bool.false_or, List.any_cons, List.any_nil, Bool.or_false]
        cases acc : accepting m with
        | true =>
          simp only [acc, if_true] at next ⊢
          obtain ⟨accepted, empty, last, yield_eq⟩ := next
          exact ⟨accepted, empty, (List.append_inj' (yield_eq.trans left) rfl).1⟩
        | false =>
          simp only [acc, Bool.false_eq_true, if_false] at next ⊢
          exact ⟨next.1, next.2.trans left⟩

end Mewa.Compiler
