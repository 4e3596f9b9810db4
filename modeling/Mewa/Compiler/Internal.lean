/- Module: Mewa/Compiler/Internal
   digest: The parser has a next step for every entry of its tables. Its internal errors are never
   thrown. -/

import Mewa.Compiler.Sentences
import Mewa.Automaton.Accepting

set_option autoImplicit false
set_option relaxedAutoImplicit false

namespace Mewa.Compiler

open Mewa.Lib

/-- The tables have all gotos, no reduction of the start production, and names for their
    terminals. -/
structure Drives {prodlist : List ProductionDef} {lexer : Lexer} (h : WellFormed prodlist lexer)
    (lalr : LalrStates) (automaton : Automaton) : Prop extends Follows h lalr automaton where
  lexer_eq : automaton.lexer = lexer
  fillable : ∀ n state, lalr.states.find n = some state →
    Fillable ⟨prodlist, lexer, lalr.fm, lalr.gotoMap⟩ state
  enters : ∀ n state, lalr.states.find n = some state → ∀ item ∈ state.unpack, ∀ node,
    nodeOf prodlist item = some node → node.type ≠ .Terminal →
    ∃ next, automaton.gotos.find ⟨n, node.index⟩ = some next
  start : ∀ key,
    automaton.actions.find key ≠ some (prodlist.get (productionsOf prodlist h).start).reduceAction

theorem drives_of_built {engine : PatternEngine} {source : GrammarSource} {langdef : LanguageDef}
    {lalr : LalrStates} {fuel : Nat} {order : HashOrder (TransitionState × Int)}
    {warnings warnings' : List Error} {automaton : Automaton} {b : BuildState}
    (built : Built fuel engine order source warnings automaton warnings' langdef lalr b)
    (fit : FollowSetsFit langdef.prodlist) :
    Drives (wellFormed_of_parseLanguageDef built.parsed) lalr automaton where
  toFollows := follows_of_built built fit
  lexer_eq := built.lexer
  fillable n state found := fillable_of_exact built.parsed
    (shortRules_of_checkComplexity built.complexity) (built.exact fit) found
  enters n state found item mem node at_item nonterminal := by
    obtain ⟨next, -, entry⟩ :=
      fillTables_gotos built.tables n state found item mem node at_item nonterminal
    exact ⟨next, by rw [built.gotos, entry]⟩
  start key := by
    apply start_not_reduced built fit _ key
    rw [List.head?_eq_getElem?]
    exact List.getElem?_eq_getElem _

def Countable (P : Failure → Prop) (stack : List State) : Prop :=
  ∀ n, FailsWith P (getNextLuaStackIndex (stack.drop n))

def TooComplex (e : Failure) : Prop := e = .thrown ⟨.CompiledSourceTooComplex, "", 0⟩

/-- The places cannot be moved down, as the first of them is where the Lua stack begins. -/
theorem countable_tooComplex {lexer : Lexer} {ctx : CompilerContext} {f : ActionForest}
    (holds : Holds lexer ctx f) : Countable TooComplex ctx.stateStack := by
  intro n
  by_cases deep : n < ctx.stateStack.length
  · obtain ⟨before, trees, start, below, popped⟩ := StackOf.pop n holds deep
    have first := popped.stackOf.first_start
    unfold getNextLuaStackIndex
    split
    · exact FailsWith.ok _
    · split
      · unfold adjustStateCountersOnStack
        cases found : (ctx.stateStack.drop n).reverse.find? fun st => st.luastki ≠ 0 with
        | none => exact FailsWith.error_iff.mpr rfl
        | some st =>
          rw [found] at first
          have first : st.luastki = 1 := first
          simp only [first, sub_self, if_true]
          exact FailsWith.error_iff.mpr rfl
      · exact FailsWith.ok _
  · rw [List.drop_of_length_le (not_lt.mp deep)]
    exact FailsWith.ok _

theorem countable_of_length {lexer : Lexer} {ctx : CompilerContext} {f : ActionForest}
    (holds : Holds lexer ctx f) (room : (ctx.luaStack.length : Int) + 1 < maxInt) :
    Countable (fun _ => False) ctx.stateStack := by
  intro n
  by_cases deep : n < ctx.stateStack.length
  · obtain ⟨before, trees, start, below, popped⟩ := StackOf.pop n holds deep
    have last := popped.stackOf.last_end
    have nodes_eq := congrArg List.length popped.nodes_eq
    rw [List.length_append] at nodes_eq
    unfold getNextLuaStackIndex
    split
    · exact FailsWith.ok _
    · rename_i st found
      rw [found] at last
      have last : st.luastki + st.luastkn = (below.length : Int) + 1 := last
      rw [if_neg (by omega)]
      exact FailsWith.ok _
  · rw [List.drop_of_length_le (not_lt.mp deep)]
    exact FailsWith.ok _

section Steps

variable {prodlist : List ProductionDef} {lexer : Lexer} {h : WellFormed prodlist lexer}
  {lalr : LalrStates} {automaton : Automaton} {ctx : CompilerContext} {P : Failure → Prop}
  {f : ActionForest} {g : ProductionForest prodlist} {lexem : Lexem} {action : Action}

theorem Viable.candidate (follows : Follows h lalr automaton)
    (viable : Viable h lalr ctx.stateStack g) {terminal : Int}
    (table : actionOf automaton ctx terminal = some action) :
    ∃ top state, ctx.stateStack.head? = some top ∧ lalr.states.find top.index = some state ∧
      Lr1State h lalr.fm ((productionsOf prodlist h).roots g.symbols) state ∧
      Candidate ⟨prodlist, lexer, lalr.fm, lalr.gotoMap⟩ state terminal action := by
  obtain ⟨top, state, head, found, lr1⟩ := viable.stacked.top follows.exact
  unfold actionOf at table
  rw [head] at table
  obtain ⟨state', found', candidate⟩ := follows.actions _ _ table
  obtain rfl := Option.some.inj (found.symm.trans found')
  exact ⟨top, state, head, found, lr1, candidate⟩

theorem feedShift_failsWith (drives : Drives h lalr automaton)
    (viable : Viable h lalr ctx.stateStack g) (countable : Countable P ctx.stateStack)
    (table : actionOf automaton ctx lexem.id = some action) (kind : action.type = .Shift) :
    FailsWith P (feedShift automaton action.value lexem ctx) := by
  obtain ⟨top, state, -, -, -, candidate⟩ := viable.candidate drives.toFollows table
  cases candidate with
  | reduce _ _ _ _ => cases kind
  | accept _ _ _ => cases kind
  | @shift item next mem at_item number =>
    obtain ⟨keyword, known⟩ := (terminal_of_nodeOf h at_item).2
    rw [← drives.lexer_eq] at known
    unfold feedShift
    rw [known, ok_bind]
    split
    · exact FailsWith.ok _
    · apply (countable 0).bind
      intro index _
      exact FailsWith.ok _

theorem scopeStartOf_failsWith {count : Nat} (deep : count < ctx.stateStack.length) :
    FailsWith P (scopeStartOf count ctx) := by
  unfold scopeStartOf
  split
  · exact FailsWith.ok _
  · rw [List.getElem?_eq_getElem (by omega)]
    exact FailsWith.ok _

theorem feedReduce_failsWith (holds : Holds automaton.lexer ctx f)
    (deep : action.count < ctx.stateStack.length) (scopeStart : Int) :
    FailsWith P (feedReduce action scopeStart ctx) := by
  obtain ⟨before, trees, start, below, popped⟩ := StackOf.pop action.count holds deep
  have size := getLuaStackReductionSize_eq popped
  have nodes_eq := congrArg List.length popped.nodes_eq
  rw [List.length_append] at nodes_eq
  unfold feedReduce
  split
  · apply FailsWith.bind
    · unfold luaReduceStruct
      have nof : ((((ctx.stateStack.take action.count).find? fun st => st.luastki ≠ 0).map
            fun st => st.luastki + st.luastkn).getD 0) -
          (((ctx.stateStack.take action.count).reverse.find? fun st => st.luastki ≠ 0).map
            State.luastki).getD 0 = ((astOf automaton.lexer trees start).1.length : Int) := by
        rw [← size]
        simp only [getLuaStackReductionSize, popped.same]
      simp only [nof]
      rw [if_neg (by omega)]
      exact FailsWith.ok _
    · intro made _
      exact FailsWith.ok _
  · exact FailsWith.ok _

theorem feedGoto_failsWith (drives : Drives h lalr automaton) {reduced : CompilerContext}
    (viable : Viable h lalr ctx.stateStack g) (countable : Countable P ctx.stateStack)
    (table : actionOf automaton ctx lexem.id = some action) (kind : action.type = .Reduce)
    (stack : reduced.stateStack = ctx.stateStack.drop action.count)
    (nofElements scopeStart : Int) :
    FailsWith P (feedGoto automaton action nofElements scopeStart lexem reduced) := by
  obtain ⟨top, state, head, -, lr1, candidate⟩ := viable.candidate drives.toFollows table
  cases candidate with
  | shift _ _ _ => cases kind
  | accept _ _ _ => cases kind
  | @reduce item prod elems mem completed _ _ =>
    obtain ⟨p, rfl, -, item_at⟩ := completed_inv lr1 mem completed
    have not_start : p ≠ (productionsOf prodlist h).start := by
      rintro rfl
      unfold actionOf at table
      rw [head] at table
      exact drives.start _ table
    obtain ⟨before, trees, rfl, roots_eq, origin, -, -⟩ := exists_children viable.valid item_at
    have below := viable.stacked
    rw [ProductionForest.symbols_append, Productions.roots_append] at below
    have dropped := below.drop
    rw [roots_eq, show ((productionsOf prodlist h).rule p).output.length =
      (prodlist.get p).right.length from List.length_map _] at dropped
    have stack : reduced.stateStack = ctx.stateStack.drop (prodlist.get p).right.length := stack
    rw [← stack] at dropped
    obtain ⟨top', state', head', found', lr1'⟩ := dropped.top drives.exact
    -- an item in front of the left side is there
    obtain ⟨next, entry⟩ : ∃ next,
        automaton.gotos.find ⟨top'.index, (prodlist.get p).left.index⟩ = some next := by
      generalize zero : 0 = k at origin
      generalize prefix_eq : (productionsOf prodlist h).roots before.symbols = δ at origin lr1'
      cases origin with
      | start => exact absurd rfl not_start
      | goto _ _ => omega
      | @closure _ q _ k item_at next =>
        obtain ⟨item', mem', index', rfl⟩ := (lr1'.represents.core q k).mpr item_at
        have node := nodeOf_eq h index'
        rw [next] at node
        obtain ⟨nd, at_item, symbol⟩ := Option.map_eq_some_iff.mp node
        have symbol : symbolOf nd = .nonterminal (prodlist.get p).left.index := symbol
        unfold symbolOf at symbol
        split at symbol
        · cases symbol
        · rename_i nonterminal
          obtain ⟨next, entry⟩ := drives.enters _ _ found' item' mem' nd at_item nonterminal
          rw [Symbol.nonterminal.inj symbol] at entry
          exact ⟨next, entry⟩
    have index : FailsWith P (getNextLuaStackIndex reduced.stateStack) := by
      rw [stack]
      exact countable _
    unfold feedGoto
    cases stack_eq : reduced.stateStack with
    | nil =>
      rw [stack_eq] at head'
      cases head'
    | cons st rest =>
      rw [stack_eq] at head'
      obtain rfl := Option.some.inj head'
      have entry : automaton.gotos.find ⟨st.index, (prodlist.get p).reduceAction.value⟩ = some next :=
        entry
      simp only [entry]
      split
      · rw [← stack_eq]
        apply index.bind
        intro _ _
        exact FailsWith.ok _
      · exact FailsWith.ok _

theorem feedAccept_failsWith (drives : Drives h lalr automaton) {reduced : CompilerContext}
    {before trees : ActionForest} {start : FoldState} {below : List AstNode} {nofElements : Int}
    (viable : Viable h lalr ctx.stateStack g)
    (red : Reduced automaton.lexer action f reduced nofElements before trees start below)
    (table : actionOf automaton ctx lexem.id = some action) (kind : action.type = .Accept)
    (stack : reduced.stateStack = ctx.stateStack.drop action.count) :
    FailsWith P (feedAccept nofElements lexem reduced) := by
  obtain ⟨action_eq, roots⟩ := viable.accept drives.toFollows table kind
  obtain ⟨top, state, -, -, -, candidate⟩ := viable.candidate drives.toFollows table
  have at_end : lexem.id = 0 := by
    cases candidate with
    | shift _ _ _ => cases kind
    | reduce _ _ _ _ => cases kind
    | accept zero _ _ => exact zero
  have single : reduced.stateStack.length = 1 := by
    have length := viable.stacked.length_eq
    have count : action.count =
        ((productionsOf prodlist h).rule (productionsOf prodlist h).start).output.length := by
      rw [action_eq]
      exact (List.length_map _).symm
    rw [stack, List.length_drop, length, roots, count]
    omega
  obtain ⟨bottom, -, -⟩ := red.stackOf.eq_bottom single
  unfold feedAccept
  rw [if_neg (by simpa using at_end), bottom]
  simp

/-- An entry of the tables has a step. It fails only if a place cannot be counted. -/
theorem feedLexem_failsWith (drives : Drives h lalr automaton)
    (holds : Holds automaton.lexer ctx f) (viable : Viable h lalr ctx.stateStack g)
    (countable : Countable P ctx.stateStack)
    (table : actionOf automaton ctx lexem.id = some action) :
    FailsWith P (feedLexem automaton lexem ctx) := by
  obtain ⟨top, state, head, found, lr1, candidate⟩ := viable.candidate drives.toFollows table
  have deep (not_shift : action.type ≠ .Shift) : action.count < ctx.stateStack.length := by
    have length := viable.stacked.length_eq
    have whole (p : Fin prodlist.length) (item : (productionsOf prodlist h).Item
        ((productionsOf prodlist h).roots g.symbols) p
        ((productionsOf prodlist h).rule p).output.length) :
        (prodlist.get p).right.length < ctx.stateStack.length := by
      obtain ⟨δ, roots_eq, -⟩ := item.exists_origin
      rw [length, roots_eq, List.take_length, List.length_append,
        show ((productionsOf prodlist h).rule p).output.length = (prodlist.get p).right.length from
          List.length_map _]
      omega
    cases candidate with
    | shift _ _ _ => exact absurd rfl not_shift
    | @reduce item prod elems mem completed _ _ =>
      obtain ⟨p, rfl, -, item_at⟩ := completed_inv lr1 mem completed
      exact whole p item_at
    | accept _ _ _ =>
      obtain ⟨action_eq, roots⟩ := viable.accept drives.toFollows table rfl
      rw [action_eq, length, roots]
      show (prodlist.get (productionsOf prodlist h).start).right.length < List.length _ + 1
      rw [show ((productionsOf prodlist h).rule (productionsOf prodlist h).start).output.length =
        (prodlist.get (productionsOf prodlist h).start).right.length from List.length_map _]
      omega
  unfold feedLexem
  cases stack : ctx.stateStack with
  | nil =>
    rw [stack] at head
    cases head
  | cons st rest =>
    have entry : automaton.actions.find ⟨st.index, lexem.id⟩ = some action := by
      unfold actionOf at table
      rw [stack] at table
      exact table
    simp only [entry]
    cases kind : action.type with
    | Shift =>
      apply (feedShift_failsWith drives viable countable table kind).bind
      intro shifted _
      exact FailsWith.ok _
    | Reduce =>
      have deep := deep (by rw [kind]; exact fun same => by cases same)
      simp only
      rw [if_neg (by rw [← stack]; exact not_le.mpr deep)]
      apply (scopeStartOf_failsWith deep).bind
      intro scopeStart _
      apply (feedReduce_failsWith holds deep scopeStart).bind
      rintro ⟨reduced, nofElements⟩ hr
      apply (feedGoto_failsWith drives viable countable table kind (feedReduce_states hr) _ _).bind
      intro next _
      exact FailsWith.ok _
    | Accept =>
      have deep := deep (by rw [kind]; exact fun same => by cases same)
      simp only
      rw [if_neg (by rw [← stack]; exact not_le.mpr deep)]
      apply (scopeStartOf_failsWith deep).bind
      intro scopeStart scope
      apply (feedReduce_failsWith holds deep scopeStart).bind
      rintro ⟨reduced, nofElements⟩ hr
      obtain ⟨before, trees, start, below, red, -, -⟩ := holds.reduce deep scope hr
      apply (feedAccept_failsWith drives viable red table kind (feedReduce_states hr)).bind
      intro next _
      exact FailsWith.ok _

end Steps

/-! Whole runs. -/

/-- The errors that a source can be the reason of. -/
def Refused (e : Failure) : Prop :=
  TooComplex e ∨ ∃ arg line, e = .thrown ⟨.UnexpectedTokenNotOneOf, arg, line⟩

/-- The steps are not enough: there is a run of at least that many moves. -/
def Unfinished (automaton : Automaton) (f : Feed) (steps : Nat) (e : Failure) : Prop :=
  e = .outOfFuel ∧ ∃ ms g, Run automaton f ms g ∧ steps ≤ ms.length

theorem Unfinished.of_run {automaton : Automaton} {f g : Feed} {steps steps' : Nat} {e : Failure}
    {ms : List ParserMove} (unfinished : Unfinished automaton g steps e) (run : Run automaton f ms g)
    (few : steps' ≤ ms.length + steps) : Unfinished automaton f steps' e := by
  obtain ⟨out, ns, last, further, long⟩ := unfinished
  refine ⟨out, ms ++ ns, last, run.trans further, ?_⟩
  rw [List.length_append]
  omega

/-- A lexem with a number that the lexer knows, or the end of the input. -/
def KnownLexem (lexer : Lexer) (lexem : Lexem) : Prop :=
  lexem.id = 0 ∨ (∃ name, lexer.lexemName lexem.id = .ok name) ∧
    ∃ keyword, lexer.isKeyword lexem.id = .ok keyword

/-- The stacks are those of trees of productions. -/
def Reached {prodlist : List ProductionDef} {lexer : Lexer} (h : WellFormed prodlist lexer)
    (lalr : LalrStates) (automaton : Automaton) (ctx : CompilerContext) : Prop :=
  (∃ f, Holds automaton.lexer ctx f) ∧
    ∃ g : ProductionForest prodlist, Viable h lalr ctx.stateStack g

section Total

variable {prodlist : List ProductionDef} {lexer : Lexer} {h : WellFormed prodlist lexer}
  {lalr : LalrStates} {automaton : Automaton} {ctx ctx' : CompilerContext} {lexem : Lexem}

theorem Reached.start : Reached h lalr automaton {} :=
  ⟨⟨.nil, Holds.start automaton.lexer⟩, ⟨.nil, trivial, .bottom rfl⟩⟩

theorem getLexemName_of_entry (drives : Drives h lalr automaton) {key : ActionKey} {action : Action}
    (found : automaton.actions.find key = some action) :
    ∃ name, getLexemName automaton.lexer key.terminal = .ok name := by
  obtain ⟨state, there, candidate⟩ := drives.actions key action found
  have fill := drives.fillable _ _ there
  rw [drives.lexer_eq]
  cases candidate with
  | @shift item next mem at_item number => exact (fill.shifts item mem _ at_item).2.2 rfl
  | @reduce item prod elems mem completed content contains =>
    obtain ⟨elems', content', named⟩ := fill.content item mem
    obtain rfl := Except.ok.inj (content.symm.trans content')
    exact named _ contains
  | accept zero _ _ =>
    rw [zero]
    exact ⟨_, rfl⟩

theorem unexpectedToken_failsWith {α : Type} (drives : Drives h lalr automaton)
    (known : KnownLexem automaton.lexer lexem) (state : Int) :
    FailsWith Refused (unexpectedToken automaton lexem state : Except Failure α) := by
  obtain ⟨token, token_eq⟩ : ∃ token, tokenString lexem automaton.lexer = .ok token := by
    unfold tokenString
    rcases known with zero | ⟨⟨name, named⟩, keyword, kind⟩
    · rw [if_pos zero]
      exact ⟨_, rfl⟩
    · split
      · exact ⟨_, rfl⟩
      · rw [named, ok_bind, kind, ok_bind]
        split <;> exact ⟨_, rfl⟩
  obtain ⟨expected, expected_eq⟩ : ∃ expected,
      expectedTerminalList automaton.actions state automaton.lexer = .ok expected := by
    apply FailsWith.exists_ok
    unfold expectedTerminalList
    apply FailsWith.bind
    · apply FailsWith.mapM
      intro key mem
      obtain ⟨entry, in_table, rfl⟩ := List.mem_map.mp (List.mem_filter.mp mem).1
      obtain ⟨name, named⟩ := getLexemName_of_entry drives (SortedMap.find_eq_some.mpr in_table)
      rw [named]
      exact FailsWith.ok name
    · intro names _
      exact FailsWith.ok _
  unfold unexpectedToken
  rw [token_eq, ok_bind, expected_eq, ok_bind]
  exact FailsWith.error_iff.mpr (Or.inr ⟨_, _, rfl⟩)

/-- A step fails since the lexem is not expected or the source is too complex, and nothing else goes
    wrong. -/
theorem feedLexem_refuses (drives : Drives h lalr automaton)
    (reached : Reached h lalr automaton ctx) (known : KnownLexem automaton.lexer lexem) :
    FailsWith Refused (feedLexem automaton lexem ctx) := by
  obtain ⟨⟨f, holds⟩, g, viable⟩ := reached
  cases table : actionOf automaton ctx lexem.id with
  | some action =>
    have fails := feedLexem_failsWith drives holds viable (countable_tooComplex holds) table
    exact ⟨fun e failed => Or.inl (fails.kind e failed)⟩
  | none =>
    obtain ⟨top, state, head, -, -⟩ := viable.stacked.top drives.exact
    unfold actionOf at table
    rw [head] at table
    unfold feedLexem
    cases stack : ctx.stateStack with
    | nil =>
      rw [stack] at head
      cases head
    | cons st rest =>
      rw [stack] at head
      obtain rfl := Option.some.inj head
      have table : automaton.actions.find ⟨st.index, lexem.id⟩ = none := table
      simp only [table]
      exact unexpectedToken_failsWith drives known st.index

theorem Reached.feedLexem (drives : Drives h lalr automaton)
    (reached : Reached h lalr automaton ctx) {consumed : Bool}
    (fed : Mewa.Compiler.feedLexem automaton lexem ctx = .ok (ctx', consumed))
    (going : consumed = false ∨ 0 < lexem.id) : Reached h lalr automaton ctx' := by
  obtain ⟨⟨f, holds⟩, g, viable⟩ := reached
  obtain ⟨action, table, cases_of⟩ := feedLexem_cases fed
  have step : Step automaton ⟨ctx, [lexem]⟩ (moveOf action lexem)
      ⟨ctx', if consumed then [] else [lexem]⟩ :=
    ⟨lexem, [], action, consumed, rfl, fun more => absurd rfl more, table, rfl, fed, rfl⟩
  obtain ⟨f', -, holds'⟩ := holds.step step
  have viable' := step.viable drives.toFollows viable
  have not_accepting : accepting (moveOf action lexem) = false := by
    rcases cases_of with ⟨shift, -⟩ |
      ⟨other, -, _, _, _, -, -, ⟨accept, consumes, -⟩ | ⟨reduce, -⟩⟩
    · simp [moveOf, accepting, shift]
    · -- the acceptance is for the end of the input only, and it consumes it
      obtain ⟨top, state, -, -, -, candidate⟩ := viable.candidate drives.toFollows table
      have at_end : lexem.id = 0 := by
        cases candidate with
        | shift _ _ _ => cases accept
        | reduce _ _ _ _ => cases accept
        | accept zero _ _ => exact zero
      rcases going with more | positive
      · rw [consumes] at more
        cases more
      · omega
    · simp [moveOf, accepting, reduce]
  rw [not_accepting] at holds' viable'
  obtain ⟨g', viable', -⟩ := viable'
  exact ⟨⟨f', holds'.1⟩, g', viable'⟩

theorem Reached.checkStackIndices (reached : Reached h lalr automaton ctx) :
    Mewa.Compiler.checkStackIndices ctx = .ok () := by
  obtain ⟨⟨f, holds⟩, -⟩ := reached
  have last := StackOf.last_end holds
  unfold Mewa.Compiler.checkStackIndices
  cases stack : ctx.stateStack with
  | nil => rfl
  | cons top rest =>
    rw [stack] at last
    simp only
    rw [if_neg]
    rintro ⟨some_nodes, differ⟩
    rw [List.find?_cons_of_pos (by simpa using some_nodes)] at last
    have last : top.luastki + top.luastkn = (ctx.luaStack.length : Int) + 1 := last
    omega

theorem feedUntilConsumed_yields (drives : Drives h lalr automaton) {rest : List Lexem}
    (known : KnownLexem automaton.lexer lexem) (id_pos : rest ≠ [] → 0 < lexem.id) (fuel : Nat)
    (reached : Reached h lalr automaton ctx) :
    Yields (fun e => Refused e ∨ Unfinished automaton ⟨ctx, lexem :: rest⟩ fuel e)
      (fun ctx' => 0 < lexem.id → Reached h lalr automaton ctx')
      (feedUntilConsumed automaton lexem fuel ctx) := by
  induction fuel generalizing ctx with
  | zero => exact Yields.error_iff.mpr (Or.inr ⟨rfl, [], _, .refl, Nat.zero_le _⟩)
  | succ fuel ih =>
    unfold feedUntilConsumed
    have first : Yields (fun e => Refused e ∨ Unfinished automaton ⟨ctx, lexem :: rest⟩ (fuel + 1) e)
        (fun next : CompilerContext × Bool =>
          (next.2 = false ∨ 0 < lexem.id → Reached h lalr automaton next.1) ∧
          ∃ m, Step automaton ⟨ctx, lexem :: rest⟩ m
            ⟨next.1, if next.2 then rest else lexem :: rest⟩)
        (feedLexem automaton lexem ctx) :=
      ⟨⟨fun e failed => Or.inl ((feedLexem_refuses drives reached known).kind e failed)⟩,
        fun next fed => ⟨reached.feedLexem drives fed, Step.of_feedLexem id_pos fed⟩⟩
    apply first.bind
    rintro ⟨next, consumed⟩ - ⟨there, m, step⟩
    cases consumed with
    | true => exact Yields.ok_iff.mpr fun positive => there (Or.inr positive)
    | false =>
      apply (ih (there (Or.inl rfl))).allow
      rintro e (refused | unfinished)
      · exact Or.inl refused
      · exact Or.inr (unfinished.of_run (Run.single step) (by rw [List.length_singleton]; omega))

theorem feedSource_refuses (drives : Drives h lalr automaton) {lexems : List Lexem}
    (known : ∀ lexem ∈ lexems, 0 < lexem.id ∧ KnownLexem automaton.lexer lexem) (lastline : Int)
    (fuel : Nat) : FailsWith
      (fun e => Refused e ∨ Unfinished automaton (Feed.start lexems lastline) fuel e)
      (feedSource fuel automaton lexems lastline) := by
  unfold feedSource
  have loop : Yields (fun e => Refused e ∨ Unfinished automaton (Feed.start lexems lastline) fuel e)
      (fun ctx => Reached h lalr automaton ctx ∧
        ∃ ms, Run automaton (Feed.start lexems lastline) ms ⟨ctx, [Lexem.atEnd lastline]⟩)
      (lexems.foldlM (feedSourceLexem automaton fuel) {}) := by
    have fold := Yields.foldlM (P := fun e => Refused e ∨ Unfinished automaton
      (Feed.start lexems lastline) fuel e) (l := lexems) (f := feedSourceLexem automaton fuel)
      (fun past ctx => Reached h lalr automaton ctx ∧ ∃ future ms, past ++ future = lexems ∧
        Run automaton (Feed.start lexems lastline) ms
          ⟨ctx, future ++ [Lexem.atEnd lastline]⟩) ?_ ⟨Reached.start, lexems, [], rfl, .refl⟩
    · apply fold.mono
      rintro ctx - ⟨reached, future, ms, whole, run⟩
      obtain rfl : future = [] := by simpa using whole
      exact ⟨reached, ms, run⟩
    · rintro past lexem ctx ⟨more, within⟩ ⟨reached, future, ms, whole, run⟩
      obtain rfl : future = lexem :: more := by
        rw [← within, List.append_assoc] at whole
        exact List.append_cancel_left whole
      obtain ⟨positive, here⟩ := known lexem (by rw [← whole]; simp)
      unfold feedSourceLexem
      rw [if_neg (not_le.mpr positive)]
      have consumed := feedUntilConsumed_yields drives here
        (fun _ : more ++ [Lexem.atEnd lastline] ≠ [] => positive) fuel reached
      refine (consumed.allow ?_).bind fun next fed there => ?_
      · rintro e (refused | unfinished)
        · exact Or.inl refused
        · exact Or.inr (unfinished.of_run run (Nat.le_add_left _ _))
      · obtain ⟨ns, further⟩ := run_of_feedUntilConsumed
          (fun _ : more ++ [Lexem.atEnd lastline] ≠ [] => positive) fed
        rw [(there positive).checkStackIndices]
        exact Yields.ok_iff.mpr ⟨there positive, more, ms ++ ns, within, run.trans further⟩
  apply (loop.bind (S := fun _ => True) ?_).toFailsWith
  rintro ctx - ⟨reached, ms, run⟩
  have known_end : KnownLexem automaton.lexer (Lexem.atEnd lastline) := Or.inl rfl
  have ended := feedUntilConsumed_yields drives known_end
    (fun more : ([] : List Lexem) ≠ [] => absurd rfl more) fuel reached
  refine (ended.allow ?_).mono fun _ _ _ => trivial
  rintro e (refused | unfinished)
  · exact Or.inl refused
  · exact Or.inr (unfinished.of_run run (Nat.le_add_left _ _))

end Total

/-- The parser of a build that succeeds never throws an internal error: a source with lexems of its
    lexer is accepted, refused for a lexem that is not expected, or too complex, or the parser makes
    more moves than any number of steps it is given. -/
theorem feedSource_failsWith {engine : PatternEngine} {source : GrammarSource}
    {langdef : LanguageDef} {fuel : Nat} {order : HashOrder (TransitionState × Int)}
    {warnings warnings' : List Error} {automaton : Automaton}
    (parsed : parseLanguageDef engine source = .ok langdef)
    (fit : FollowSetsFit langdef.prodlist)
    (built : Automaton.build fuel engine order source warnings {} =
      ((automaton, warnings'), .ok ())) {lexems : List Lexem}
    (known : ∀ lexem ∈ lexems, 0 < lexem.id ∧ KnownLexem automaton.lexer lexem) (lastline : Int)
    (steps : Nat) : FailsWith
      (fun e => Refused e ∨ Unfinished automaton (Feed.start lexems lastline) steps e)
      (feedSource steps automaton lexems lastline) := by
  obtain ⟨langdef', lalr, b, built⟩ := built_of_build built
  obtain rfl := Except.ok.inj (parsed.symm.trans built.parsed)
  exact feedSource_refuses (drives_of_built built fit) known lastline steps

/-- The parser reduces a nonterminal to itself again and again. -/
theorem feedSource_failsWith_cycle :
    ∃ ms g, Run (Sample.automaton Sample.cycleLexems) (Feed.start [⟨"x", 1, "x", 1⟩] 1) ms g ∧
      100 ≤ ms.length := by
  have known : ((Sample.automaton Sample.cycleLexems).lexer.lexemName 1).toOption.isSome = true ∧
      ((Sample.automaton Sample.cycleLexems).lexer.isKeyword 1).toOption.isSome = true := by
    decide +kernel
  obtain ⟨name, named⟩ := Option.isSome_iff_exists.mp known.1
  obtain ⟨keyword, answered⟩ := Option.isSome_iff_exists.mp known.2
  have turning : (feedSource 100 (Sample.automaton Sample.cycleLexems) [⟨"x", 1, "x", 1⟩] 1).map
      (fun _ => ()) = .error .outOfFuel := by decide +kernel
  obtain ⟨langdef, buildable, -⟩ := Sample.exists_buildable_cycle
  have fails : FailsWith _ (feedSource 100 _ [⟨"x", 1, "x", 1⟩] 1) :=
    feedSource_failsWith buildable.parsed buildable.fit Sample.build_cycle
      (fun lexem mem => ?_) 1 100
  · cases failed : feedSource 100 (Sample.automaton Sample.cycleLexems) [⟨"x", 1, "x", 1⟩] 1 with
    | ok ctx =>
      rw [failed] at turning
      cases turning
    | error e =>
      rw [failed] at turning
      obtain rfl := Except.error.inj turning
      rcases fails.kind _ failed with (complex | ⟨arg, line, same⟩) | ⟨-, ms, g, run, long⟩
      · cases complex
      · cases same
      · exact ⟨ms, g, run, long⟩
  · obtain rfl := List.mem_singleton.mp mem
    exact ⟨by decide, Or.inr ⟨⟨name, toOption_eq_some.mp named⟩, keyword,
      toOption_eq_some.mp answered⟩⟩

end Mewa.Compiler
