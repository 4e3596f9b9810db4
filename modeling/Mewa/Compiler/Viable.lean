/- Module: Mewa/Compiler/Viable
   digest: The states on the stack of the parser are those of the viable prefix on it. -/

import Mewa.Compiler.Stack
import Mewa.Automaton.Building

set_option autoImplicit false
set_option relaxedAutoImplicit false

namespace Mewa.Compiler

open Mewa.Lib

/-! What a step does to the states. -/

section States

variable {automaton : Automaton} {ctx ctx' : CompilerContext}

theorem feedShift_states {state : Int} {lexem : Lexem}
    (h : feedShift automaton state lexem ctx = .ok ctx') :
    ∃ st, st.index = state ∧ ctx'.stateStack = st :: ctx.stateStack := by
  unfold feedShift at h
  obtain ⟨keyword, -, h⟩ := bind_eq_ok.mp h
  split at h
  · obtain rfl := Except.ok.inj h
    exact ⟨_, rfl, rfl⟩
  · obtain ⟨index, -, h⟩ := bind_eq_ok.mp h
    obtain rfl := Except.ok.inj h
    exact ⟨_, rfl, rfl⟩

theorem feedReduce_states {action : Action} {scopeStart nofElements : Int}
    (h : feedReduce action scopeStart ctx = .ok (ctx', nofElements)) :
    ctx'.stateStack = ctx.stateStack.drop action.count := by
  unfold feedReduce at h
  split at h
  · obtain ⟨made, reduced, h⟩ := bind_eq_ok.mp h
    obtain ⟨rfl, -⟩ := Prod.mk.inj (Except.ok.inj h)
    unfold luaReduceStruct at reduced
    dsimp only at reduced
    split at reduced
    · cases reduced
    · obtain rfl := Except.ok.inj reduced
      rfl
  · obtain ⟨rfl, -⟩ := Prod.mk.inj (Except.ok.inj h)
    rfl

theorem feedGoto_states {action : Action} {nofElements scopeStart : Int} {lexem : Lexem}
    (h : feedGoto automaton action nofElements scopeStart lexem ctx = .ok ctx') :
    ∃ top next st, ctx.stateStack.head? = some top ∧
      automaton.gotos.find ⟨top.index, action.value⟩ = some next ∧ st.index = next ∧
      ctx'.stateStack = st :: ctx.stateStack := by
  unfold feedGoto at h
  split at h
  · cases h
  · rename_i top below stack
    split at h
    · obtain ⟨info, -, h⟩ := bind_eq_ok.mp h
      cases h
    · rename_i next entry
      refine ⟨top, next, ?_⟩
      split at h
      · obtain ⟨index, -, h⟩ := bind_eq_ok.mp h
        obtain rfl := Except.ok.inj h
        exact ⟨_, by rw [stack]; rfl, entry, rfl, rfl⟩
      · obtain rfl := Except.ok.inj h
        exact ⟨_, by rw [stack]; rfl, entry, rfl, rfl⟩

end States

inductive Stacked {prodlist : List ProductionDef} {lexer : Lexer} (h : WellFormed prodlist lexer)
    (lalr : LalrStates) : List State → List (Symbol Int Int) → Prop
  | bottom {st : State} : st.index = 1 → Stacked h lalr [st] []
  | push {stack : List State} {γ : List (Symbol Int Int)} {st : State} {x : Symbol Int Int}
      {state : TransitionState} : Stacked h lalr stack γ →
      lalr.states.find st.index = some state → Lr1State h lalr.fm (γ ++ [x]) state →
      Stacked h lalr (st :: stack) (γ ++ [x])

namespace Stacked

variable {prodlist : List ProductionDef} {lexer : Lexer} {h : WellFormed prodlist lexer}
  {lalr : LalrStates} {stack : List State} {γ δ : List (Symbol Int Int)}

theorem length_eq (stacked : Stacked h lalr stack γ) : stack.length = γ.length + 1 := by
  induction stacked with
  | bottom _ => rfl
  | push _ _ _ ih => rw [List.length_cons, List.length_append, ih]; rfl

theorem top (stacked : Stacked h lalr stack γ) (exact : lalr.Exact h) :
    ∃ st state, stack.head? = some st ∧ lalr.states.find st.index = some state ∧
      Lr1State h lalr.fm γ state := by
  cases stacked with
  | @bottom st first =>
    obtain ⟨state, found, lr1⟩ := exact.first
    exact ⟨st, state, rfl, first ▸ found, lr1⟩
  | @push _ _ st _ state _ found lr1 => exact ⟨st, state, rfl, found, lr1⟩

theorem drop (stacked : Stacked h lalr stack (γ ++ δ)) :
    Stacked h lalr (stack.drop δ.length) γ := by
  induction δ using List.reverseRecOn generalizing stack with
  | nil => simpa using stacked
  | append_singleton δ x ih =>
    rw [← List.append_assoc] at stacked
    generalize whole : γ ++ δ ++ [x] = γ' at stacked
    cases stacked with
    | bottom _ => simp at whole
    | @push stack γ'' st y state below _ _ =>
      obtain ⟨rfl, -⟩ := List.append_inj' whole rfl
      rw [List.length_append, List.length_singleton, List.drop_succ_cons]
      exact ih below

end Stacked

/-! Trees of productions. -/

/-- Parse trees with lexems at their leaves and productions at their nodes. -/
abbrev ProductionForest (prodlist : List ProductionDef) := ParseForest Lexem (Fin prodlist.length)

namespace ProductionForest

variable {prodlist : List ProductionDef}

/-- The trees with the symbols of the grammar. -/
def symbols (g : ProductionForest prodlist) : SymbolForest (Fin prodlist.length) Int Int :=
  g.map (fun lexem => .terminal lexem.id) id

/-- The trees with the actions of the tables. -/
def actions (g : ProductionForest prodlist) : ActionForest :=
  g.map id fun p => (prodlist.get p).reduceAction

theorem symbols_append (f g : ProductionForest prodlist) :
    symbols (f.append g) = (symbols f).append (symbols g) := ParseForest.map_append f g

end ProductionForest

def actionMove {prodlist : List ProductionDef} :
    Move Lexem (Fin prodlist.length) → ParserMove :=
  Move.map id fun p => (prodlist.get p).reduceAction

/-- The trees that are built are valid, and the states on the stack are those of their roots. -/
structure Viable {prodlist : List ProductionDef} {lexer : Lexer} (h : WellFormed prodlist lexer)
    (lalr : LalrStates) (stack : List State) (g : ProductionForest prodlist) : Prop where
  valid : (productionsOf prodlist h).Valid g.symbols
  stacked : Stacked h lalr stack ((productionsOf prodlist h).roots g.symbols)

/-- The entries of the tables are asked for by the states of the grammar. -/
structure Follows {prodlist : List ProductionDef} {lexer : Lexer} (h : WellFormed prodlist lexer)
    (lalr : LalrStates) (automaton : Automaton) : Prop where
  exact : lalr.Exact h
  short : ShortRules prodlist
  actions : ∀ key action, automaton.actions.find key = some action →
    ∃ state, lalr.states.find key.state = some state ∧
      Candidate ⟨prodlist, lexer, lalr.fm, lalr.gotoMap⟩ state key.terminal action
  gotos : ∀ key next, automaton.gotos.find key = some next →
    ∃ state, lalr.states.find key.state = some state ∧
      GotoCandidate ⟨prodlist, lexer, lalr.fm, lalr.gotoMap⟩ state key.nonterminal next

theorem follows_of_built {engine : PatternEngine} {source : GrammarSource} {langdef : LanguageDef}
    {lalr : LalrStates} {fuel : Nat} {order : HashOrder (TransitionState × Int)}
    {warnings warnings' : List Error} {automaton : Automaton} {b : BuildState}
    (built : Built fuel engine order source warnings automaton warnings' langdef lalr b)
    (fit : FollowSetsFit langdef.prodlist) :
    Follows (wellFormed_of_parseLanguageDef built.parsed) lalr automaton where
  exact := built.exact fit
  short := shortRules_of_checkComplexity built.complexity
  actions key action found := by
    rw [built.actions] at found
    obtain ⟨state, mem, candidate⟩ := built.sound.actions key action found
    exact ⟨state, SortedMap.find_eq_some.mpr mem, candidate⟩
  gotos key next found := by
    rw [built.gotos] at found
    obtain ⟨state, mem, candidate⟩ := built.sound.gotos key next found
    exact ⟨state, SortedMap.find_eq_some.mpr mem, candidate⟩

section Steps

variable {prodlist : List ProductionDef} {lexer : Lexer} {h : WellFormed prodlist lexer}
  {lalr : LalrStates} {automaton : Automaton}

theorem exists_children {g : ProductionForest prodlist} {p : Fin prodlist.length}
    (valid : (productionsOf prodlist h).Valid g.symbols)
    (item : (productionsOf prodlist h).Item ((productionsOf prodlist h).roots g.symbols) p
      ((productionsOf prodlist h).rule p).output.length) :
    ∃ before trees : ProductionForest prodlist, g = before.append trees ∧
      (productionsOf prodlist h).roots trees.symbols =
        ((productionsOf prodlist h).rule p).output ∧
      (productionsOf prodlist h).Item ((productionsOf prodlist h).roots before.symbols) p 0 ∧
      (productionsOf prodlist h).Valid before.symbols ∧
      (productionsOf prodlist h).Valid trees.symbols := by
  obtain ⟨δ, roots_eq, origin⟩ := item.exists_origin
  rw [List.take_length] at roots_eq
  have cut := (ParseForest.take_append_drop δ.length g).symm
  have symbols_eq := congrArg ProductionForest.symbols cut
  rw [ProductionForest.symbols_append] at symbols_eq
  have enough : δ.length ≤ g.length := by
    have length := congrArg List.length roots_eq
    rw [Productions.length_roots, List.length_append] at length
    have same : g.symbols.length = g.length := ParseForest.length_map g
    omega
  rw [symbols_eq, Productions.roots_append] at roots_eq
  obtain ⟨left, right⟩ := List.append_inj roots_eq (by
    rw [Productions.length_roots]
    show (ParseForest.map _ _ (g.take δ.length)).length = _
    rw [ParseForest.length_map, ParseForest.length_take enough])
  rw [symbols_eq] at valid
  obtain ⟨valid_before, valid_trees⟩ := valid.of_append
  exact ⟨_, _, cut, right, by rw [left]; exact origin, valid_before, valid_trees⟩

theorem Viable.shift (follows : Follows h lalr automaton) {ctx ctx' : CompilerContext}
    {g : ProductionForest prodlist} (viable : Viable h lalr ctx.stateStack g) {lexem : Lexem}
    {action : Action} (table : actionOf automaton ctx lexem.id = some action)
    (kind : action.type = .Shift) (fed : feedShift automaton action.value lexem ctx = .ok ctx') :
    0 < lexem.id ∧ Viable h lalr ctx'.stateStack (g.append (.leaf lexem .nil)) := by
  obtain ⟨top, state, head, found, lr1⟩ := viable.stacked.top follows.exact
  unfold actionOf at table
  rw [head] at table
  obtain ⟨state', found', candidate⟩ := follows.actions _ _ table
  obtain rfl := Option.some.inj (found.symm.trans found')
  cases candidate with
  | @shift item next mem at_item number =>
    obtain ⟨next', state', number', found', lr1'⟩ := follows.exact.goto follows.short lr1 mem at_item
    obtain rfl := Option.some.inj (number.symm.trans number')
    obtain ⟨st, index, stack_eq⟩ := feedShift_states fed
    refine ⟨?_, ?_, ?_⟩
    · exact (terminal_of_nodeOf h at_item).1
    · rw [ProductionForest.symbols_append]
      exact viable.valid.append trivial
    · rw [ProductionForest.symbols_append, Productions.roots_append, stack_eq]
      apply viable.stacked.push
      · rw [index]
        exact found'
      · exact lr1'
  | reduce _ _ _ _ => cases kind
  | accept _ _ _ => cases kind

theorem Viable.reduce (follows : Follows h lalr automaton) {ctx reduced ctx' : CompilerContext}
    {g : ProductionForest prodlist} (viable : Viable h lalr ctx.stateStack g) {lexem : Lexem}
    {action : Action} (table : actionOf automaton ctx lexem.id = some action)
    (kind : action.type = .Reduce)
    (stack : reduced.stateStack = ctx.stateStack.drop action.count) {nofElements scopeStart : Int}
    (fed : feedGoto automaton action nofElements scopeStart lexem reduced = .ok ctx') :
    ∃ (p : Fin prodlist.length) (before trees : ProductionForest prodlist),
      action = (prodlist.get p).reduceAction ∧ g = before.append trees ∧
      trees.length = (prodlist.get p).right.length ∧
      Viable h lalr ctx'.stateStack (before.append (.node p trees .nil)) := by
  obtain ⟨top, state, head, found, lr1⟩ := viable.stacked.top follows.exact
  unfold actionOf at table
  rw [head] at table
  obtain ⟨state', found', candidate⟩ := follows.actions _ _ table
  obtain rfl := Option.some.inj (found.symm.trans found')
  cases candidate with
  | shift _ _ _ => cases kind
  | accept _ _ _ => cases kind
  | @reduce item prod elems mem completed _ _ =>
    obtain ⟨p, rfl, -, item_at⟩ := completed_inv lr1 mem completed
    obtain ⟨before, trees, rfl, roots_eq, -, valid_before, valid_trees⟩ :=
      exists_children viable.valid item_at
    have length : trees.length = (prodlist.get p).right.length := by
      have same := congrArg List.length roots_eq
      rw [Productions.length_roots] at same
      exact (ParseForest.length_map trees).symm.trans (same.trans (List.length_map _))
    refine ⟨p, before, trees, rfl, rfl, length, ?_, ?_⟩
    · rw [ProductionForest.symbols_append]
      exact valid_before.append ⟨roots_eq, valid_trees, trivial⟩
    · -- the state below the right side has the goto of the left side
      have below := viable.stacked
      rw [ProductionForest.symbols_append, Productions.roots_append] at below
      have dropped := below.drop
      rw [Productions.length_roots,
        show ProductionForest.symbols trees = ParseForest.map _ _ trees from rfl,
        ParseForest.length_map, length] at dropped
      have stack : reduced.stateStack = ctx.stateStack.drop (prodlist.get p).right.length := stack
      rw [← stack] at dropped
      obtain ⟨top', next, st, head', entry, index, stack_eq⟩ := feedGoto_states fed
      obtain ⟨top'', state', head'', found', lr1'⟩ := dropped.top follows.exact
      obtain rfl := Option.some.inj (head'.symm.trans head'')
      obtain ⟨state'', found'', node, nonterminal, node_index, ⟨item', mem', at_item⟩, number⟩ :=
        follows.gotos _ _ entry
      obtain rfl := Option.some.inj (found'.symm.trans found'')
      obtain ⟨next', state'', number', found'', lr1''⟩ :=
        follows.exact.goto follows.short lr1' mem' at_item
      obtain rfl := Option.some.inj (number.symm.trans number')
      have symbol : symbolOf node = (productionsOf prodlist h).head p := by
        unfold symbolOf
        rw [if_neg nonterminal, node_index]
        rfl
      rw [symbol] at lr1''
      rw [ProductionForest.symbols_append, Productions.roots_append, stack_eq]
      apply dropped.push
      · rw [index]
        exact found''
      · exact lr1''

theorem Viable.accept (follows : Follows h lalr automaton) {ctx : CompilerContext}
    {g : ProductionForest prodlist} (viable : Viable h lalr ctx.stateStack g) {lexem : Lexem}
    {action : Action} (table : actionOf automaton ctx lexem.id = some action)
    (kind : action.type = .Accept) :
    action = (prodlist.get (productionsOf prodlist h).start).acceptAction ∧
      (productionsOf prodlist h).roots g.symbols =
        ((productionsOf prodlist h).rule (productionsOf prodlist h).start).output := by
  obtain ⟨top, state, head, found, lr1⟩ := viable.stacked.top follows.exact
  unfold actionOf at table
  rw [head] at table
  obtain ⟨state', found', candidate⟩ := follows.actions _ _ table
  obtain rfl := Option.some.inj (found.symm.trans found')
  cases candidate with
  | shift _ _ _ => cases kind
  | reduce _ _ _ _ => cases kind
  | @accept prod _ accepts first =>
    have first : prodlist.head? = some prod := first
    rw [List.head?_eq_getElem?] at first
    obtain ⟨bound, rfl⟩ := List.getElem?_eq_some_iff.mp first
    refine ⟨rfl, ?_⟩
    unfold isAcceptState at accepts
    obtain ⟨item, mem, here⟩ := List.any_eq_true.mp accepts
    obtain ⟨zero, whole⟩ := (Bool.and_eq_true _ _).mp here
    obtain ⟨index, -⟩ := of_decide_eq_true zero
    rw [List.head?_eq_getElem?, first] at whole
    have pos : item.prodpos = prodlist[0].right.length := of_decide_eq_true whole
    have item_at := (lr1.represents.core (productionsOf prodlist h).start item.prodpos).mp
      ⟨item, mem, index, rfl⟩
    rw [item_at.start_prefix, List.take_of_length_le]
    rw [pos]
    exact le_of_eq (List.length_map _)

end Steps

end Mewa.Compiler
