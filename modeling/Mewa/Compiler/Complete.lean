/- Module: Mewa/Compiler/Complete
   digest: The parser of a grammar without priorities and warnings accepts every sentence, along its
   parse tree. -/

import Mewa.Compiler.Internal

set_option autoImplicit false
set_option relaxedAutoImplicit false

namespace Mewa.Compiler

open Mewa.Lib

theorem length_astOf (lexer : Lexer) (f : ActionForest) (s : FoldState) :
    (astOf lexer f s).1.length ≤ f.moves.length := by
  induction f generalizing s with
  | nil => exact le_refl 0
  | leaf lexem rest ih =>
    have one : (lexemNodes lexer lexem s).1.length ≤ 1 := by
      unfold lexemNodes
      split <;> simp
    have more := ih (lexemNodes lexer lexem s).2
    simp only [astOf, ParseForest.moves, List.length_append, List.length_cons]
    omega
  | node action children rest ihc ihr =>
    have inner := ihc s
    have made : (productionNodes action s.scopestep (astOf lexer children s).1
        (astOf lexer children s).2).1.length ≤ (astOf lexer children s).1.length + 1 := by
      unfold productionNodes
      split
      · exact Nat.le_succ _
      · simp
    have more := ihr (productionNodes action s.scopestep (astOf lexer children s).1
      (astOf lexer children s).2).2
    simp only [astOf, ParseForest.moves, List.length_append, List.length_cons]
    omega

def symbolMove {P : Type} : Move Lexem P → Move (Symbol Int Int) P :=
  Move.map (fun lexem => .terminal lexem.id) id

section Tree

variable {prodlist : List ProductionDef} {lexer : Lexer} (h : WellFormed prodlist lexer)
  (lalr : LalrStates) (automaton : Automaton)

/-- The parser is on the way along a parse tree: some moves are made, and the others are still to be
    made. -/
structure Along (t : ProductionForest prodlist)
    (ms ns : List (Move Lexem (Fin prodlist.length))) (ctx : CompilerContext) : Prop where
  moves_eq : t.moves = ms ++ ns
  viable : ∃ g, Viable h lalr ctx.stateStack g ∧
    g.moves.map (productionsOf prodlist h).ruleMove = ms.map (productionsOf prodlist h).ruleMove
  holds : ∃ f, Holds automaton.lexer ctx f ∧ f.moves.length = ms.length

variable {h lalr automaton} {t : ProductionForest prodlist}
  {ms ns : List (Move Lexem (Fin prodlist.length))} {ctx : CompilerContext} {lexem : Lexem}
  {g : ProductionForest prodlist} {f : ActionForest} {P : Failure → Prop}

theorem Along.start : Along h lalr automaton t [] t.moves {} where
  moves_eq := rfl
  viable := ⟨.nil, ⟨trivial, .bottom rfl⟩, rfl⟩
  holds := ⟨.nil, Holds.start automaton.lexer, rfl⟩

theorem Along.reached (along : Along h lalr automaton t ms ns ctx) :
    Reached h lalr automaton ctx := by
  obtain ⟨g, viable, -⟩ := along.viable
  obtain ⟨f, holds, -⟩ := along.holds
  exact ⟨⟨f, holds⟩, g, viable⟩

theorem actionOf_eq (exact : lalr.Exact h) (viable : Viable h lalr ctx.stateStack g) {n : Int}
    {st : TransitionState} (found : lalr.states.find n = some st)
    (lr1 : Lr1State h lalr.fm ((productionsOf prodlist h).roots g.symbols) st) (terminal : Int) :
    actionOf automaton ctx terminal = automaton.actions.find ⟨n, terminal⟩ := by
  obtain ⟨top, st', head, found', lr1'⟩ := viable.stacked.top exact
  obtain rfl := exact.unique found found' lr1.represents lr1'.represents
  unfold actionOf
  rw [head]
  rfl

theorem feedLexem_holds (holds : Holds automaton.lexer ctx f) {action : Action}
    (table : actionOf automaton ctx lexem.id = some action) (going : action.type ≠ .Accept)
    {ctx' : CompilerContext} {consumed : Bool}
    (fed : feedLexem automaton lexem ctx = .ok (ctx', consumed)) :
    ∃ f', Holds automaton.lexer ctx' f' ∧ f'.moves.length = f.moves.length + 1 := by
  have step : Step automaton ⟨ctx, [lexem]⟩ (moveOf action lexem)
      ⟨ctx', if consumed then [] else [lexem]⟩ :=
    ⟨lexem, [], action, consumed, rfl, fun more => absurd rfl more, table, rfl, fed, rfl⟩
  obtain ⟨f', applied, next⟩ := holds.step step
  have not_accepting : accepting (moveOf action lexem) = false := by
    unfold moveOf
    split
    · rfl
    · exact decide_eq_false going
  rw [not_accepting] at next
  refine ⟨f', next.1, ?_⟩
  rw [ParseForest.moves_of_apply applied, List.length_append]
  rfl

theorem moves_symbols (g : ProductionForest prodlist) :
    g.symbols.moves = g.moves.map symbolMove := ParseForest.moves_map g

theorem ruleMove_symbolMove (m : Move Lexem (Fin prodlist.length)) :
    (productionsOf prodlist h).ruleMove (symbolMove m) =
      symbolMove ((productionsOf prodlist h).ruleMove m) := by
  cases m <;> rfl

theorem Along.allowed (decided : Decided h lalr automaton.actions)
    (parse : (productionsOf prodlist h).IsParse t.symbols)
    {m : Move Lexem (Fin prodlist.length)} (along : Along h lalr automaton t ms (m :: ns) ctx) :
    ∃ g, Viable h lalr ctx.stateStack g ∧
      g.moves.map (productionsOf prodlist h).ruleMove =
        ms.map (productionsOf prodlist h).ruleMove ∧
      (productionsOf prodlist h).Allowed (Acts h lalr automaton.actions)
        ((productionsOf prodlist h).roots g.symbols)
        ((tokensOf (m :: ns)).head?.map Lexem.id) (symbolMove m) := by
  obtain ⟨g, viable, same⟩ := along.viable
  refine ⟨g, viable, same, ?_⟩
  have moves_eq : t.symbols.moves = ms.map symbolMove ++ symbolMove m :: ns.map symbolMove := by
    rw [moves_symbols, along.moves_eq, List.map_append, List.map_cons]
  obtain ⟨g', before⟩ := ParseForest.exists_replay_prefix parse.valid.fits moves_eq
  have roots_eq : (productionsOf prodlist h).roots g' =
      (productionsOf prodlist h).roots g.symbols := by
    apply Productions.roots_eq_of_ruled
    apply Productions.ruled_eq_of_replay before viable.valid.replay
    have mapped := congrArg (List.map symbolMove) same
    rw [moves_symbols]
    simp only [List.map_map, Function.comp_def, ruleMove_symbolMove] at mapped ⊢
    exact mapped.symm
  rw [← roots_eq]
  apply decided.complete.next parse moves_eq _ before
  have tokens : tokensOf (symbolMove m :: ns.map symbolMove) =
      (tokensOf (m :: ns)).map fun lexem => .terminal lexem.id := by
    rw [← List.map_cons]
    unfold symbolMove
    rw [tokensOf_map]
  rw [tokens, List.head?_map, Option.map_map]
  rfl

theorem Along.shift (drives : Drives h lalr automaton) (decided : Decided h lalr automaton.actions)
    (parse : (productionsOf prodlist h).IsParse t.symbols)
    (along : Along h lalr automaton t ms (.shift lexem :: ns) ctx)
    (countable : Countable P ctx.stateStack) :
    Yields P (fun next : CompilerContext × Bool => next.2 = true ∧
      Along h lalr automaton t (ms ++ [.shift lexem]) ns next.1)
      (feedLexem automaton lexem ctx) := by
  obtain ⟨g, viable, same, -, n, st, found, lr1, next, entry⟩ := along.allowed decided parse
  obtain ⟨f, holds, length⟩ := along.holds
  have table : actionOf automaton ctx lexem.id = some (.shift next) :=
    (actionOf_eq drives.exact viable found lr1 lexem.id).trans entry
  refine ⟨feedLexem_failsWith drives holds viable countable table, ?_⟩
  intro ⟨ctx', consumed⟩ fed
  obtain ⟨f', holds', length'⟩ := feedLexem_holds holds table (fun kind => by cases kind) fed
  obtain ⟨action, table', cases_of⟩ := feedLexem_cases fed
  obtain rfl := Option.some.inj (table.symm.trans table')
  rcases cases_of with ⟨-, rfl, shifted⟩ | ⟨other, -⟩
  · refine ⟨rfl, ?_, ⟨_, (viable.shift drives.toFollows table rfl shifted).2, ?_⟩, f', holds', ?_⟩
    · rw [along.moves_eq, List.append_assoc, List.singleton_append]
    · rw [ParseForest.moves_append, List.map_append, List.map_append, same]
      rfl
    · rw [length', length, List.length_append]
      rfl
  · exact absurd rfl other

theorem Along.reduce (drives : Drives h lalr automaton) (decided : Decided h lalr automaton.actions)
    (parse : (productionsOf prodlist h).IsParse t.symbols) {p : Fin prodlist.length}
    (along : Along h lalr automaton t ms (.reduce p :: ns) ctx)
    (countable : Countable P ctx.stateStack)
    (ahead : lexem.id = ((tokensOf ns).head?.map Lexem.id).getD 0) :
    Yields P (fun next : CompilerContext × Bool => next.2 = false ∧
      Along h lalr automaton t (ms ++ [.reduce p]) ns next.1)
      (feedLexem automaton lexem ctx) := by
  obtain ⟨g, viable, same, q, rule_eq, n, st, found, lr1, item, entry⟩ :=
    along.allowed decided parse
  obtain ⟨f, holds, length⟩ := along.holds
  have rule_eq : (productionsOf prodlist h).rule q = (productionsOf prodlist h).rule p := rule_eq
  -- the start production is none of the nodes
  have not_start : q ≠ (productionsOf prodlist h).start := by
    rintro rfl
    have start_eq : p = (productionsOf prodlist h).start :=
      (productionsOf prodlist h).start_unique p (congrArg ContextFreeRule.input rule_eq.symm)
    apply parse.start_not_mem
    rw [moves_symbols, along.moves_eq, start_eq]
    exact List.mem_map.mpr ⟨.reduce _, by simp, rfl⟩
  have entry : automaton.actions.find ⟨n, lexem.id⟩ = some (prodlist.get q).reduceAction := by
    rw [ahead]
    rcases entry with reduce | ⟨start_eq, -⟩
    · exact reduce
    · exact absurd start_eq not_start
  have table : actionOf automaton ctx lexem.id = some (prodlist.get q).reduceAction :=
    (actionOf_eq drives.exact viable found lr1 lexem.id).trans entry
  refine ⟨feedLexem_failsWith drives holds viable countable table, ?_⟩
  rintro ⟨ctx', consumed⟩ fed
  obtain ⟨f', holds', length'⟩ := feedLexem_holds holds table (fun kind => by cases kind) fed
  obtain ⟨action, table', cases_of⟩ := feedLexem_cases fed
  obtain rfl := Option.some.inj (table.symm.trans table')
  rcases cases_of with ⟨shift, -⟩ |
    ⟨-, -, scopeStart, reduced, nofElements, -, hr, ⟨accept, -⟩ | ⟨kind, rfl, hg⟩⟩
  · cases shift
  · cases accept
  · obtain ⟨r, before, trees, action_eq, rfl, count, viable'⟩ :=
      viable.reduce drives.toFollows table kind (feedReduce_states hr) hg
    refine ⟨rfl, ?_, ⟨_, viable', ?_⟩, f', holds', ?_⟩
    · rw [along.moves_eq, List.append_assoc, List.singleton_append]
    · -- both productions end at the same place
      have rule_r : (productionsOf prodlist h).rule r = (productionsOf prodlist h).rule p := by
        rw [← rule_eq]
        have valid := viable'.valid
        rw [ProductionForest.symbols_append] at valid
        have output : (productionsOf prodlist h).roots trees.symbols =
            ((productionsOf prodlist h).rule r).output := valid.of_append.2.1
        obtain ⟨δ, whole, -⟩ := item.exists_origin
        rw [List.take_length, ProductionForest.symbols_append, Productions.roots_append,
          output] at whole
        have lengths : ((productionsOf prodlist h).rule r).output.length =
            ((productionsOf prodlist h).rule q).output.length := by
          have action_count : (prodlist.get q).right.length = (prodlist.get r).right.length :=
            congrArg Action.count action_eq
          have length (p : Fin prodlist.length) :
              ((productionsOf prodlist h).rule p).output.length = (prodlist.get p).right.length :=
            List.length_map _
          rw [length, length, action_count]
        ext
        · exact (congrArg Action.value action_eq).symm
        · rw [(List.append_inj' whole lengths).2]
      rw [ParseForest.moves_append, List.map_append] at same
      rw [ParseForest.moves_append, List.map_append, List.map_append, ParseForest.moves,
        ParseForest.moves, List.map_append, ← List.append_assoc, same]
      show _ ++ [Move.reduce ((productionsOf prodlist h).rule r)] =
        _ ++ [Move.reduce ((productionsOf prodlist h).rule p)]
      rw [rule_r]
    · rw [length', length, List.length_append]
      rfl

theorem Along.accept (drives : Drives h lalr automaton) (decided : Decided h lalr automaton.actions)
    (parse : (productionsOf prodlist h).IsParse t.symbols)
    (along : Along h lalr automaton t ms [] ctx) (countable : Countable P ctx.stateStack)
    (at_end : lexem.id = 0) :
    Yields P (fun next : CompilerContext × Bool => next.2 = true)
      (feedLexem automaton lexem ctx) := by
  obtain ⟨g, viable, same⟩ := along.viable
  obtain ⟨f, holds, length⟩ := along.holds
  have roots_eq : (productionsOf prodlist h).roots g.symbols =
      ((productionsOf prodlist h).rule (productionsOf prodlist h).start).output := by
    rw [← parse.roots_eq]
    apply Productions.roots_eq_of_ruled
    apply Productions.ruled_eq_of_replay viable.valid.replay parse.valid.replay
    have mapped := congrArg (List.map symbolMove) same
    rw [moves_symbols, moves_symbols, along.moves_eq, List.append_nil]
    simp only [List.map_map, Function.comp_def, ruleMove_symbolMove] at mapped ⊢
    exact mapped
  have look : (productionsOf prodlist h).ItemLook ((productionsOf prodlist h).roots g.symbols)
      (productionsOf prodlist h).start
      ((productionsOf prodlist h).rule (productionsOf prodlist h).start).output.length none := by
    rw [roots_eq]
    exact Productions.start_whole
  obtain ⟨q, rule_eq, n, st, found, lr1, -, entry⟩ := decided.complete.reduce look
  obtain rfl : q = (productionsOf prodlist h).start :=
    (productionsOf prodlist h).start_unique q (congrArg ContextFreeRule.input rule_eq)
  have entry : automaton.actions.find ⟨n, 0⟩ =
      some (prodlist.get (productionsOf prodlist h).start).acceptAction := by
    rcases entry with reduce | ⟨-, accept⟩
    · exact absurd reduce (drives.start _)
    · exact accept
  have table : actionOf automaton ctx lexem.id =
      some (prodlist.get (productionsOf prodlist h).start).acceptAction := by
    rw [at_end, actionOf_eq drives.exact viable found lr1, entry]
  refine ⟨feedLexem_failsWith drives holds viable countable table, ?_⟩
  rintro ⟨ctx', consumed⟩ fed
  obtain ⟨action, table', cases_of⟩ := feedLexem_cases fed
  obtain rfl := Option.some.inj (table.symm.trans table')
  rcases cases_of with ⟨shift, -⟩ | ⟨-, -, _, _, _, -, -, ⟨-, consumes, -⟩ | ⟨reduce, -⟩⟩
  · cases shift
  · exact consumes
  · cases reduce

/-- The parser can go on along the tree. -/
structure Going (P : Failure → Prop) (h : WellFormed prodlist lexer) (lalr : LalrStates)
    (automaton : Automaton) (t : ProductionForest prodlist) : Prop where
  drives : Drives h lalr automaton
  decided : Decided h lalr automaton.actions
  parse : (productionsOf prodlist h).IsParse t.symbols
  countable : ∀ ms ns ctx, Along h lalr automaton t ms ns ctx → Countable P ctx.stateStack

theorem Going.feedUntilConsumed (going : Going P h lalr automaton t)
    (along : Along h lalr automaton t ms ns ctx) {rest : List Lexem}
    (next : tokensOf ns = lexem :: rest) {fuel : Nat}
    (enough : ns.length ≤ fuel ∨ P .outOfFuel) :
    Yields P (fun ctx' => ∃ ms' ns', Along h lalr automaton t ms' ns' ctx' ∧ tokensOf ns' = rest)
      (Mewa.Compiler.feedUntilConsumed automaton lexem fuel ctx) := by
  induction ns generalizing ms ctx fuel with
  | nil => cases next
  | cons m ns ih =>
    rw [List.length_cons] at enough
    have countable := going.countable _ _ _ along
    cases fuel with
    | zero => exact Yields.error_iff.mpr (enough.resolve_left (by omega))
    | succ fuel =>
      unfold Mewa.Compiler.feedUntilConsumed
      cases m with
      | shift l =>
        obtain ⟨rfl, rfl⟩ := List.cons.inj next
        apply (along.shift going.drives going.decided going.parse countable).bind
        rintro ⟨ctx', consumed⟩ _ ⟨rfl, along'⟩
        exact Yields.ok_iff.mpr ⟨_, ns, along', rfl⟩
      | reduce p =>
        have next : tokensOf ns = lexem :: rest := next
        have ahead : lexem.id = ((tokensOf ns).head?.map Lexem.id).getD 0 := by
          rw [next]
          rfl
        apply (along.reduce going.drives going.decided going.parse countable ahead).bind
        rintro ⟨ctx', consumed⟩ _ ⟨rfl, along'⟩
        exact ih along' next (enough.imp_left fun some_left => by omega)

theorem Going.feedEnd (going : Going P h lalr automaton t)
    (along : Along h lalr automaton t ms ns ctx) (none_left : tokensOf ns = [])
    (at_end : lexem.id = 0) {fuel : Nat} (enough : ns.length < fuel ∨ P .outOfFuel) :
    FailsWith P (Mewa.Compiler.feedUntilConsumed automaton lexem fuel ctx) := by
  induction ns generalizing ms ctx fuel with
  | nil =>
    have countable := going.countable _ _ _ along
    cases fuel with
    | zero => exact FailsWith.error_iff.mpr (enough.resolve_left (by simp))
    | succ fuel =>
      unfold Mewa.Compiler.feedUntilConsumed
      have accepted := along.accept going.drives going.decided going.parse countable at_end
      apply accepted.toFailsWith.bind
      rintro ⟨ctx', consumed⟩ fed
      obtain rfl : consumed = true := accepted.result _ fed
      exact FailsWith.ok ctx'
  | cons m ns ih =>
    rw [List.length_cons] at enough
    have countable := going.countable _ _ _ along
    cases fuel with
    | zero => exact FailsWith.error_iff.mpr (enough.resolve_left (by omega))
    | succ fuel =>
      unfold Mewa.Compiler.feedUntilConsumed
      cases m with
      | shift l => cases none_left
      | reduce p =>
        have none_left : tokensOf ns = [] := none_left
        have ahead : lexem.id = ((tokensOf ns).head?.map Lexem.id).getD 0 := by
          rw [none_left, at_end]
          rfl
        have reduced := along.reduce going.drives going.decided going.parse countable ahead
        apply reduced.toFailsWith.bind
        rintro ⟨ctx', consumed⟩ fed
        obtain ⟨rfl, along'⟩ : consumed = false ∧ _ := reduced.result _ fed
        exact ih along' none_left (enough.imp_left fun some_left => by omega)

theorem IsParse.positive (parse : (productionsOf prodlist h).IsParse t.symbols) :
    ∀ lexem ∈ t.yield, 0 < lexem.id := by
  intro lexem mem
  have leaf : Symbol.terminal lexem.id ∈ t.symbols.yield := by
    rw [ProductionForest.yield_symbols]
    exact List.mem_map.mpr ⟨lexem, mem, rfl⟩
  obtain ⟨p, inside⟩ := parse.mem_yield leaf
  exact terminal_pos inside

theorem Going.feedLexems (going : Going P h lalr automaton t) (fuel : Nat)
    {past future : List Lexem} (leaves : t.yield = past ++ future)
    (enough : t.moves.length ≤ fuel ∨ P .outOfFuel) :
    Yields P (fun ctx => ∃ ms ns, Along h lalr automaton t ms ns ctx ∧ tokensOf ns = future)
      (past.foldlM (feedSourceLexem automaton fuel) {}) := by
  have positive := IsParse.positive going.parse
  rw [leaves] at positive
  have fold := Yields.foldlM (P := P) (l := past) (f := feedSourceLexem automaton fuel)
    (fun consumed ctx => ∃ ms ns rest, Along h lalr automaton t ms ns ctx ∧
      past = consumed ++ rest ∧ tokensOf ns = rest ++ future) (s := {}) ?_ ?_
  · apply fold.mono
    rintro ctx - ⟨ms, ns, rest, along, whole, left⟩
    have nothing : rest = [] := List.self_eq_append_right.mp whole
    rw [nothing] at left
    exact ⟨ms, ns, along, left⟩
  · rintro consumed lexem ctx within ⟨ms, ns, rest, along, whole, left⟩
    obtain ⟨more, whole'⟩ := within
    have rest_eq : rest = lexem :: more := by
      rw [← whole', List.append_assoc] at whole
      exact (List.append_cancel_left whole).symm
    subst rest_eq
    have first : 0 < lexem.id := positive lexem (by rw [whole]; simp)
    have size := congrArg List.length along.moves_eq
    rw [List.length_append] at size
    unfold feedSourceLexem
    rw [if_neg (not_le.mpr first)]
    apply (going.feedUntilConsumed along left
      (enough.imp_left fun room => show ns.length ≤ fuel by omega)).bind
    rintro ctx' _ ⟨ms', ns', along', left'⟩
    rw [along'.reached.checkStackIndices]
    exact Yields.ok_iff.mpr ⟨ms', ns', more, along', by rw [← whole'], left'⟩
  · refine ⟨[], t.moves, past, Along.start, rfl, ?_⟩
    rw [tokensOf_moves, leaves]

theorem Going.feedSource (going : Going P h lalr automaton t) {fuel : Nat}
    (enough : t.moves.length < fuel ∨ P .outOfFuel) (lastline : Int) :
    FailsWith P (Mewa.Compiler.feedSource fuel automaton t.yield lastline) := by
  have fed := going.feedLexems fuel (List.append_nil t.yield).symm
    (enough.imp_left fun room => show t.moves.length ≤ fuel from room.le)
  unfold Mewa.Compiler.feedSource
  apply fed.toFailsWith.bind
  intro ctx here
  obtain ⟨ms, ns, along, none_left⟩ := fed.result ctx here
  have size := congrArg List.length along.moves_eq
  rw [List.length_append] at size
  exact going.feedEnd along none_left rfl (enough.imp_left fun room => show ns.length < fuel by omega)

theorem going_of_room (drives : Drives h lalr automaton)
    (decided : Decided h lalr automaton.actions)
    (parse : (productionsOf prodlist h).IsParse t.symbols)
    (room : (t.moves.length : Int) + 1 < maxInt) :
    Going (fun _ => False) h lalr automaton t where
  drives := drives
  decided := decided
  parse := parse
  countable ms ns ctx along := by
    obtain ⟨f, holds, length⟩ := along.holds
    apply countable_of_length holds
    have folded := congrArg Prod.fst (StackOf.ast_eq holds)
    have bound := length_astOf automaton.lexer f {}
    rw [folded] at bound
    have bound : ctx.luaStack.length ≤ f.moves.length := bound
    have size := congrArg List.length along.moves_eq
    rw [List.length_append] at size
    omega

theorem exists_accepted (drives : Drives h lalr automaton)
    (decided : Decided h lalr automaton.actions) {lexems : List Lexem}
    {ps : List (Fin prodlist.length)}
    (derivation : (productionsOf prodlist h).Rightmost
      [(productionsOf prodlist h).head (productionsOf prodlist h).start] ps
      ((lexems.map Lexem.id).map .terminal))
    (room : ((lexems.length + ps.length : Nat) : Int) < maxInt) {steps : Nat}
    (enough : lexems.length + ps.length ≤ steps) (lastline : Int) :
    ∃ ctx, feedSource steps automaton lexems lastline = .ok ctx := by
  obtain ⟨f, qs, rfl, parse, leaves, reductions⟩ := derivation.exists_parse
  rw [List.map_map] at leaves
  obtain ⟨t, rfl, words⟩ := ParseForest.exists_map_of_yield leaves
  have parse : (productionsOf prodlist h).IsParse (ProductionForest.symbols t) := parse
  have size : t.moves.length = lexems.length + qs.length := by
    have counted := congrArg List.length reductions
    rw [ParseForest.moves_map, reductionsOf_map, List.length_map, List.length_reverse] at counted
    rw [length_moves, tokensOf_moves, words, counted]
  rw [List.length_cons] at room enough
  have going := going_of_room drives decided parse (by omega)
  rw [← words]
  exact FailsWith.exists_ok (going.feedSource (Or.inl (by omega)) lastline)

end Tree

section Source

variable {engine : PatternEngine} {source : GrammarSource} {langdef : LanguageDef} {fuel : Nat}
  {order : HashOrder (TransitionState × Int)} {warnings : List Error}
  {automaton : Automaton} {lexems : List Lexem}

/-- Every sentence of a grammar without priorities and warnings is accepted, if there is room for its
    derivation. The parser makes a move for every lexem and every production of the derivation. -/
theorem feedSource_complete (parsed : parseLanguageDef engine source = .ok langdef)
    (fit : FollowSetsFit langdef.prodlist) (plain : Plain langdef.prodlist)
    (built : Automaton.build fuel engine order source warnings {} =
      ((automaton, warnings), .ok ())) {ps : List (Fin langdef.prodlist.length)}
    (derivation : (productionsOf langdef.prodlist (wellFormed_of_parseLanguageDef parsed)).Rightmost
      [.nonterminal 1] ps ((lexems.map Lexem.id).map .terminal))
    (room : ((lexems.length + ps.length : Nat) : Int) < maxInt) {steps : Nat}
    (enough : lexems.length + ps.length ≤ steps) (lastline : Int) :
    ∃ ctx ms, feedSource steps automaton lexems lastline = .ok ctx ∧
      Run automaton (Feed.start lexems lastline) ms ⟨ctx, []⟩ ∧
      ms.length = lexems.length + ps.length := by
  obtain ⟨langdef', lalr, b, built⟩ := built_of_build built
  obtain rfl := Except.ok.inj (parsed.symm.trans built.parsed)
  have drives := drives_of_built built fit
  have decided := decided_of_built built fit plain
  rw [← head_start (wellFormed_of_parseLanguageDef parsed)] at derivation
  have accepted := exists_accepted drives decided derivation room enough lastline
  obtain ⟨ctx, accepted⟩ := accepted
  obtain ⟨ms, run⟩ := run_of_feedSource accepted
  refine ⟨ctx, ms, accepted, run, ?_⟩
  -- the tree of the run has the same derivation, so that it has as many moves
  obtain ⟨g, whole, rfl, rfl, -⟩ := run_trees drives.toFollows run
    (accepted_of_consumed drives.toFollows run)
  have same := congrArg List.length (decided.complete.rightmost_unique decided.single derivation
    (ProductionForest.rightmost whole))
  rw [List.length_map, List.length_map, List.length_cons, List.length_reverse] at same
  rw [List.length_append, List.length_map, List.length_singleton, length_moves, tokensOf_moves, same]
  omega

def commaInput : List Lexem := [⟨"x", 1, "x", 1⟩, ⟨"comma", 2, ",", 1⟩]

/-- `x ,` is accepted with two shifts, two reductions and the acceptance. -/
theorem feedSource_complete_comma :
    ∃ ctx ms, feedSource 5 (Sample.automaton Sample.commaLexems) commaInput 1 = .ok ctx ∧
      Run (Sample.automaton Sample.commaLexems) (Feed.start commaInput 1) ms ⟨ctx, []⟩ ∧
      ms.length = 5 := by
  obtain ⟨langdef, buildable, plain, rules⟩ := Sample.exists_buildable_comma
  obtain ⟨ps, derivation, three⟩ := Sample.exists_derivation_comma rules
  have size : commaInput.length + ps.length = 5 := by
    rw [three]
    rfl
  obtain ⟨ctx, ms, accepted, run, moves⟩ := feedSource_complete buildable.parsed buildable.fit plain
    Sample.build_comma derivation (by rw [size]; decide) size.le 1
  exact ⟨ctx, ms, accepted, run, moves.trans size⟩

end Source

end Mewa.Compiler
