/- Module: Mewa/Automaton/Building
   digest: A build fails because of its grammar or of its limits only, never for an internal error. -/

import Mewa.Automaton.Filling
import Mewa.Automaton.Lalr
import Mewa.Grammar.Lexing
import Mewa.Grammar.Numbers

set_option autoImplicit false
set_option relaxedAutoImplicit false

namespace Mewa

open Mewa.Lib

theorem shortRules_of_checkComplexity {langdef : LanguageDef}
    (passed : checkComplexity langdef = .ok ()) : ShortRules langdef.prodlist := by
  intro prod mem
  rw [checkComplexity] at passed
  split at passed
  · cases passed
  split at passed
  · cases passed
  have checked := Grammar.forM_eq_ok passed prod mem
  dsimp only at checked
  split at checked
  · cases checked
  · rename_i short
    exact not_le.mp short

section Exact

variable {prodlist : List ProductionDef} {lexer : Lexer} {h : WellFormed prodlist lexer}
  {lalr : LalrStates}

/-- A terminal behind an item is none of the end of the input, and the lexer knows it. -/
theorem terminal_of_nodeOf (h : WellFormed prodlist lexer) {item : TransitionItem} {t : Int}
    (at_item : nodeOf prodlist item = some ⟨.Terminal, t⟩) :
    0 < t ∧ ∃ keyword, lexer.isKeyword t = .ok keyword := by
  unfold nodeOf ProductionDef.nodeAt at at_item
  obtain ⟨prod, at_index, at_pos⟩ := Option.bind_eq_some_iff.mp at_item
  obtain ⟨nd, at_element, same⟩ := Option.map_eq_some_iff.mp at_pos
  have known := h.terminal prod (List.mem_of_getElem? at_index) nd
    (List.mem_of_getElem? at_element) (congrArg ProductionNode.type same)
  rwa [show nd.index = t from congrArg ProductionNode.index same] at known

theorem terminal_pos {p : Fin prodlist.length} {t : Int}
    (mem : Symbol.terminal t ∈ ((productionsOf prodlist h).rule p).output) : 0 < t := by
  obtain ⟨nd, here, symbol⟩ := List.mem_map.mp mem
  unfold symbolOf at symbol
  split at symbol
  · rename_i terminal
    obtain rfl := Symbol.terminal.inj symbol
    exact (h.terminal _ (List.getElem_mem p.isLt) nd here terminal).1
  · cases symbol

/-- The item of a completed production, at the end of the prefix on the stack. -/
theorem completed_inv {γ : List (Symbol Int Int)} {state : TransitionState}
    (lr1 : Lr1State h lalr.fm γ state) {item : TransitionItem} {prod : ProductionDef}
    (mem : item ∈ state.unpack) (completed : completedOf prodlist item = some prod) :
    ∃ p : Fin prodlist.length, (prodlist.get p) = prod ∧ item.prodindex = p ∧
      (productionsOf prodlist h).Item γ p
        ((productionsOf prodlist h).rule p).output.length := by
  unfold completedOf at completed
  obtain ⟨at_index, pos⟩ := Option.filter_eq_some_iff.mp completed
  have pos : item.prodpos = prod.right.length := of_decide_eq_true pos
  obtain ⟨bound, rfl⟩ := List.getElem?_eq_some_iff.mp at_index
  refine ⟨⟨item.prodindex, bound⟩, rfl, rfl, ?_⟩
  have item_at := (lr1.represents.core ⟨item.prodindex, bound⟩ item.prodpos).mp
    ⟨item, mem, rfl, rfl⟩
  have length : ((productionsOf prodlist h).rule ⟨item.prodindex, bound⟩).output.length =
      prodlist[item.prodindex].right.length := List.length_map _
  rwa [length, ← pos]

theorem start_follow (exact : lalr.Exact h) {γ : List (Symbol Int Int)}
    {st : TransitionState} (lr1 : Lr1State h lalr.fm γ st)
    {item : TransitionItem} (mem : item ∈ st.unpack) (index : item.prodindex = 0) :
    item.follow = 0 := by
  obtain ⟨elems, here⟩ := lr1.known item mem
  have same : elems = SortedSet.ofList [0] := by
    apply SortedSet.eq_of_mem_iff
    intro t
    rw [← here.has_iff, lr1.start item mem index t]
    simp
  exact exact.usable.sound.handle_unique here (same ▸ exact.usable.sound.zero)

theorem successors_eq_kernelKey (short : ShortRules prodlist) {γ : List (Symbol Int Int)}
    {st st' : TransitionState} {node : ProductionNode} (resolved : node.type ≠ .Unresolved)
    (rep : st.Represents ((productionsOf prodlist h).Item γ))
    (rep' : st'.Represents ((productionsOf prodlist h).Item (γ ++ [symbolOf node]))) :
    successors prodlist st.unpack node = kernelKey st' := by
  apply SortedSet.eq_of_mem_iff
  intro pkg
  unfold successors
  rw [SortedSet.mem_ofList, List.mem_map]
  constructor
  · rintro ⟨item, mem, rfl⟩
    obtain ⟨here, at_item⟩ := List.mem_filter.mp mem
    have at_item : nodeOf prodlist item = some node := of_decide_eq_true at_item
    apply (packed_mem_kernelKey (nodeOf_pos short at_item)).mpr
    let p : Fin prodlist.length := ⟨item.prodindex, rep.bound item here⟩
    apply (rep'.core p (item.prodpos + 1)).mpr
    apply Productions.item_succ_iff.mpr
    exact ⟨(rep.core p item.prodpos).mp ⟨item, here, rfl, rfl⟩,
      (nodeOf_eq_some_iff h (p := p) rfl resolved).mp at_item⟩
  · intro mem
    obtain ⟨item', here', positive, rfl⟩ := mem_kernelKey.mp mem
    obtain ⟨k, pos⟩ : ∃ k, item'.prodpos = k + 1 := ⟨item'.prodpos - 1, by omega⟩
    let p : Fin prodlist.length := ⟨item'.prodindex, rep'.bound item' here'⟩
    obtain ⟨item_at, next⟩ :=
      Productions.item_succ_iff.mp ((rep'.core p (k + 1)).mp ⟨item', here', rfl, pos⟩)
    obtain ⟨item, here, index, rfl⟩ := (rep.core p k).mpr item_at
    refine ⟨item, List.mem_filter.mpr ⟨here, decide_eq_true ?_⟩, ?_⟩
    · exact (nodeOf_eq_some_iff h index resolved).mpr next
    · rw [index, ← pos]

theorem LalrStates.Exact.goto (exact : lalr.Exact h) (short : ShortRules prodlist)
    {γ : List (Symbol Int Int)} {st : TransitionState} (lr1 : Lr1State h lalr.fm γ st)
    {item : TransitionItem} (mem : item ∈ st.unpack) {node : ProductionNode}
    (at_item : nodeOf prodlist item = some node) :
    ∃ next st', gotoNumber lalr.gotoMap (successors prodlist st.unpack node) = some next ∧
      lalr.states.find next = some st' ∧ Lr1State h lalr.fm (γ ++ [symbolOf node]) st' := by
  obtain ⟨bound, resolved⟩ := nodeOf_inv h at_item
  let p : Fin prodlist.length := ⟨item.prodindex, bound⟩
  have item_at := (lr1.represents.core p item.prodpos).mp ⟨item, mem, rfl, rfl⟩
  have behind := (nodeOf_eq_some_iff h (p := p) rfl resolved).mp at_item
  obtain ⟨next, st', found, lr1'⟩ := exact.exists_state ⟨_, _, .goto item_at behind⟩
  refine ⟨next, st', ?_, found, lr1'⟩
  rw [successors_eq_kernelKey short resolved lr1.represents lr1'.represents]
  exact (exact.kernel _ _).mpr ⟨st', found, rfl⟩

theorem LalrStates.Exact.accepts (exact : lalr.Exact h) {st : TransitionState}
    {γ : List (Symbol Int Int)} (lr1 : Lr1State h lalr.fm γ st)
    (whole : (productionsOf prodlist h).Item γ (productionsOf prodlist h).start
      ((productionsOf prodlist h).rule (productionsOf prodlist h).start).output.length) :
    isAcceptState prodlist st = true := by
  obtain ⟨item, mem, index, pos⟩ := (lr1.represents.core _ _).mpr whole
  have index : item.prodindex = 0 := index
  have handle := start_follow exact lr1 mem index
  unfold isAcceptState
  apply List.any_eq_true.mpr
  refine ⟨item, mem, ?_⟩
  obtain ⟨prod, first, -⟩ := h.first
  obtain ⟨bound, rfl⟩ := List.getElem?_eq_some_iff.mp first
  have length : item.prodpos = prodlist[0].right.length := by
    rw [pos]
    exact List.length_map _
  rw [List.head?_eq_getElem?, first]
  simp [index, handle, length]

theorem LalrStates.Exact.exists_accept (exact : lalr.Exact h) :
    ∃ st ∈ lalr.states.entries, isAcceptState prodlist st.2 = true := by
  have along (k : Nat) (inside : k ≤
      ((productionsOf prodlist h).rule (productionsOf prodlist h).start).output.length) :
      ∃ γ, (productionsOf prodlist h).Item γ (productionsOf prodlist h).start k := by
    induction k with
    | zero => exact ⟨[], .start⟩
    | succ k ih =>
      obtain ⟨γ, item⟩ := ih (by omega)
      exact ⟨_, .goto item (List.getElem?_eq_getElem (by omega))⟩
  obtain ⟨γ, whole⟩ := along _ (le_refl _)
  obtain ⟨n, st, found, lr1⟩ := exact.exists_state ⟨_, _, whole⟩
  exact ⟨(n, st), SortedMap.find_eq_some.mp found, exact.accepts lr1 whole⟩

end Exact

section Build

variable {engine : PatternEngine} {source : GrammarSource} {langdef : LanguageDef}
  {lalr : LalrStates}

theorem fillable_of_exact (parsed : parseLanguageDef engine source = .ok langdef)
    (short : ShortRules langdef.prodlist)
    (exact : lalr.Exact (wellFormed_of_parseLanguageDef parsed)) {n : Int} {st : TransitionState}
    (found : lalr.states.find n = some st) : Fillable (lalr.input langdef) st := by
  obtain ⟨γ, lr1⟩ := exact.exists_prefix found
  have named {t : Int} (terminal : t ∈ terminalsOf langdef.prodlist) :
      ∃ name, getLexemName langdef.lexer t = .ok name := by
    unfold getLexemName
    split
    · rename_i not_end
      rcases terminal with rfl | ⟨prod, mem, nd, here, kind, rfl⟩
      · exact absurd rfl not_end
      · exact lexemName_of_parseLanguageDef parsed mem here kind
    · exact ⟨_, rfl⟩
  refine ⟨lr1.represents.bound, fun item mem => ?_, fun item mem node at_item => ?_⟩
  · obtain ⟨elems, here⟩ := lr1.known item mem
    exact ⟨elems, exact.usable.sound.content_iff.mpr here,
      fun t inside => named (exact.usable.sound.mem_terminals here inside)⟩
  · obtain ⟨next, st', number, -, -⟩ := exact.goto short lr1 mem at_item
    refine ⟨(nodeOf_inv (wellFormed_of_parseLanguageDef parsed) at_item).2, ⟨next, number⟩, ?_⟩
    intro terminal
    unfold nodeOf ProductionDef.nodeAt at at_item
    obtain ⟨prod, at_index, at_pos⟩ := Option.bind_eq_some_iff.mp at_item
    obtain ⟨nd, at_element, rfl⟩ := Option.map_eq_some_iff.mp at_pos
    exact named (Or.inr ⟨prod, List.mem_of_getElem? at_index, nd, List.mem_of_getElem? at_element,
      terminal, rfl⟩)

theorem LalrStates.Exact.fillTables (parsed : parseLanguageDef engine source = .ok langdef)
    (short : ShortRules langdef.prodlist)
    (exact : lalr.Exact (wellFormed_of_parseLanguageDef parsed)) (warnings : List Error) :
    Completes (Mewa.fillTables (lalr.input langdef) lalr.states)
      ⟨SortedMap.empty, SortedMap.empty, SortedMap.empty, warnings, 0⟩ := by
  obtain ⟨prod, first, index⟩ := (wellFormed_of_parseLanguageDef parsed).first
  have head : (lalr.input langdef).prodlist.head? = some prod := by
    show langdef.prodlist.head? = some prod
    rw [List.head?_eq_getElem?, first]
  apply fillTables_completes head index _ exact.exists_accept
  intro n st found
  exact fillable_of_exact parsed short exact found

/-- The grammars whose build stays within the limits of the packed items. -/
structure Buildable (engine : PatternEngine) (source : GrammarSource) (langdef : LanguageDef) :
    Prop where
  parsed : parseLanguageDef engine source = .ok langdef
  complexity : checkComplexity langdef = .ok ()
  fit : FollowSetsFit langdef.prodlist

/-! Grammars for examples. -/

theorem mem_rules_iff (h : WellFormed langdef.prodlist langdef.lexer)
    {r : ContextFreeRule Int Int} :
    r ∈ langdef.prodlist.map ruleOf ↔ ∃ p, (productionsOf langdef.prodlist h).rule p = r := by
  rw [List.mem_map]
  constructor
  · rintro ⟨prod, mem, rfl⟩
    obtain ⟨i, lt, rfl⟩ := List.mem_iff_getElem.mp mem
    exact ⟨⟨i, lt⟩, rfl⟩
  · rintro ⟨p, rfl⟩
    exact ⟨langdef.prodlist[p], List.getElem_mem p.isLt, rfl⟩

namespace Sample

/-- Lists of `x`. -/
def listLexems : List (LexemType × String) :=
  [(.IDENT, "S"), (.EQUAL, "="), (.IDENT, "L"), (.SEMICOLON, ";"),
    (.IDENT, "L"), (.EQUAL, "="), (.IDENT, "x"), (.IDENT, "L"), (.OR, "|"), (.IDENT, "x"),
    (.SEMICOLON, ";"), (.IDENT, "x"), (.DDOT, ":"), (.SQSTRING, "x"), (.SEMICOLON, ";")]

def listRules : List (ContextFreeRule Int Int) :=
  [⟨1, [.nonterminal 2]⟩, ⟨2, [.terminal 1, .nonterminal 2]⟩, ⟨2, [.terminal 1]⟩]

/-- Lists of `x`, also empty, where every `x` has a comma behind it. -/
def commaLexems : List (LexemType × String) :=
  [(.IDENT, "S"), (.EQUAL, "="), (.IDENT, "L"), (.SEMICOLON, ";"),
    (.IDENT, "L"), (.EQUAL, "="), (.IDENT, "x"), (.IDENT, "comma"), (.IDENT, "L"), (.OR, "|"),
    (.EPSILON, "ε"), (.SEMICOLON, ";"), (.IDENT, "x"), (.DDOT, ":"), (.SQSTRING, "x"),
    (.SEMICOLON, ";"), (.IDENT, "comma"), (.DDOT, ":"), (.SQSTRING, ","), (.SEMICOLON, ";")]

def commaRules : List (ContextFreeRule Int Int) :=
  [⟨1, [.nonterminal 2]⟩, ⟨2, [.terminal 1, .terminal 2, .nonterminal 2]⟩, ⟨2, []⟩]

/-- Sums of `x`, where a summand can be missing. A `+` behind a sum has a conflict. -/
def sumLexems : List (LexemType × String) :=
  [(.IDENT, "S"), (.EQUAL, "="), (.IDENT, "E"), (.SEMICOLON, ";"),
    (.IDENT, "E"), (.EQUAL, "="), (.IDENT, "E"), (.SQSTRING, "+"), (.IDENT, "E"), (.OR, "|"),
    (.IDENT, "x"), (.OR, "|"), (.EPSILON, "ε"), (.SEMICOLON, ";"),
    (.IDENT, "x"), (.DDOT, ":"), (.SQSTRING, "x"), (.SEMICOLON, ";")]

def sumRules : List (ContextFreeRule Int Int) :=
  [⟨1, [.nonterminal 2]⟩, ⟨2, [.nonterminal 2, .terminal 1, .nonterminal 2]⟩, ⟨2, [.terminal 2]⟩,
    ⟨2, []⟩]

/-- One `x`, with a nonterminal that derives itself. -/
def cycleLexems : List (LexemType × String) :=
  [(.IDENT, "S"), (.EQUAL, "="), (.IDENT, "B"), (.SEMICOLON, ";"),
    (.IDENT, "A"), (.EQUAL, "="), (.IDENT, "A"), (.OR, "|"), (.IDENT, "x"), (.SEMICOLON, ";"),
    (.IDENT, "B"), (.EQUAL, "="), (.IDENT, "A"), (.SEMICOLON, ";"),
    (.IDENT, "x"), (.DDOT, ":"), (.SQSTRING, "x"), (.SEMICOLON, ";")]

def cycleRules : List (ContextFreeRule Int Int) :=
  [⟨1, [.nonterminal 3]⟩, ⟨2, [.nonterminal 2]⟩, ⟨2, [.terminal 1]⟩, ⟨3, [.nonterminal 2]⟩]

/-- One production with a right side that is too long. -/
def wideLexems : List (LexemType × String) :=
  [(.IDENT, "S"), (.EQUAL, "=")] ++ List.replicate 16 (.IDENT, "x") ++
    [(.SEMICOLON, ";"), (.IDENT, "x"), (.DDOT, ":"), (.SQSTRING, "x"), (.SEMICOLON, ";")]

/-- The grammar is within the limits, without priorities, and has these rules. -/
def hasRules (lexems : List (LexemType × String)) (rules : List (ContextFreeRule Int Int)) : Bool :=
  match parseLanguageDef Sample.engine (grammar lexems) with
  | .error _ => false
  | .ok langdef => decide ((checkComplexity langdef).toOption = some () ∧
      langdef.prodlist.length < 64 ∧ (∀ prod ∈ langdef.prodlist, prod.priority = {}) ∧
      langdef.prodlist.map ruleOf = rules)

theorem exists_buildable {lexems : List (LexemType × String)} {rules : List (ContextFreeRule Int Int)}
    (shape : hasRules lexems rules = true) :
    ∃ langdef, Buildable Sample.engine (grammar lexems) langdef ∧
      (∀ prod ∈ langdef.prodlist, prod.priority = {}) ∧
      langdef.prodlist.map ruleOf = rules := by
  unfold hasRules at shape
  cases parsed : parseLanguageDef Sample.engine (grammar lexems) with
  | error e =>
    rw [parsed] at shape
    cases shape
  | ok langdef =>
    rw [parsed] at shape
    obtain ⟨complexity, few, plain, same⟩ := of_decide_eq_true shape
    have complexity := toOption_eq_some.mp complexity
    have fit := followSetsFit_of_length (wellFormed_of_parseLanguageDef parsed)
      (shortRules_of_checkComplexity complexity) few
    exact ⟨langdef, ⟨parsed, complexity, fit⟩, plain, same⟩

theorem exists_buildable_list :
    ∃ langdef, Buildable Sample.engine (grammar listLexems) langdef ∧
      (∀ prod ∈ langdef.prodlist, prod.priority = {}) ∧
      langdef.prodlist.map ruleOf = listRules := exists_buildable (by decide +kernel)

theorem exists_buildable_comma :
    ∃ langdef, Buildable Sample.engine (grammar commaLexems) langdef ∧
      (∀ prod ∈ langdef.prodlist, prod.priority = {}) ∧
      langdef.prodlist.map ruleOf = commaRules := exists_buildable (by decide +kernel)

theorem exists_buildable_sum :
    ∃ langdef, Buildable Sample.engine (grammar sumLexems) langdef ∧
      (∀ prod ∈ langdef.prodlist, prod.priority = {}) ∧
      langdef.prodlist.map ruleOf = sumRules := exists_buildable (by decide +kernel)

theorem exists_buildable_cycle :
    ∃ langdef, Buildable Sample.engine (grammar cycleLexems) langdef ∧
      (∀ prod ∈ langdef.prodlist, prod.priority = {}) ∧
      langdef.prodlist.map ruleOf = cycleRules := exists_buildable (by decide +kernel)

theorem build_list : build listLexems = ((automaton listLexems, []), .ok ()) :=
  build_eq (by decide +kernel) (by decide +kernel)

theorem build_comma : build commaLexems = ((automaton commaLexems, []), .ok ()) :=
  build_eq (by decide +kernel) (by decide +kernel)

theorem build_sum : build sumLexems = ((automaton sumLexems, (build sumLexems).1.2), .ok ()) :=
  build_eq_of_done (by decide +kernel)

theorem build_cycle :
    build cycleLexems = ((automaton cycleLexems, (build cycleLexems).1.2), .ok ()) :=
  build_eq_of_done (by decide +kernel)

variable {h : WellFormed langdef.prodlist langdef.lexer}

theorem exists_rule {rules : List (ContextFreeRule Int Int)}
    (same : langdef.prodlist.map ruleOf = rules) {r : ContextFreeRule Int Int} (mem : r ∈ rules) :
    ∃ p, (productionsOf langdef.prodlist h).rule p = r :=
  (mem_rules_iff h).mp (same ▸ mem)

theorem rule_mem {rules : List (ContextFreeRule Int Int)}
    (same : langdef.prodlist.map ruleOf = rules) (p : Fin langdef.prodlist.length) :
    (productionsOf langdef.prodlist h).rule p ∈ rules :=
  same ▸ (mem_rules_iff h).mpr ⟨p, rfl⟩

end Sample

/-- The build of such a grammar can fail only since it has too many states or sets of terminals, or
    too little fuel. No lookup in a map fails, and no internal error is thrown. -/
theorem build_failsWith (buildable : Buildable engine source langdef) (fuel : Nat)
    (order : HashOrder (TransitionState × Int)) (warnings : List Error) :
    FailsWith Exhausted (Automaton.build fuel engine order source warnings {}).2 := by
  have short := shortRules_of_checkComplexity buildable.complexity
  have states := calculateStates_yields (wellFormed_of_parseLanguageDef buildable.parsed) short
    buildable.fit fuel order
  unfold Automaton.build
  simp only [buildable.parsed, buildable.complexity]
  cases calculated : calculateStates fuel order langdef.prodlist with
  | error e => exact FailsWith.error_iff.mpr (states.kind e calculated)
  | ok lalr =>
    obtain ⟨u, b, filled⟩ := (states.result lalr calculated).fillTables buildable.parsed short
      warnings
    unfold Returns at filled
    simp only [filled]
    exact FailsWith.ok ()

/-- A grammar with an empty production and a conflict, which is reported as a warning. -/
theorem build_failsWith_sum :
    ∃ langdef, parseLanguageDef Sample.engine (Sample.grammar Sample.sumLexems) = .ok langdef ∧
      (Sample.build Sample.sumLexems).1.2.map Error.code =
        [.ShiftReduceConflictInGrammarDef] ∧
      FailsWith Exhausted (Sample.build Sample.sumLexems).2 := by
  obtain ⟨langdef, buildable, -⟩ := Sample.exists_buildable_sum
  exact ⟨langdef, buildable.parsed, by decide +kernel, build_failsWith buildable 100 .insertion []⟩

/-- A build that fails leaves a new automaton as it was: the tables, which are filled in place, are
    not touched before the last step that can fail. -/
theorem build_atomic {fuel : Nat} {order : HashOrder (TransitionState × Int)}
    {warnings : List Error} (fit : ∀ langdef, parseLanguageDef engine source = .ok langdef →
      checkComplexity langdef = .ok () → FollowSetsFit langdef.prodlist) {e : Failure}
    (failed : (Automaton.build fuel engine order source warnings {}).2 = .error e) :
    (Automaton.build fuel engine order source warnings {}).1 = ({}, warnings) := by
  unfold Automaton.build at failed ⊢
  cases parsed : parseLanguageDef engine source with
  | error e => rfl
  | ok langdef =>
    cases complexity : checkComplexity langdef with
    | error e => simp only [complexity]
    | ok _ =>
      have short := shortRules_of_checkComplexity complexity
      have states := calculateStates_yields (wellFormed_of_parseLanguageDef parsed) short
        (fit langdef parsed complexity) fuel order
      cases calculated : calculateStates fuel order langdef.prodlist with
      | error e => simp only [complexity, calculated]
      | ok lalr =>
        -- the tables of these states are always filled
        obtain ⟨u, b, filled⟩ :=
          (states.result lalr calculated).fillTables parsed short warnings
        unfold Returns at filled
        simp only [parsed, complexity, calculated, filled] at failed
        cases failed

/-- A production with 16 elements on its right side is refused. -/
theorem build_atomic_wide :
    (Sample.build Sample.wideLexems).2 =
        .error (.thrown ⟨.ComplexityMaxProductionLengthInGrammarDef, "", 0⟩) ∧
      (Sample.build Sample.wideLexems).1 = ({}, []) := by
  have failed : (Sample.build Sample.wideLexems).2 =
      .error (.thrown ⟨.ComplexityMaxProductionLengthInGrammarDef, "", 0⟩) := by decide +kernel
  have refused : ((parseLanguageDef Sample.engine (Sample.grammar Sample.wideLexems)).toOption.map
      fun langdef => (checkComplexity langdef).toOption) = some none := by decide +kernel
  refine ⟨failed, build_atomic (fun langdef parsed passed => ?_) failed⟩
  rw [parsed] at refused
  simp [Except.toOption, passed] at refused

theorem Built.exact {fuel : Nat} {order : HashOrder (TransitionState × Int)}
    {warnings warnings' : List Error} {automaton : Automaton} {b : BuildState}
    (built : Built fuel engine order source warnings automaton warnings' langdef lalr b)
    (fit : FollowSetsFit langdef.prodlist) :
    lalr.Exact (wellFormed_of_parseLanguageDef built.parsed) :=
  (calculateStates_yields (wellFormed_of_parseLanguageDef built.parsed)
    (shortRules_of_checkComplexity built.complexity) fit fuel order).result lalr built.states

end Build

end Mewa
