/- Module: Mewa/Automaton/Table
   digest: The action and goto tables filled from the merged states, with their conflicts. -/

import Mewa.Automaton.States
import Mewa.Grammar.Parser

set_option autoImplicit false
set_option relaxedAutoImplicit false

namespace Mewa

open Mewa.Lib

structure Automaton where
  language : String := ""
  typesystem : String := ""
  cmdline : String := ""
  lexer : Lexer := {}
  actions : SortedMap ActionKey Action := SortedMap.empty
  gotos : SortedMap GotoKey Int := SortedMap.empty
  calls : List Call := []
  nonterminals : List String := []

/-! The texts of the warnings. -/

def getLexemName (lexer : Lexer) (terminal : Int) : Except Failure String :=
  if terminal ≠ 0 then lexer.lexemName terminal else .ok "$"

def FollowMap.follow2String (fm : FollowMap) (follow : Nat) (lexer : Lexer) :
    Except Failure String := do
  let elems ← fm.content follow
  let names ← elems.elems.mapM (getLexemName lexer)
  .ok (" ".intercalate names)

/-- What was found for a terminal in the items of a state. -/
structure TransitionText where
  shift : Bool := false
  redu : Bool := false
  prodstr : String := ""
  prodsum : List String := []

def describeItem (prodlist : List ProductionDef) (fm : FollowMap) (terminal : Int)
    (text : TransitionText) (item : TransitionItem) : Except Failure TransitionText :=
  match prodlist[item.prodindex]? with
  | none => .error .outOfRange
  | some prod =>
    match prod.nodeAt item.prodpos with
    | some nd =>
      .ok <| if nd = ⟨.Terminal, terminal⟩ then
        { text with
          shift := true
          prodstr := prod.prefix_tostring item.prodpos
          prodsum := text.prodsum ++ [prod.tostring] }
      else text
    | none => do
      let elems ← fm.content item.follow
      .ok <| if terminal ∈ elems then
        { text with
          redu := true
          prodstr := if text.prodstr.isEmpty then prod.tostringAt item.prodpos else text.prodstr
          prodsum := text.prodsum ++ [prod.tostring] }
      else text

def getStateTransitionString (prodlist : List ProductionDef) (lexer : Lexer) (fm : FollowMap)
    (state : TransitionState) (terminal : Int) : Except Failure String := do
  let text ← state.unpack.foldlM (describeItem prodlist fm terminal) {}
  let prodstr ←
    if text.redu && text.shift then do
      .ok (text.prodstr ++ " ->|<- " ++ (← getLexemName lexer terminal))
    else if text.redu then do .ok (text.prodstr ++ " <- " ++ (← getLexemName lexer terminal))
    else if text.shift then do .ok (text.prodstr ++ " -> " ++ (← getLexemName lexer terminal))
    else .ok text.prodstr
  .ok (if text.prodsum = [] then prodstr
    else prodstr ++ " [" ++ ", ".intercalate text.prodsum ++ "]")

/-- What the loop over the merged states writes. -/
structure BuildState where
  actions : SortedMap ActionKey Action
  gotos : SortedMap GotoKey Int
  priorityMap : SortedMap ActionKey Priority := SortedMap.empty
  warnings : List Error
  nofAcceptStates : Nat := 0

/-- A part of the build that writes tables and warnings, and what it has written stays when it
    fails. -/
abbrev BuildM := ExceptT Failure (StateM BuildState)

namespace BuildM

def lift {α : Type} (x : Except Failure α) : BuildM α := ExceptT.mk (pure x)

def warn (code : ErrorCode) (arg : String) : BuildM Unit :=
  modify fun b => { b with warnings := b.warnings ++ [⟨code, arg, 0⟩] }

end BuildM

/-- What a build reads while it fills the tables. -/
structure BuildInput where
  prodlist : List ProductionDef
  lexer : Lexer
  fm : FollowMap
  gotoMap : TransitionItemGotoMap

structure ProductionShiftNode where
  node : ProductionNode
  goto_stateidx : Int
  priority : Priority

/-- The kernels behind the nodes of a state and the priorities of its terminals. -/
abbrev ShiftMaps := SortedMap ProductionNode (FlatSet Nat) × SortedMap ProductionNode Priority

/-- One item of a state in the maps of the successors and the priorities. -/
def collectShift (prodlist : List ProductionDef) (maps : ShiftMaps) (item : TransitionItem) :
    BuildM ShiftMaps :=
  match prodlist[item.prodindex]? with
  | none => BuildM.lift (.error .outOfRange)
  | some prod =>
    match prod.right[item.prodpos]? with
    | none => pure maps
    | some nd => do
      let node := nd.toProductionNode
      let succ := (⟨item.prodindex, item.prodpos + 1, 0⟩ : TransitionItem).packed
      let nodemap := maps.1.set node (((maps.1.find node).getD SortedSet.empty).insert succ)
      if nd.type = .Terminal then
        match maps.2.insertNew node prod.priority with
        | (prioritymap, none) => pure (nodemap, prioritymap)
        | (prioritymap, some known) => do
          if known ≠ prod.priority then
            BuildM.warn .PriorityConflictInGrammarDef
              (prod.prefix_tostring item.prodpos ++ " -> " ++ nd.tostring ++ " (" ++
                known.tostring ++ " != " ++ prod.priority.tostring ++ ")")
          pure (nodemap, prioritymap)
      else pure (nodemap, maps.2)

/-- The successor of a state behind one node. -/
def shiftNode (gotoMap : TransitionItemGotoMap) (prioritymap : SortedMap ProductionNode Priority)
    (entry : ProductionNode × FlatSet Nat) : Except Failure ProductionShiftNode :=
  match gotoNumber gotoMap entry.2 with
  | none => logicError
  | some stateidx =>
    if entry.1.type = .Terminal then
      match prioritymap.find entry.1 with
      | none => .error .outOfRange
      | some priority => .ok ⟨entry.1, stateidx, priority⟩
    else .ok ⟨entry.1, stateidx, {}⟩

def getShiftNodes (input : BuildInput) (state : TransitionState) :
    BuildM (List ProductionShiftNode) := do
  let maps ← state.unpack.foldlM (collectShift input.prodlist) (SortedMap.empty, SortedMap.empty)
  BuildM.lift (maps.1.entries.mapM (shiftNode input.gotoMap maps.2))

def completedOf (prodlist : List ProductionDef) (item : TransitionItem) : Option ProductionDef :=
  (prodlist[item.prodindex]?).filter fun prod => item.prodpos = prod.right.length

def getReduceFollow (prodlist : List ProductionDef) (state : TransitionState) : FlatSet Nat :=
  SortedSet.ofList ((state.unpack.filter fun item => (completedOf prodlist item).isSome).map
    TransitionItem.follow)

structure ReductionDef where
  priority : Priority
  head : Int
  callidx : Nat
  count : Nat
  scope : ScopeFlag

def ProductionDef.reductionDef (prod : ProductionDef) : ReductionDef :=
  ⟨prod.priority, prod.left.index, prod.callidx, prod.right.length, prod.scope⟩

/-- One item in the search for the reduction with a handle: the first one counts, a different one
    is a conflict. -/
def collectReduction (input : BuildInput) (follow : Nat) (rt : Option (ReductionDef × ProductionDef))
    (item : TransitionItem) : BuildM (Option (ReductionDef × ProductionDef)) :=
  match completedOf input.prodlist item with
  | none => pure rt
  | some prod =>
    if item.follow ≠ follow then pure rt
    else
      match rt with
      | none => pure (some (prod.reductionDef, prod))
      | some (rd, last) => do
        if rd.head ≠ prod.left.index ∨ rd.count ≠ prod.right.length ∨
            rd.callidx ≠ prod.callidx then do
          let followstr ← BuildM.lift (input.fm.follow2String follow input.lexer)
          BuildM.warn .ReduceReduceConflictInGrammarDef
            (prod.tostring ++ ", " ++ last.tostring ++ " <- " ++ followstr)
        else if rd.priority ≠ prod.priority then do
          let followstr ← BuildM.lift (input.fm.follow2String follow input.lexer)
          BuildM.warn .PriorityConflictInGrammarDef
            (prod.tostring ++ ", " ++ last.tostring ++ " <- " ++ followstr ++ " (" ++
              rd.priority.tostring ++ " != " ++ prod.priority.tostring ++ ")")
        pure rt

def getReductionDef (input : BuildInput) (state : TransitionState) (follow : Nat) :
    BuildM ReductionDef := do
  match ← state.unpack.foldlM (collectReduction input follow) none with
  | none => BuildM.lift (.error .outOfRange)
  | some (rd, _) => pure rd

/-- The warning about two actions for a terminal. -/
def warnConflict (input : BuildInput) (state : TransitionState) (code : ErrorCode)
    (terminal : Int) : BuildM Unit := do
  let text ← BuildM.lift
    (getStateTransitionString input.prodlist input.lexer input.fm state terminal)
  BuildM.warn code text

def setAction (key : ActionKey) (action : Action) (priority : Priority) : BuildM Unit :=
  modify fun b => { b with
    actions := b.actions.set key action
    priorityMap := b.priorityMap.set key priority }

def insertAction (input : BuildInput) (state : TransitionState) (key : ActionKey)
    (action : Action) (priority : Priority) : BuildM Unit := do
  let b ← get
  match b.actions.find key, b.priorityMap.find key with
  | none, _ => setAction key action priority
  | some _, none => modify fun b => { b with priorityMap := b.priorityMap.set key priority }
  | some known, some pi =>
    if action.type = known.type then
      if known ≠ action then
        warnConflict input state (if action.type = .Shift then .ShiftShiftConflictInGrammarDef
          else .ReduceReduceConflictInGrammarDef) key.terminal
      else pure ()
    else if priority.defined ≠ pi.defined then
      warnConflict input state .ShiftReduceConflictInGrammarDef key.terminal
    else if priority.value > pi.value then setAction key action priority
    else if priority.value = pi.value then
      if priority.assoziativity ≠ pi.assoziativity ∨ priority.assoziativity = .Undefined then
        warnConflict input state .ShiftReduceConflictInGrammarDef key.terminal
      else if action.type = .Reduce then
        if priority.assoziativity = .Left then setAction key action priority else pure ()
      else if priority.assoziativity = .Right then setAction key action priority
      else pure ()
    else pure ()

/-- The accept action of a state with the completed start production. -/
def insertAccept (prodlist : List ProductionDef) (stateidx : Int) (state : TransitionState) :
    BuildM Unit :=
  if isAcceptState prodlist state then
    match prodlist.head? with
    | none => BuildM.lift (.error .outOfRange)
    | some prod =>
      if prod.left.index ≠ 1 then BuildM.lift logicError
      else modify fun b => { b with
        actions := b.actions.set ⟨stateidx, 0⟩
          (.accept prod.left.index prod.scope prod.callidx prod.right.length)
        nofAcceptStates := b.nofAcceptStates + 1 }
  else pure ()

def insertShift (input : BuildInput) (stateidx : Int) (state : TransitionState)
    (shft : ProductionShiftNode) : BuildM Unit :=
  if shft.node.type = .Terminal then
    insertAction input state ⟨stateidx, shft.node.index⟩ (.shift shft.goto_stateidx) shft.priority
  else do
    let b ← get
    match b.gotos.insertNew ⟨stateidx, shft.node.index⟩ shft.goto_stateidx with
    | (gotos, none) => modify fun b => { b with gotos := gotos }
    | (_, some known) =>
      if known ≠ shft.goto_stateidx then BuildM.lift logicError else pure ()

def insertReductions (input : BuildInput) (stateidx : Int) (state : TransitionState)
    (follow : Nat) : BuildM Unit := do
  let rd ← getReductionDef input state follow
  let terminals ← BuildM.lift (input.fm.content follow)
  terminals.elems.forM fun terminal =>
    insertAction input state ⟨stateidx, terminal⟩ (.reduce rd.head rd.scope rd.callidx rd.count)
      rd.priority

def insertState (input : BuildInput) (st : Int × TransitionState) : BuildM Unit := do
  insertAccept input.prodlist st.1 st.2
  let shiftNodes ← getShiftNodes input st.2
  shiftNodes.forM (insertShift input st.1 st.2)
  (getReduceFollow input.prodlist st.2).elems.forM (insertReductions input st.1 st.2)

def checkComplexity (langdef : LanguageDef) : Except Failure Unit := do
  if langdef.prodlist.length ≥ Limits.MaxNofProductions then
    Grammar.throw .ComplexityMaxStateInGrammarDef
  if langdef.lexer.nofTerminals ≥ Limits.MaxTerminal then
    Grammar.throw .ComplexityMaxTerminalInGrammarDef
  langdef.prodlist.forM fun prod => do
    if prod.right.length ≥ Limits.MaxProductionLength then
      Grammar.throw .ComplexityMaxProductionLengthInGrammarDef
    if prod.priority.value < 0 ∨ prod.priority.value ≥ Limits.MaxPriority then
      Grammar.throw .ComplexityMaxProductionPriorityInGrammarDef

structure LalrStates where
  states : SortedMap Int TransitionState
  fm : FollowMap
  gotoMap : TransitionItemGotoMap

/-- What the tables of a grammar are filled from. -/
abbrev LalrStates.input (lalr : LalrStates) (langdef : LanguageDef) : BuildInput :=
  ⟨langdef.prodlist, langdef.lexer, lalr.fm, lalr.gotoMap⟩

def calculateStates (fuel : Nat) (order : HashOrder (TransitionState × Int))
    (prodlist : List ProductionDef) : Except Failure LalrStates := do
  let nullable ← getNullableNonterminalSet fuel prodlist
  let firstMap ← getNonTerminalFirstSetMap fuel prodlist nullable
  let fm ← FollowMap.init prodlist firstMap nullable
  let (_, stateAssignmentsLr0) ←
    getAutomatonStateAssignments fuel prodlist (calculateClosureLr0 fuel prodlist) ()
  let (fm, stateAssignmentsLr1) ←
    getAutomatonStateAssignments fuel prodlist (calculateClosureLr1 fuel prodlist) fm
  let (fm, lalr1States) ←
    calculateLalr1StateMap order stateAssignmentsLr0 stateAssignmentsLr1 fm
  let gotoMap ← calculateLalr1TransitionItemGotoMap lalr1States
  if stateAssignmentsLr0.length ≥ Limits.MaxState then
    Grammar.throw .ComplexityMaxStateInGrammarDef
  .ok ⟨lalr1States, fm, gotoMap⟩

/-- The loop that fills the tables, with its last check. -/
def fillTables (input : BuildInput) (states : SortedMap Int TransitionState) : BuildM Unit := do
  states.entries.forM (insertState input)
  let b ← get
  if b.nofAcceptStates = 0 then BuildM.lift (Grammar.throw .NoAcceptStatesInGrammarDef)

namespace Automaton

/-- The build of an automaton from a grammar: the automaton and the warnings after it, and how it
    ended. `fuel` bounds the iterations of every loop. -/
def build (fuel : Nat) (engine : PatternEngine) (order : HashOrder (TransitionState × Int))
    (source : GrammarSource) (warnings : List Error) (self : Automaton) :
    (Automaton × List Error) × Except Failure Unit :=
  match parseLanguageDef engine source with
  | .error e => ((self, warnings), .error e)
  | .ok langdef =>
    match checkComplexity langdef with
    | .error e => ((self, warnings), .error e)
    | .ok _ =>
      match calculateStates fuel order langdef.prodlist with
      | .error e => ((self, warnings), .error e)
      | .ok lalr =>
        let (result, b) := (fillTables ⟨langdef.prodlist, langdef.lexer, lalr.fm, lalr.gotoMap⟩
          lalr.states).run.run ⟨self.actions, self.gotos, SortedMap.empty, warnings, 0⟩
        let self := { self with actions := b.actions, gotos := b.gotos }
        match result with
        | .error e => ((self, b.warnings), .error e)
        | .ok _ =>
          (({ self with
            language := langdef.language
            typesystem := langdef.typesystem
            cmdline := langdef.cmdline
            lexer := langdef.lexer
            calls := langdef.calls
            nonterminals := langdef.nonterminals }, b.warnings), .ok ())

end Automaton

/-! Grammars for examples. -/

namespace Sample

/-- Patterns that are plain texts. -/
def engine : PatternEngine where
  compiles _ := true

def grammar (lexems : List (LexemType × String)) : GrammarSource where
  lexems := lexems.map fun lexem => ⟨lexem.1, lexem.2, "", 1⟩
  lastline := 1

def build (lexems : List (LexemType × String)) : (Automaton × List Error) × Except Failure Unit :=
  Automaton.build 100 engine .insertion (grammar lexems) [] {}

def automaton (lexems : List (LexemType × String)) : Automaton := (build lexems).1.1

theorem build_eq_of_done {lexems : List (LexemType × String)}
    (done : (build lexems).2.toOption = some ()) :
    build lexems = ((automaton lexems, (build lexems).1.2), .ok ()) := by
  unfold automaton
  generalize build lexems = result at done
  obtain ⟨⟨automaton, warnings⟩, returned⟩ := result
  cases returned with
  | error e => simp [Except.toOption] at done
  | ok _ => rfl

theorem build_eq {lexems : List (LexemType × String)} (quiet : (build lexems).1.2 = [])
    (done : (build lexems).2.toOption = some ()) :
    build lexems = ((automaton lexems, []), .ok ()) := by
  rw [← quiet]
  exact build_eq_of_done done

end Sample

end Mewa
