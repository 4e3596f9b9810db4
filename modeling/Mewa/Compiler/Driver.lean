/- Module: Mewa/Compiler/Driver
   digest: The parser that runs the tables and builds the nodes of the AST on the Lua stack. -/

import Mewa.Automaton.Table

set_option autoImplicit false
set_option relaxedAutoImplicit false

namespace Mewa

open Mewa.Lib

inductive NodeExtent
  | step (counter : Int)
  | scope (start stop : Int)
  deriving DecidableEq, Repr

/-- A value on the Lua stack: a lexem, or a table with the number of the call of a production. -/
inductive AstNode
  | lexem (name value : String) (line : Int)
  | struct (call : Nat) (line : Int) (extent : NodeExtent) (arg : List AstNode)
  deriving Repr

namespace Compiler

/-- An element of the state stack with its part of the Lua stack. -/
structure State where
  index : Int := 0
  luastki : Int := 0
  luastkn : Int := 0
  scopecnt : Int := 0
  deriving DecidableEq, Repr

/-- The state stack has its top in front, the Lua stack has it at its end. -/
structure CompilerContext where
  stateStack : List State := [⟨1, 0, 0, 0⟩]
  scopestep : Int := 0
  line : Int := 0
  luaStack : List AstNode := []

def maxInt : Int := 2147483647

def throw {α : Type} (code : ErrorCode) (arg : String) (line : Int) : Except Failure α :=
  .error (.thrown ⟨code, arg, line⟩)

/-! The texts of the errors. -/

def expectedTerminalList (actions : SortedMap ActionKey Action) (state : Int) (lexer : Lexer) :
    Except Failure String := do
  let keys := (actions.entries.map Prod.fst).filter fun key =>
    key.state = state ∧ 0 ≤ key.terminal
  let names ← keys.mapM fun key => getLexemName lexer key.terminal
  .ok (", ".intercalate names)

def stateTransitionInfo (state terminal : Int) (lexer : Lexer) : Except Failure String := do
  .ok ("state " ++ toString state ++ ", token " ++ (← getLexemName lexer terminal))

def tokenString (lexem : Lexem) (lexer : Lexer) : Except Failure String :=
  if lexem.id = 0 then .ok "$"
  else do
    let name ← lexer.lexemName lexem.id
    if ← lexer.isKeyword lexem.id then .ok name
    else .ok (name ++ " = \"" ++ lexem.value ++ "\"")

/-- The indices would be moved down by the first of them, but it is always 1, and the loop that
    should move them works on copies. -/
def adjustStateCountersOnStack (stateStack : List State) : Except Failure Unit :=
  match stateStack.reverse.find? fun st => st.luastki ≠ 0 with
  | none => throw .CompiledSourceTooComplex "" 0
  | some st => if st.luastki - 1 = 0 then throw .CompiledSourceTooComplex "" 0 else .ok ()

/-- The index behind the part of the last state with elements on the Lua stack. -/
def getNextLuaStackIndex (stateStack : List State) : Except Failure Int :=
  match stateStack.find? fun st => st.luastkn ≠ 0 with
  | none => .ok 1
  | some st =>
    if st.luastki + st.luastkn ≥ maxInt then do
      adjustStateCountersOnStack stateStack
      -- the call of itself on the same stack does not end
      .error .outOfFuel
    else .ok (st.luastki + st.luastkn)

/-- The number of elements on the Lua stack that belong to the last states. -/
def getLuaStackReductionSize (stateStack : List State) (nn : Nat) : Int :=
  let states := stateStack.take nn
  let start := ((states.reverse.find? fun st => st.luastki ≠ 0).map State.luastki).getD 0
  let stop := ((states.find? fun st => st.luastkn ≠ 0).map
    fun st => st.luastki + st.luastkn).getD 0
  stop - start

def luaPushLexem (lexem : Lexem) (ctx : CompilerContext) : CompilerContext :=
  { ctx with luaStack := ctx.luaStack ++ [.lexem lexem.name lexem.value lexem.line] }

/-- The elements of the last states become the arguments of a new node. -/
def luaReduceStruct (reductionSize callidx : Nat) (scopeflag : ScopeFlag) (scopeStart : Int)
    (ctx : CompilerContext) : Except Failure CompilerContext :=
  let states := ctx.stateStack.take reductionSize
  let stk_end := ((states.find? fun st => st.luastki ≠ 0).map
    fun st => st.luastki + st.luastkn).getD 0
  let stk_start := ((states.reverse.find? fun st => st.luastki ≠ 0).map State.luastki).getD 0
  let scopestep := if scopeflag = .NoScope then ctx.scopestep else ctx.scopestep + 1
  let extent : NodeExtent :=
    if scopeflag = .Scope then .scope scopeStart scopestep else .step scopestep
  let nofLuaStackElements := stk_end - stk_start
  if nofLuaStackElements < 0 ∨ nofLuaStackElements > ctx.luaStack.length then .error .outOfRange
  else
    let rest := ctx.luaStack.length - nofLuaStackElements.toNat
    .ok { ctx with
      scopestep := scopestep
      luaStack := ctx.luaStack.take rest ++
        [.struct callidx ctx.line extent (ctx.luaStack.drop rest)] }

/-- A lexem that is shifted. Keywords have no element on the Lua stack. -/
def feedShift (automaton : Automaton) (state : Int) (lexem : Lexem) (ctx : CompilerContext) :
    Except Failure CompilerContext := do
  if ← automaton.lexer.isKeyword lexem.id then
    .ok { ctx with stateStack := ⟨state, 0, 0, ctx.scopestep⟩ :: ctx.stateStack }
  else
    let next_luastki ← getNextLuaStackIndex ctx.stateStack
    .ok { luaPushLexem lexem ctx with
      stateStack := ⟨state, next_luastki, 1, ctx.scopestep⟩ :: ctx.stateStack
      line := lexem.line }

/-- The scope counter at the start of the last states. -/
def scopeStartOf (reductionSize : Nat) (ctx : CompilerContext) : Except Failure Int :=
  if reductionSize = 0 then .ok ctx.scopestep
  else
    match ctx.stateStack[reductionSize - 1]? with
    | none => .error .outOfRange
    | some st => .ok st.scopecnt

/-- The states of a right side leave the stack, and a call makes a node of their elements. The
    second result is the number of elements that are left for the left side. -/
def feedReduce (action : Action) (scopeStart : Int) (ctx : CompilerContext) :
    Except Failure (CompilerContext × Int) :=
  if action.call ≠ 0 then do
    let ctx ← luaReduceStruct action.count action.call action.scopeflag scopeStart ctx
    .ok ({ ctx with stateStack := ctx.stateStack.drop action.count }, 1)
  else
    .ok ({ ctx with stateStack := ctx.stateStack.drop action.count },
      getLuaStackReductionSize ctx.stateStack action.count)

def feedAccept (luaStackNofElements : Int) (lexem : Lexem) (ctx : CompilerContext) :
    Except Failure CompilerContext :=
  if lexem.id ≠ 0 then throw .LanguageAutomatonUnexpectedAccept "" lexem.line
  else
    match ctx.stateStack with
    | [st] =>
      if st.luastki ≠ 0 ∨ st.luastkn ≠ 0 then
        throw .LanguageAutomatonCorrupted "lua_run_compiler.cpp" 0
      else .ok { ctx with
        stateStack := [{ st with luastki := 1, luastkn := luaStackNofElements + 1 }] }
    | _ => throw .LanguageAutomatonCorrupted "lua_run_compiler.cpp" 0

def feedGoto (automaton : Automaton) (action : Action) (luaStackNofElements scopeStart : Int)
    (lexem : Lexem) (ctx : CompilerContext) : Except Failure CompilerContext :=
  match ctx.stateStack with
  | [] => .error .outOfRange
  | top :: _ =>
    match automaton.gotos.find ⟨top.index, action.value⟩ with
    | none => do
      let info ← stateTransitionInfo top.index lexem.id automaton.lexer
      throw .LanguageAutomatonMissingGoto info lexem.line
    | some state =>
      if luaStackNofElements ≠ 0 then do
        let next_luastki ← getNextLuaStackIndex ctx.stateStack
        .ok { ctx with
          stateStack := ⟨state, next_luastki, luaStackNofElements, scopeStart⟩ ::
            ctx.stateStack }
      else .ok { ctx with stateStack := ⟨state, 0, 0, scopeStart⟩ :: ctx.stateStack }

/-- The action of the table for the state on the top and a terminal. -/
def actionOf (automaton : Automaton) (ctx : CompilerContext) (terminal : Int) : Option Action := do
  automaton.actions.find ⟨(← ctx.stateStack.head?).index, terminal⟩

def unexpectedToken {α : Type} (automaton : Automaton) (lexem : Lexem) (state : Int) :
    Except Failure α := do
  let token ← tokenString lexem automaton.lexer
  let expected ← expectedTerminalList automaton.actions state automaton.lexer
  throw .UnexpectedTokenNotOneOf (token ++ " \x7b " ++ expected ++ " \x7d") lexem.line

/-- The next step for a lexem. The second result says if the lexem was consumed. -/
def feedLexem (automaton : Automaton) (lexem : Lexem) (ctx : CompilerContext) :
    Except Failure (CompilerContext × Bool) :=
  match ctx.stateStack with
  | [] => .error .outOfRange
  | top :: _ =>
    match automaton.actions.find ⟨top.index, lexem.id⟩ with
    | none => unexpectedToken automaton lexem top.index
    | some action =>
      match action.type with
      | .Shift => do .ok (← feedShift automaton action.value lexem ctx, true)
      | .Accept => do
        if ctx.stateStack.length ≤ action.count then
          throw .LanguageAutomatonCorrupted "" lexem.line
        else
          let scopeStart ← scopeStartOf action.count ctx
          let (ctx, luaStackNofElements) ← feedReduce action scopeStart ctx
          .ok (← feedAccept luaStackNofElements lexem ctx, true)
      | .Reduce => do
        if ctx.stateStack.length ≤ action.count then
          throw .LanguageAutomatonCorrupted "" lexem.line
        else
          let scopeStart ← scopeStartOf action.count ctx
          let (ctx, luaStackNofElements) ← feedReduce action scopeStart ctx
          .ok (← feedGoto automaton action luaStackNofElements scopeStart lexem ctx, false)

def feedUntilConsumed (automaton : Automaton) (lexem : Lexem) :
    Nat → CompilerContext → Except Failure CompilerContext
  | 0, _ => .error .outOfFuel
  | fuel + 1, ctx => do
    match ← feedLexem automaton lexem ctx with
    | (ctx, true) => .ok ctx
    | (ctx, false) => feedUntilConsumed automaton lexem fuel ctx

def checkStackIndices (ctx : CompilerContext) : Except Failure Unit :=
  match ctx.stateStack with
  | [] => .ok ()
  | top :: _ =>
    if top.luastkn ≠ 0 ∧ (ctx.luaStack.length : Int) ≠ top.luastki + top.luastkn - 1 then
      throw .LogicError "lua_run_compiler.cpp" 0
    else .ok ()

def feedSourceLexem (automaton : Automaton) (fuel : Nat) (ctx : CompilerContext) (lexem : Lexem) :
    Except Failure CompilerContext := do
  if lexem.id ≤ 0 then throw .BadCharacterInGrammarDef lexem.value lexem.line
  else
    let ctx ← feedUntilConsumed automaton lexem fuel ctx
    checkStackIndices ctx
    .ok ctx

/-- The part of the compiler before the functions of the top level nodes are called: the lexems of
    the source and then the end of the input at a line. -/
def feedSource (fuel : Nat) (automaton : Automaton) (lexems : List Lexem) (lastline : Int) :
    Except Failure CompilerContext := do
  let ctx ← lexems.foldlM (feedSourceLexem automaton fuel) {}
  feedUntilConsumed automaton (Lexem.atEnd lastline) fuel ctx

end Compiler

end Mewa
