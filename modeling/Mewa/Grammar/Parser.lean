/- Module: Mewa/Grammar/Parser
   digest: The reader of grammar definitions: its state machine and the checks after it. -/

import Mewa.Automaton.Structs
import Mewa.Lexer.Definitions

set_option autoImplicit false
set_option relaxedAutoImplicit false

namespace Mewa

open Mewa.Lib

inductive LexemType
  | ERROR
  | NONE
  | IDENT
  | NUMBER
  | PRIORITY
  | DQSTRING
  | SQSTRING
  | PERCENT
  | SLASH
  | EQUAL
  | ARROW
  | DDOT
  | SEMICOLON
  | EPSILON
  | CALL
  | OPENCURLYBRK
  | CLOSECURLYBRK
  | COMMA
  | OPENBRK
  | CLOSEBRK
  | OR
  | STEP
  | SCOPE
  deriving DecidableEq, Repr

/-- A lexem of a grammar. The value is a view of the source, with `tail` what follows it there. -/
structure GrammarLexem where
  type : LexemType
  value : String
  tail : String := ""
  line : Int := 1
  deriving DecidableEq, Repr

/-- A grammar as the lexems read from it, with the line of its end. -/
structure GrammarSource where
  lexems : List GrammarLexem
  lastline : Int := 1
  deriving DecidableEq, Repr

structure LanguageDef where
  language : String := ""
  typesystem : String := ""
  cmdline : String := ""
  lexer : Lexer := {}
  prodlist : List ProductionDef := []
  calls : List Call := []
  nonterminals : List String := []

inductive ParserState
  | Init
  | ParseProductionAttributes
  | ParsePriority
  | ParseAssign
  | ParseProductionElement
  | ParseCall
  | ParseCallName
  | ParseCallArg
  | ParseCallArgMemberName
  | ParseCallArgMemberEquals
  | ParseCallArgMemberValue
  | ParseCallArgMemberDelim
  | ParseCallClose
  | ParseEndOfProduction
  | ParsePattern
  | ParsePatternSelect
  | ParseEndOfLexemDef
  | ParseLexerCommand
  | ParseLexerCommandArg
  deriving DecidableEq, Repr

def ParserState.stateName : ParserState → String
  | Init => "Init"
  | ParseProductionAttributes => "ParseProductionAttributes"
  | ParsePriority => "ParsePriority"
  | ParseAssign => "ParseAssign"
  | ParseProductionElement => "ParseProductionElement"
  | ParseCall => "ParseCall"
  | ParseCallName => "ParseCallName"
  | ParseCallArg => "ParseCallArg"
  | ParseCallArgMemberName => "ParseCallArgMemberName"
  | ParseCallArgMemberEquals => "ParseCallArgMemberEquals"
  | ParseCallArgMemberValue => "ParseCallArgMemberValue"
  | ParseCallArgMemberDelim => "ParseCallArgMemberDelim"
  | ParseCallClose => "ParseCallClose"
  | ParseEndOfProduction => "ParseEndOfProduction"
  | ParsePattern => "ParsePattern"
  | ParsePatternSelect => "ParsePatternSelect"
  | ParseEndOfLexemDef => "ParseEndOfLexemDef"
  | ParseLexerCommand => "ParseLexerCommand"
  | ParseLexerCommandArg => "ParseLexerCommandArg"

/-- The local variables of the reader. The map of calls is the position of a call in the list of
    calls, counted from 1. -/
structure ParserContext where
  rt : LanguageDef := {}
  state : ParserState := .Init
  rulename : String := ""
  patternstr : String := ""
  cmdname : String := ""
  cmdargs : List String := []
  prodmap : List (String × Nat) := []
  nonTerminalIdMap : SortedMap String Nat := SortedMap.empty
  priority : Priority := {}
  call_argtype : ArgumentType := .NoArg
  call_function : String := ""
  call_arg : String := ""
  selectidx : Int := 0

namespace Grammar

def throw {α : Type} (code : ErrorCode) (arg : String := "") : Except Failure α :=
  .error (.thrown ⟨code, arg, 0⟩)

/-- A number as an integer of 32 bits holds it. -/
def wrapInt (value : Int) : Int := (value + 2 ^ 31) % 2 ^ 32 - 2 ^ 31

/-- A number as an integer of 16 bits holds it. -/
def wrapShort (value : Int) : Int := (value + 2 ^ 15) % 2 ^ 16 - 2 ^ 15

def convertStringToInt (str : String) : Except Failure Int :=
  if str.isEmpty then throw .UnexpectedTokenInGrammarDef str
  else str.toList.foldlM (fun rt ch =>
    if '0' ≤ ch ∧ ch ≤ '9' then
      let value := wrapInt (rt * 10 + (ch.toNat - '0'.toNat : Nat))
      if value < 0 then throw .ValueOutOfRangeInGrammarDef str else .ok value
    else throw .UnexpectedTokenInGrammarDef str) 0

def assoziativityOf (ch : Char) : Assoziativity := if ch = 'L' then .Left else .Right

def convertStringToPriority (str : String) : Except Failure Priority := do
  let chars := str.toList
  let rt : Priority ←
    match chars.head?, chars.getLast? with
    | some first, some last =>
      if first = 'L' ∨ first = 'R' then
        if chars.length = 1 then .ok ⟨0, assoziativityOf first⟩
        else do
          .ok ⟨wrapShort (← convertStringToInt (String.ofList chars.tail)), assoziativityOf first⟩
      else if last = 'L' ∨ last = 'R' then do
        .ok ⟨wrapShort (← convertStringToInt (String.ofList chars.dropLast)),
          assoziativityOf last⟩
      else do .ok ⟨wrapShort (← convertStringToInt str), .Undefined⟩
    | _, _ => throw .UnexpectedTokenInGrammarDef str
  if rt.value ≥ Limits.MaxPriority then throw .ComplexityMaxProductionPriorityInGrammarDef str
  else .ok rt

def caseInsensitiveEqual (a b : String) : Bool :=
  a.toList.map Char.toLower = b.toList.map Char.toLower

/-- Insertion of an entry behind those with the same key. -/
def multimapInsert (key : String) (value : Nat) : List (String × Nat) → List (String × Nat)
  | [] => [(key, value)]
  | e :: l => if key < e.1 then (key, value) :: e :: l else e :: multimapInsert key value l

def updateBack (f : ProductionDef → ProductionDef) (ctx : ParserContext) :
    Except Failure ParserContext :=
  match ctx.rt.prodlist.getLast? with
  | none => .error .outOfRange
  | some prod =>
    .ok { ctx with rt := { ctx.rt with prodlist := ctx.rt.prodlist.dropLast ++ [f prod] } }

def pushElement (name : String) (symbol : Bool) (ctx : ParserContext) :
    Except Failure ParserContext :=
  updateBack (fun prod => { prod with right := prod.right ++ [⟨{}, name, symbol⟩] }) ctx

/-- A new production for the current rule. -/
def pushProduction (line : Int) (ctx : ParserContext) : ParserContext :=
  { ctx with
    prodmap := multimapInsert ctx.rulename ctx.rt.prodlist.length ctx.prodmap
    rt := { ctx.rt with prodlist := ctx.rt.prodlist ++
      [⟨⟨{}, ctx.rulename, true⟩, [], ctx.priority, 0, .NoScope, line⟩] } }

def onIdent (value : String) (ctx : ParserContext) : Except Failure ParserContext :=
  match ctx.state with
  | .Init =>
    .ok { ctx with
      rulename := value
      patternstr := ""
      selectidx := 0
      priority := {}
      call_argtype := .NoArg
      call_function := ""
      call_arg := ""
      state := .ParseProductionAttributes }
  | .ParseProductionElement => pushElement value true ctx
  | .ParseCallName => .ok { ctx with call_function := value, state := .ParseCallArg }
  | .ParseCallArg =>
    .ok { ctx with call_arg := value, call_argtype := .ReferenceArg, state := .ParseCallClose }
  | .ParseCallArgMemberValue =>
    .ok { ctx with call_arg := ctx.call_arg ++ value, state := .ParseCallArgMemberDelim }
  | .ParseCallArgMemberName =>
    .ok { ctx with call_arg := ctx.call_arg ++ value, state := .ParseCallArgMemberEquals }
  | .ParseLexerCommand => .ok { ctx with cmdname := value, state := .ParseLexerCommandArg }
  | .ParseLexerCommandArg => .ok { ctx with cmdargs := ctx.cmdargs ++ [value] }
  | .ParsePriority => do
    .ok { ctx with priority := ← convertStringToPriority value, state := .ParseAssign }
  | _ => throw .UnexpectedTokenInGrammarDef value

def onCall (value : String) (ctx : ParserContext) : Except Failure ParserContext :=
  match ctx.state with
  | .ParseCallName => .ok { ctx with call_function := value, state := .ParseCallArg }
  | .ParseCallArg =>
    .ok { ctx with call_arg := value, call_argtype := .ReferenceArg, state := .ParseCallClose }
  | _ => throw .UnexpectedTokenInGrammarDef value

def onOpenBracket (value : String) (ctx : ParserContext) : Except Failure ParserContext :=
  match ctx.state with
  | .ParseProductionElement | .ParseCall => .ok { ctx with state := .ParseCallName }
  | _ => throw .UnexpectedTokenInGrammarDef value

/-- The call of the last production with its number, a new one if the call is new. -/
def assignCall (ctx : ParserContext) : Except Failure ParserContext :=
  let call : Call := ⟨ctx.call_function, ctx.call_arg, ctx.call_argtype⟩
  match ctx.rt.calls.findIdx? (· = call) with
  | some i => updateBack (fun prod => { prod with callidx := i + 1 }) ctx
  | none =>
    updateBack (fun prod => { prod with callidx := ctx.rt.calls.length + 1 })
      { ctx with rt := { ctx.rt with calls := ctx.rt.calls ++ [call] } }

def onCloseBracket (value : String) (ctx : ParserContext) : Except Failure ParserContext :=
  match ctx.state with
  | .ParseCallArg | .ParseCallClose => do
    .ok { ← assignCall ctx with state := .ParseEndOfProduction }
  | .ParseCallName => .ok { ctx with state := .ParseEndOfProduction }
  | _ => throw .UnexpectedTokenInGrammarDef value

def onScope (scope : ScopeFlag) (value : String) (ctx : ParserContext) :
    Except Failure ParserContext :=
  match ctx.state with
  | .ParseCallName =>
    match ctx.rt.prodlist.getLast? with
    | none => .error .outOfRange
    | some prod =>
      if prod.scope ≠ .NoScope then throw .DuplicateScopeInGrammarDef
      else updateBack (fun prod => { prod with scope := scope }) ctx
  | _ => throw .UnexpectedTokenInGrammarDef value

def onPriority (value : String) (ctx : ParserContext) : Except Failure ParserContext :=
  match ctx.state with
  | .ParsePriority => do
    .ok { ctx with priority := ← convertStringToPriority value, state := .ParseAssign }
  | _ => throw .UnexpectedTokenInGrammarDef value

def onNumber (value : String) (ctx : ParserContext) : Except Failure ParserContext :=
  match ctx.state with
  | .ParsePriority => do
    .ok { ctx with priority := ← convertStringToPriority value, state := .ParseAssign }
  | .ParsePatternSelect => do
    .ok { ctx with selectidx := ← convertStringToInt value, state := .ParseEndOfLexemDef }
  | .ParseCallArg =>
    .ok { ctx with call_arg := value, call_argtype := .ReferenceArg, state := .ParseCallClose }
  | .ParseCallArgMemberValue =>
    .ok { ctx with call_arg := ctx.call_arg ++ value, state := .ParseCallArgMemberDelim }
  | .ParseLexerCommandArg => .ok { ctx with cmdargs := ctx.cmdargs ++ [value] }
  | _ => throw .UnexpectedTokenInGrammarDef value

def onOpenCurly (value : String) (ctx : ParserContext) : Except Failure ParserContext :=
  match ctx.state with
  | .ParseCallArg =>
    .ok { ctx with
      call_argtype := .ReferenceArg
      call_arg := "\x7b"
      state := .ParseCallArgMemberName }
  | .ParseCallArgMemberValue => throw .NestedCallArgumentStructureInGrammarDef
  | _ => throw .UnexpectedTokenInGrammarDef value

def onCloseCurly (value : String) (ctx : ParserContext) : Except Failure ParserContext :=
  match ctx.state with
  | .ParseCallArgMemberDelim =>
    .ok { ctx with call_arg := ctx.call_arg ++ "\x7d", state := .ParseCallClose }
  | _ => throw .UnexpectedTokenInGrammarDef value

def onComma (value : String) (ctx : ParserContext) : Except Failure ParserContext :=
  match ctx.state with
  | .ParseCallArgMemberDelim =>
    .ok { ctx with call_arg := ctx.call_arg ++ ",", state := .ParseCallArgMemberName }
  | _ => throw .UnexpectedTokenInGrammarDef value

def onString (engine : PatternEngine) (quote value tail : String) (ctx : ParserContext) :
    Except Failure ParserContext :=
  match ctx.state with
  | .ParsePattern => .ok { ctx with patternstr := value, state := .ParsePatternSelect }
  | .ParseLexerCommandArg => .ok { ctx with cmdargs := ctx.cmdargs ++ [value] }
  | .ParseProductionElement => do
    let lexer ←
      if ctx.rt.lexer.lexemId value = 0 then ctx.rt.lexer.defineKeyword engine value tail
      else .ok ctx.rt.lexer
    pushElement value false { ctx with rt := { ctx.rt with lexer := lexer } }
  | .ParseCallArg =>
    .ok { ctx with call_arg := value, call_argtype := .StringArg, state := .ParseCallClose }
  | .ParseCallArgMemberValue =>
    .ok { ctx with
      call_arg := ctx.call_arg ++ quote ++ value ++ quote
      state := .ParseCallArgMemberDelim }
  | _ => throw .UnexpectedTokenInGrammarDef value

def onEpsilon (value : String) (ctx : ParserContext) : Except Failure ParserContext :=
  match ctx.state with
  | .ParseProductionElement =>
    match ctx.rt.prodlist.getLast? with
    | none => .error .outOfRange
    | some prod =>
      if prod.right.isEmpty then .ok { ctx with state := .ParseCall }
      else throw .UnexpectedTokenInGrammarDef value
  | _ => throw .UnexpectedTokenInGrammarDef value

def onPercent (value : String) (ctx : ParserContext) : Except Failure ParserContext :=
  match ctx.state with
  | .Init => .ok { ctx with cmdname := "", cmdargs := [], state := .ParseLexerCommand }
  | _ => throw .UnexpectedTokenInGrammarDef value

def onSlash (value : String) (ctx : ParserContext) : Except Failure ParserContext :=
  match ctx.state with
  | .ParseProductionAttributes => .ok { ctx with state := .ParsePriority }
  | _ => throw .UnexpectedTokenInGrammarDef value

/-- The first production of a rule, which makes its name a nonterminal. -/
def startRule (line : Int) (ctx : ParserContext) : ParserContext :=
  let id := ctx.nonTerminalIdMap.entries.length + 1
  let ctx := pushProduction line ctx
  match ctx.nonTerminalIdMap.insertNew ctx.rulename id with
  | (map, none) =>
    { ctx with
      nonTerminalIdMap := map
      rt := { ctx.rt with nonterminals := ctx.rt.nonterminals ++ [ctx.rulename] }
      state := .ParseProductionElement }
  | (_, some _) => { ctx with state := .ParseProductionElement }

def onEqual (value : String) (line : Int) (ctx : ParserContext) : Except Failure ParserContext :=
  match ctx.state with
  | .ParseCallArgMemberEquals =>
    .ok { ctx with call_arg := ctx.call_arg ++ value, state := .ParseCallArgMemberValue }
  | .ParseProductionAttributes | .ParseAssign => .ok (startRule line ctx)
  | _ => throw .UnexpectedTokenInGrammarDef value

def onArrow (value : String) (line : Int) (ctx : ParserContext) : Except Failure ParserContext :=
  match ctx.state with
  | .ParseProductionAttributes | .ParseAssign => .ok (startRule line ctx)
  | _ => throw .UnexpectedTokenInGrammarDef value

def onDdot (value : String) (ctx : ParserContext) : Except Failure ParserContext :=
  match ctx.state with
  | .ParseAssign => throw .PriorityDefNotForLexemsInGrammarDef
  | .ParseProductionAttributes => .ok { ctx with state := .ParsePattern }
  | _ => throw .UnexpectedTokenInGrammarDef value

/-- A command that takes one argument. -/
def withArgument (ctx : ParserContext) (f : String → Except Failure LanguageDef) :
    Except Failure LanguageDef :=
  match ctx.cmdargs with
  | [arg] => f arg
  | _ => throw .CommandNumberOfArgumentsInGrammarDef ctx.cmdname

def lexerCommand (engine : PatternEngine) (line : Int) (ctx : ParserContext) :
    Except Failure LanguageDef :=
  let rt := ctx.rt
  if caseInsensitiveEqual ctx.cmdname "LANGUAGE" then
    withArgument ctx fun arg => .ok { rt with language := arg }
  else if caseInsensitiveEqual ctx.cmdname "TYPESYSTEM" then
    withArgument ctx fun arg => .ok { rt with typesystem := arg }
  else if caseInsensitiveEqual ctx.cmdname "CMDLINE" then
    withArgument ctx fun arg => .ok { rt with cmdline := arg }
  else if caseInsensitiveEqual ctx.cmdname "IGNORE" then
    withArgument ctx fun arg => do
      .ok { rt with lexer := ← rt.lexer.defineIgnore engine line arg }
  else if caseInsensitiveEqual ctx.cmdname "BAD" then
    withArgument ctx fun arg => .ok { rt with lexer := rt.lexer.defineBadLexem line arg }
  else if caseInsensitiveEqual ctx.cmdname "COMMENT" then
    match ctx.cmdargs with
    | [arg] => do .ok { rt with lexer := ← rt.lexer.defineEolnComment line arg }
    | [start, stop] => do
      .ok { rt with lexer := ← rt.lexer.defineBracketComment line start stop }
    | _ => throw .CommandNumberOfArgumentsInGrammarDef ctx.cmdname
  else if caseInsensitiveEqual ctx.cmdname "INDENTL" then
    match ctx.cmdargs with
    | [opening, closing, newline, tabsize] => do
      let indent ← convertStringToInt tabsize
      .ok { rt with
        lexer := ← rt.lexer.defineIndentLexems line opening closing newline indent }
    | _ => throw .CommandNumberOfArgumentsInGrammarDef ctx.cmdname
  else throw .CommandNameUnknownInGrammarDef ctx.cmdname

def onSemicolon (engine : PatternEngine) (line : Int) (ctx : ParserContext) :
    Except Failure ParserContext := do
  let rt ←
    match ctx.state with
    | .ParseLexerCommandArg => lexerCommand engine line ctx
    | .ParsePatternSelect => do
      .ok { ctx.rt with
        lexer := ← ctx.rt.lexer.defineLexem engine line ctx.rulename ctx.patternstr 0 }
    | .ParseEndOfLexemDef => do
      .ok { ctx.rt with
        lexer := ← ctx.rt.lexer.defineLexem engine line ctx.rulename ctx.patternstr
          ctx.selectidx.toNat }
    | .ParseProductionElement | .ParseEndOfProduction | .ParseCall => .ok ctx.rt
    | _ => throw .UnexpectedEndOfRuleInGrammarDef ctx.state.stateName
  .ok { ctx with rt := rt, state := .Init }

def onOr (value : String) (line : Int) (ctx : ParserContext) : Except Failure ParserContext :=
  match ctx.state with
  | .ParseProductionElement | .ParseEndOfProduction | .ParseCall =>
    .ok { pushProduction line ctx with
      call_argtype := .NoArg
      call_function := ""
      call_arg := ""
      state := .ParseProductionElement }
  | _ => throw .UnexpectedTokenInGrammarDef value

/-- One step of the state machine. -/
def parseLexem (engine : PatternEngine) (ctx : ParserContext) (lexem : GrammarLexem) :
    Except Failure ParserContext :=
  match lexem.type with
  | .ERROR => throw .BadCharacterInGrammarDef lexem.value
  | .NONE => throw .LogicError ctx.state.stateName
  | .IDENT => onIdent lexem.value ctx
  | .CALL => onCall lexem.value ctx
  | .OPENBRK => onOpenBracket lexem.value ctx
  | .CLOSEBRK => onCloseBracket lexem.value ctx
  | .STEP => onScope .Step lexem.value ctx
  | .SCOPE => onScope .Scope lexem.value ctx
  | .PRIORITY => onPriority lexem.value ctx
  | .NUMBER => onNumber lexem.value ctx
  | .OPENCURLYBRK => onOpenCurly lexem.value ctx
  | .CLOSECURLYBRK => onCloseCurly lexem.value ctx
  | .COMMA => onComma lexem.value ctx
  | .DQSTRING => onString engine "\"" lexem.value lexem.tail ctx
  | .SQSTRING => onString engine "'" lexem.value lexem.tail ctx
  | .EPSILON => onEpsilon lexem.value ctx
  | .PERCENT => onPercent lexem.value ctx
  | .SLASH => onSlash lexem.value ctx
  | .EQUAL => onEqual lexem.value lexem.line ctx
  | .ARROW => onArrow lexem.value lexem.line ctx
  | .DDOT => onDdot lexem.value ctx
  | .SEMICOLON => onSemicolon engine lexem.line ctx
  | .OR => onOr lexem.value lexem.line ctx

/-- An error without a line gets the one of the last lexem read. -/
def atLine {α : Type} (line : Int) : Except Failure α → Except Failure α
  | .error (.thrown e) => .error (.thrown { e with line := if e.line = 0 then line else e.line })
  | result => result

def parseLexems (engine : PatternEngine) (lexems : List GrammarLexem) :
    Except Failure ParserContext :=
  lexems.foldlM (fun ctx lexem => atLine lexem.line (parseLexem engine ctx lexem)) {}

/-- The element of a right side with its kind and number, and its name if it is a nonterminal. -/
def labelElement (lexer : Lexer) (nonTerminalIdMap : SortedMap String Nat)
    (element : ProductionNodeDef) : Except Failure (ProductionNodeDef × Option String) :=
  let lxid := lexer.lexemId element.name
  match nonTerminalIdMap.find element.name with
  | none =>
    if lxid = 0 then throw .UnresolvedIdentifierInGrammarDef element.name
    else .ok (element.defineAsTerminal lxid, none)
  | some nt =>
    if lxid ≠ 0 then throw .DefinedAsTerminalAndNonterminalInGrammarDef element.name
    else .ok (element.defineAsNonTerminal nt, some element.name)

def labelProduction (lexer : Lexer) (nonTerminalIdMap : SortedMap String Nat)
    (prod : ProductionDef) : Except Failure (ProductionDef × List String) :=
  if lexer.lexemId prod.left.name ≠ 0 then
    throw .DefinedAsTerminalAndNonterminalInGrammarDef prod.left.name
  else
    match nonTerminalIdMap.find prod.left.name with
    | none => .error .outOfRange
    | some nt => do
      let labeled ← prod.right.mapM (labelElement lexer nonTerminalIdMap)
      .ok ({ prod with left := prod.left.defineAsNonTerminal nt, right := labeled.map Prod.fst },
        labeled.filterMap Prod.snd)

/-- The names of the rules that are not used, or an error if the start symbol is. -/
def collectUnreachable (nonTerminalIdMap : SortedMap String Nat) (usedSet : FlatSet String)
    (unreachable : List String) (pr : String × Nat) : Except Failure (List String) :=
  match nonTerminalIdMap.find pr.1 with
  | none => .error .outOfRange
  | some nt =>
    if pr.1 ∉ usedSet then .ok (if nt ≠ 1 then unreachable ++ [pr.1] else unreachable)
    else if nt = 1 then throw .StartSymbolReferencedInGrammarDef pr.1
    else .ok unreachable

def checkDuplicate (prodset : FlatSet String) (prod : ProductionDef) :
    Except Failure (FlatSet String) :=
  if prod.prodstring ∈ prodset then throw .DuplicateProductionInGrammarDef prod.prodstring
  else .ok (prodset.insert prod.prodstring)

/-- The part after the state machine: labels, and the checks of the whole grammar. -/
def checkLanguageDef (ctx : ParserContext) : Except Failure LanguageDef := do
  if ctx.state ≠ .Init then throw .UnexpectedEofInGrammarDef
  let labeled ← ctx.rt.prodlist.mapM (labelProduction ctx.rt.lexer ctx.nonTerminalIdMap)
  let rt := { ctx.rt with prodlist := labeled.map Prod.fst }
  let usedSet : FlatSet String := SortedSet.ofList (labeled.flatMap Prod.snd)
  let unreachable ← ctx.prodmap.foldlM (collectUnreachable ctx.nonTerminalIdMap usedSet) []
  if unreachable ≠ [] then
    throw .UnreachableNonTerminalInGrammarDef (", ".intercalate unreachable)
  let startSymbolLeftCount : Nat := rt.prodlist.countP fun prod => prod.left.index = 1
  if startSymbolLeftCount = 0 then throw .EmptyGrammarDef
  if startSymbolLeftCount > 1 then
    throw .StartSymbolDefinedTwiceInGrammarDef ((rt.prodlist.head?.map (·.left.name)).getD "")
  if ctx.nonTerminalIdMap.entries.length ≥ Limits.MaxNonterminal then
    throw .ComplexityMaxNonterminalInGrammarDef
  let _ ← rt.prodlist.foldlM checkDuplicate SortedSet.empty
  .ok rt

end Grammar

def parseLanguageDef (engine : PatternEngine) (source : GrammarSource) :
    Except Failure LanguageDef := do
  let ctx ← Grammar.parseLexems engine source.lexems
  Grammar.atLine source.lastline (Grammar.checkLanguageDef ctx)

end Mewa
