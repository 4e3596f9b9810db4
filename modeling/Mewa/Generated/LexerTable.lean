/- Module: Mewa/Generated/LexerTable
   digest: The table of a lexer in a generated module: how it is printed and how it is loaded. -/

import Mewa.Generated.Literal
import Mathlib.Data.List.Perm.Basic

set_option autoImplicit false
set_option relaxedAutoImplicit false

namespace Mewa

open Mewa.Lib

/-! The definitions of a lexer as a list. -/

namespace Lexer

inductive DefinitionType
  | BadLexem
  | NamedPatternLexem
  | KeywordLexem
  | IgnoreLexem
  | EolnComment
  | BracketComment
  | IndentLexems
  deriving DecidableEq, Repr

def DefinitionType.typeName : DefinitionType → String
  | BadLexem => "bad"
  | NamedPatternLexem => "token"
  | KeywordLexem => "keyword"
  | IgnoreLexem => "ignore"
  | EolnComment => "comment"
  | BracketComment => "comment"
  | IndentLexems => "indentl"

/-- The selected part of a match of a definition is the size of a tabulator if it is the one of the
    indentation. -/
structure Definition where
  line : Int
  type : DefinitionType
  arg : List String
  select : Int
  id : Int
  deriving DecidableEq, Repr

namespace Definition

def name (d : Definition) : String := d.arg.headD ""

def bad (d : Definition) : String := d.arg.headD ""

def pattern (d : Definition) : String := d.arg.tail.headD ""

def ignore (d : Definition) : String := d.arg.headD ""

def start (d : Definition) : String := d.arg.headD ""

def stop (d : Definition) : String := d.arg.tail.headD ""

def tabsize (d : Definition) : Int := d.select

def openind (d : Definition) : Int := d.id + 0

end Definition

end Lexer

namespace LexemDef

def definition (d : LexemDef) : Lexer.Definition :=
  if d.name.isEmpty then ⟨d.line, .IgnoreLexem, [d.source], 0, d.id⟩
  else if d.keyword then ⟨d.line, .KeywordLexem, [d.name], 0, d.id⟩
  else ⟨d.line, .NamedPatternLexem, [d.name, d.source], d.select, d.id⟩

end LexemDef

namespace Lexer

def getDefinitions (lexer : Lexer) : List Definition :=
  (if lexer.errorLexem.value ≠ "?" then
    [⟨lexer.errorLexem.line, .BadLexem, [lexer.errorLexem.value], 0, 0⟩] else []) ++
  lexer.defar.map LexemDef.definition ++
  lexer.bracketComments.map (fun bc =>
    ⟨bc.line, .BracketComment, [bc.opening, bc.closing], 0, MATCH_BRACKET_COMMENT⟩) ++
  lexer.eolnComments.map (fun cc => ⟨cc.line, .EolnComment, [cc.opening], 0, MATCH_EOLN_COMMENT⟩) ++
  if lexer.indentLexems.defined then
    [⟨lexer.indentLexems.line, .IndentLexems, [], lexer.indentLexems.tabSize,
      lexer.indentLexems.opening⟩] else []

end Lexer

/-! The table in the syntax of Lua. In what is printed the strings are literals. -/

inductive LuaField
  | string (text : String)
  | integer (value : Int)
  deriving DecidableEq, Repr

/-- A table inside of a table has its fields at the positions 1, 2, and so on. -/
inductive LuaElement
  | field (f : LuaField)
  | table (fields : List LuaField)
  deriving DecidableEq, Repr

/-- The elements of a row are at the positions 1, 2, and so on. -/
structure LuaRow where
  key : String
  elements : List LuaElement
  deriving DecidableEq, Repr

def LuaField.read : LuaField → Option LuaField
  | string literal => (readLiteral literal).map string
  | integer value => some (integer value)

def LuaElement.read : LuaElement → Option LuaElement
  | field f => f.read.map field
  | table fields => (fields.mapM LuaField.read).map table

def LuaRow.read (row : LuaRow) : Option LuaRow :=
  (row.elements.mapM LuaElement.read).map (⟨row.key, ·⟩)

/-- A field as a string, where it is one or a number. -/
def LuaElement.tolstring : LuaElement → Option String
  | field (.string text) => some text
  | field (.integer value) => some (toString value)
  | table _ => none

namespace Lexer

def Definition.print (d : Definition) : Except Failure (List LuaElement) :=
  match d.type with
  | .BadLexem => do .ok [.field (.string (← printString d.bad))]
  | .NamedPatternLexem => do
    let select := if d.select ≠ 0 then [LuaField.integer d.select] else []
    .ok [.table ([.string (← printString d.name), .string (← printString d.pattern)] ++ select)]
  | .KeywordLexem => do .ok [.field (.string (← printString d.name))]
  | .IgnoreLexem => do .ok [.field (.string (← printString d.ignore))]
  | .EolnComment => do .ok [.field (.string (← printString d.start))]
  | .BracketComment => do
    .ok [.table [.string (← printString d.start), .string (← printString d.stop)]]
  | .IndentLexems => .ok [.field (.integer d.openind), .field (.integer d.tabsize)]

def definitionClasses : List String := ["bad", "comment", "ignore", "indentl", "keyword", "token"]

def classOf (definitions : List Definition) (defclass : String) : List Definition :=
  definitions.filter fun d => d.type.typeName = defclass

def printRow (definitions : List Definition) (defclass : String) : Except Failure LuaRow := do
  .ok ⟨defclass, (← (classOf definitions defclass).mapM Definition.print).flatten⟩

/-- The rows printed for a lexer, one for each class that is not empty. -/
def printLexer (lexer : Lexer) : Except Failure (List LuaRow) :=
  (definitionClasses.filter fun defclass =>
    !(classOf lexer.getDefinitions defclass).isEmpty).mapM (printRow lexer.getDefinitions)

end Lexer

/-! The loading of the table. -/

namespace Lexer

def badValue {α : Type} (location : String) : Except Failure α :=
  .error (.thrown ⟨.BadValueInGeneratedLuaTable, location, 0⟩)

/-- The place of an error. -/
def atRow (tableName : String) (rowcnt : Nat) : String :=
  "table '" ++ tableName ++ "', row " ++ toString rowcnt

def atColumn (tableName : String) (rowcnt colcnt : Nat) : String :=
  atRow tableName rowcnt ++ " col " ++ toString colcnt

def parseStringArray (tableName : String) (elements : List LuaElement) :
    Except Failure (List String) :=
  (elements.zipIdx 1).mapM fun element =>
    match element.1.tolstring with
    | none => badValue (atRow tableName element.2)
    | some value => .ok value

def parseIntegerArray (tableName : String) (elements : List LuaElement) :
    Except Failure (List Int) :=
  (elements.zipIdx 1).mapM fun element =>
    match element.1 with
    | .field (.integer value) => .ok value
    | _ => badValue (atRow tableName element.2)

def isNumeral (ch : Char) : Bool := '0' ≤ ch ∧ ch ≤ '9'

def string2int (value : String) : Except Failure Int :=
  let text := cstr value.toList
  if (text.dropWhile isNumeral).isEmpty then
    .ok (text.foldl (fun (rt : Int) ch => rt * 10 + (ch.toNat - '0'.toNat : Nat)) 0)
  else badValue value

/-- The local variables of the loader. The keywords are defined after all others. -/
structure LexerDefinitions where
  rt : Lexer := {}
  keywords : List String := []

section Rows

variable (engine : PatternEngine) (tableName : String) (rowcnt : Nat)

/-- The comment of an element of the row `comment`. -/
def parseComment (rt : Lexer) (element : LuaElement × Nat) : Except Failure Lexer :=
  match element.1 with
  | .table fields => do
    match ← parseStringArray tableName (fields.map .field) with
    | [start] => rt.defineEolnComment 0 start
    | [start, stop] => rt.defineBracketComment 0 start stop
    | _ => badValue (atColumn tableName rowcnt element.2)
  -- the string is passed up to its end
  | .field (.string text) => rt.defineEolnComment 0 (printed text)
  | .field (.integer _) => badValue (atColumn tableName rowcnt element.2)

/-- The token of an element of the row `token`. -/
def parseToken (rt : Lexer) (element : LuaElement) : Except Failure Lexer :=
  match element with
  | .field _ => .error .outOfRange
  | .table fields => do
    match ← parseStringArray tableName (fields.map .field) with
    | [_] => .error .outOfRange
    | [name, pattern] => rt.defineLexem engine 0 name pattern 0
    | [name, pattern, select] => do
      rt.defineLexem engine 0 name pattern (← string2int select).toNat
    | _ => badValue (atRow tableName rowcnt)

def parseRow (ctx : LexerDefinitions) (row : LuaRow × Nat) :
    Except Failure LexerDefinitions :=
  let name := tableName ++ "/" ++ row.1.key
  if row.1.key = "comment" then do
    .ok { ctx with rt := ← (row.1.elements.zipIdx 1).foldlM (parseComment name row.2) ctx.rt }
  else if row.1.key = "keyword" then do
    .ok { ctx with keywords := ← parseStringArray name row.1.elements }
  else if row.1.key = "token" then do
    .ok { ctx with rt := ← row.1.elements.foldlM (parseToken engine name row.2) ctx.rt }
  else if row.1.key = "bad" then do
    let badlexems ← parseStringArray name row.1.elements
    .ok { ctx with rt := badlexems.foldl (fun rt bad => rt.defineBadLexem 0 bad) ctx.rt }
  else if row.1.key = "ignore" then do
    let ignores ← parseStringArray name row.1.elements
    .ok { ctx with rt := ← ignores.foldlM (fun rt ignore => rt.defineIgnore engine 0 ignore) ctx.rt }
  else if row.1.key = "indentl" then do
    match ← parseIntegerArray name row.1.elements with
    | [openid, tabsize] =>
      .ok { ctx with rt := { ctx.rt with indentLexems :=
        ⟨0, openid.toNat + 0, openid.toNat + 1, openid.toNat + 2, tabsize⟩ } }
    | _ => badValue ("table '" ++ name ++ "'")
  else .ok ctx

/-- The lexer of the rows in the order in which Lua goes through them. -/
def parseLexerDefinitions (rows : List LuaRow) : Except Failure Lexer := do
  let ctx ← (rows.zipIdx 1).foldlM (parseRow engine tableName) {}
  ctx.keywords.foldlM (fun rt keyword => rt.defineKeyword engine keyword "") ctx.rt

end Rows

end Lexer

end Mewa
