/- Module: Mewa/Lexer/Definitions
   digest: The definitions of a lexer: tokens, keywords, ignored text, comments, indentation. -/

import Mewa.Lexer.Activation
import Mewa.Lib.Sorted
import Mathlib.Data.String.Basic

set_option autoImplicit false
set_option relaxedAutoImplicit false

namespace Mewa

open Mewa.Lib

/-- What is used of the regular expressions: if a pattern is one. -/
structure PatternEngine where
  compiles : String → Bool

structure LexemDef where
  line : Int
  name : String
  source : String
  activate : List Nat
  select : Nat
  id : Nat
  keyword : Bool
  deriving DecidableEq, Repr

structure BracketCommentDef where
  line : Int
  opening : String
  closing : String
  deriving DecidableEq, Repr

structure EolnCommentDef where
  line : Int
  opening : String
  deriving DecidableEq, Repr

structure ErrorLexemDef where
  line : Int
  value : String
  deriving DecidableEq, Repr

structure IndentLexems where
  line : Int
  opening : Nat
  closing : Nat
  newLine : Nat
  tabSize : Int
  deriving DecidableEq, Repr

/-- The definitions of a lexer. The first characters lead to the numbers of the definitions that
    may match, with negative numbers for the two kinds of comments. -/
structure Lexer where
  errorLexem : ErrorLexemDef := ⟨0, "?"⟩
  defar : List LexemDef := []
  firstmap : List (Nat × Int) := []
  nameidmap : SortedMap String Nat := SortedMap.empty
  namelist : List String := []
  id2keyword : List Bool := []
  bracketComments : List BracketCommentDef := []
  eolnComments : List EolnCommentDef := []
  indentLexems : IndentLexems := ⟨0, 0, 0, 0, 0⟩

namespace Lexer

def MATCH_EOLN_COMMENT : Int := -1

def MATCH_BRACKET_COMMENT : Int := -2

/-- The name of a keyword with quotes that do not occur in it. -/
def nameString (name : String) : String :=
  if name.contains '\'' && name.contains '"' then name
  else if name.contains '\'' then "\"" ++ name ++ "\""
  else if name.contains '"' then "'" ++ name ++ "'"
  else if name.length = 1 then "'" ++ name ++ "'"
  else "\"" ++ name ++ "\""

/-- The text up to its end with the special characters escaped. -/
def stringToRegex (text : String) : String :=
  String.ofList ((text.toList.takeWhile (· ≠ '\x00')).flatMap fun ch =>
    if ch ∈ escapeChars then ['\\', ch] else [ch])

/-- Entries of the keyword flags up to an identifier. -/
def padKeywords (id2keyword : List Bool) (id : Nat) : List Bool :=
  id2keyword ++ List.replicate (id + 1 - id2keyword.length) false

/-- The definition of a pattern, with the first bytes of its matches. -/
def pushDefinition (engine : PatternEngine) (line : Int) (name pattern : String) (id : Nat)
    (keyword : Bool) (select : Nat) (lexer : Lexer) : Except Failure Lexer := do
  if engine.compiles pattern then
    let activate ← LexemDef.firstBytes pattern
    let index : Int := lexer.defar.length
    let lexer := { lexer with
      defar := lexer.defar ++ [⟨line, name, pattern, activate, select, id, keyword⟩] }
    if pattern.isEmpty then .ok lexer
    else
      let firstChars := (List.range 256).filter fun ch => decide (ch ∈ activate)
      if firstChars.isEmpty then .error (.thrown ⟨.SyntaxErrorInLexer, "", 0⟩)
      else .ok { lexer with firstmap := lexer.firstmap ++ firstChars.map fun ch => (ch, index) }
  else .error (.thrown ⟨.InvalidRegexInLexer, pattern, 0⟩)

/-- The common part of the definitions of tokens, keywords and ignored text. -/
def defineLexem_ (engine : PatternEngine) (line : Int) (name pattern : String) (keyword : Bool)
    (select : Nat) (lexer : Lexer) : Except Failure (Lexer × Nat) :=
  if name.isEmpty then do
    let lexer ← lexer.pushDefinition engine line "" pattern 0 false select
    .ok (lexer, 0)
  else
    let id := lexer.nameidmap.entries.length + 1
    let id2keyword := padKeywords lexer.id2keyword id
    match lexer.nameidmap.insertNew name id with
    | (nameidmap, none) => do
      let lexer := { lexer with
        nameidmap := nameidmap
        namelist := lexer.namelist ++ [if keyword then nameString name else name]
        id2keyword := if keyword then id2keyword.set id true else id2keyword }
      let lexer ← lexer.pushDefinition engine line name pattern id keyword select
      .ok (lexer, id)
    | (_, some known) =>
      if keyword then .error (.thrown ⟨.KeywordDefinedTwiceInLexer, name, 0⟩)
      else do
        let lexer := { lexer with id2keyword := id2keyword }
        let lexer ← lexer.pushDefinition engine line name pattern known keyword select
        .ok (lexer, known)

def defineLexem (engine : PatternEngine) (line : Int) (name pattern : String) (select : Nat)
    (lexer : Lexer) : Except Failure Lexer := do
  .ok (← lexer.defineLexem_ engine line name pattern false select).1

/-- The definition of a keyword. The pattern is made from what stands in memory from the begin of
    its name on, thus with the text `tail` that follows the name there. -/
def defineKeyword (engine : PatternEngine) (opr tail : String) (lexer : Lexer) :
    Except Failure Lexer := do
  .ok (← lexer.defineLexem_ engine 0 opr (stringToRegex (opr ++ tail)) true 0).1

def defineIgnore (engine : PatternEngine) (line : Int) (pattern : String) (lexer : Lexer) :
    Except Failure Lexer := do
  .ok (← lexer.defineLexem_ engine line "" pattern false 0).1

def defineLexemId (name : String) (lexer : Lexer) : Except Failure (Lexer × Nat) :=
  let id := lexer.nameidmap.entries.length + 1
  match lexer.nameidmap.insertNew name id with
  | (nameidmap, none) =>
    .ok ({ lexer with
      nameidmap := nameidmap
      namelist := lexer.namelist ++ [nameString name]
      id2keyword := padKeywords lexer.id2keyword id
      defar := lexer.defar ++ [⟨0, name, "", [], 0, id, false⟩] }, id)
  | (_, some _) => .error (.runtimeError ⟨.KeywordDefinedTwiceInLexer, "", 0⟩)

def defineIndentLexems (line : Int) (opening closing newline : String) (tabsize : Int)
    (lexer : Lexer) : Except Failure Lexer :=
  if lexer.indentLexems.opening ≠ 0 then
    .error (.thrown ⟨.ConflictingCommandInGrammarDef, "", 0⟩)
  else do
    let (lexer, openid) ← lexer.defineLexemId opening
    let (lexer, closeid) ← lexer.defineLexemId closing
    let (lexer, newlineid) ← lexer.defineLexemId newline
    .ok { lexer with indentLexems := ⟨line, openid, closeid, newlineid, tabsize⟩ }

def defineBadLexem (line : Int) (name : String) (lexer : Lexer) : Lexer :=
  { lexer with errorLexem := ⟨line, name⟩ }

def firstByte (text : String) : Nat := (text.toList.head?.map Char.toNat).getD 0

def defineEolnComment (line : Int) (opr : String) (lexer : Lexer) : Except Failure Lexer :=
  if opr.isEmpty then .error (.thrown ⟨.SyntaxErrorInLexer, "", 0⟩)
  else .ok { lexer with
    eolnComments := lexer.eolnComments ++ [⟨line, opr⟩]
    firstmap := lexer.firstmap ++ [(firstByte opr, MATCH_EOLN_COMMENT)] }

def defineBracketComment (line : Int) (start stop : String) (lexer : Lexer) :
    Except Failure Lexer :=
  if start.isEmpty || stop.isEmpty then .error (.thrown ⟨.SyntaxErrorInLexer, "", 0⟩)
  else .ok { lexer with
    bracketComments := lexer.bracketComments ++ [⟨line, start, stop⟩]
    firstmap := lexer.firstmap ++ [(firstByte start, MATCH_BRACKET_COMMENT)] }

/-- The identifier of a terminal or 0. -/
def lexemId (lexer : Lexer) (name : String) : Nat := (lexer.nameidmap.find name).getD 0

def lexemName (lexer : Lexer) (id : Int) : Except Failure String :=
  if id < 1 ∨ id > lexer.namelist.length then .error (.thrown ⟨.ArrayBoundReadInLexer, "", 0⟩)
  else
    match lexer.namelist[(id - 1).toNat]? with
    | none => .error .outOfRange
    | some name => .ok name

def isKeyword (lexer : Lexer) (id : Int) : Except Failure Bool :=
  if id < 0 then .error .outOfRange
  else
    match lexer.id2keyword[id.toNat]? with
    | none => .error .outOfRange
    | some keyword => .ok keyword

def nofTerminals (lexer : Lexer) : Nat := lexer.namelist.length

end Lexer

/-- A lexem of a source. The one without name and value is the end of the source. -/
structure Lexem where
  name : String
  id : Int
  value : String
  line : Int
  deriving DecidableEq, Repr

namespace Lexem

def atEnd (line : Int) : Lexem := ⟨"", 0, "", line⟩

def empty (lexem : Lexem) : Bool := lexem.value.isEmpty && lexem.name.isEmpty

end Lexem

end Mewa
