/- Module: Mewa/Grammar/Decorators
   digest: The second scan of a grammar, which collects the decorators written in its comments. -/

import Mewa.Grammar.Parser
import Mewa.Lexer.Scanner
import Mathlib.Data.List.DropRight

set_option autoImplicit false
set_option relaxedAutoImplicit false

namespace Mewa

open Mewa.Lib

structure LanguageDecorator where
  name : String
  content : List String
  deriving DecidableEq, Repr

/-- The decorators, and their positions by line in the order in which they were added. -/
structure LanguageDecoratorMap where
  decorators : List LanguageDecorator := []
  linemap : List (Int × Nat) := []
  deriving DecidableEq, Repr

namespace LanguageDecorator

def reserved : List String :=
  ["op", "name", "pattern", "open", "close", "tabsize", "nl", "select", "priority", "left", "right",
    "scope", "call", "line"]

def isReservedAttribute (id : String) : Bool := reserved.contains id

end LanguageDecorator

namespace LanguageDecoratorMap

def addDecorator (line : Int) (dc : LanguageDecorator) (map : LanguageDecoratorMap) :
    LanguageDecoratorMap where
  decorators := map.decorators ++ [dc]
  linemap := map.linemap ++ [(line, map.decorators.length)]

def get (map : LanguageDecoratorMap) (line : Int) : Except Failure (List LanguageDecorator) :=
  (map.linemap.filter fun entry => entry.1 = line).mapM fun entry =>
    match map.decorators[entry.2]? with
    | none => .error .outOfRange
    | some dc => .ok dc

end LanguageDecoratorMap

namespace Grammar

/-- The definitions of the lexer of grammars, in their order. Characters that are not ASCII are
    sequences of bytes. -/
def grammarLexer (engine : PatternEngine) : Except Failure Lexer := do
  let lexer ← Lexer.defineEolnComment 0 "//" {}
  let lexer ← lexer.defineEolnComment 0 "#"
  let lexer ← lexer.defineBracketComment 0 "/*" "*/"
  let lexer ← lexer.defineLexem engine 0 "IDENT" "[a-zA-Z_][a-zA-Z_0-9]*" 0
  let lexer ← lexer.defineLexem engine 0 "NUMBER" "[0-9]+" 0
  let lexer ← lexer.defineLexem engine 0 "PRIORITY" "[0-9]+[LR]" 0
  let lexer ← lexer.defineLexem engine 0 "DQSTRING"
    "[\"]((([^\\\\\"\\n])|([\\\\][^\"\\n]))*)[\"]" 1
  let lexer ← lexer.defineLexem engine 0 "SQSTRING"
    "[']((([^\\\\'\\n])|([\\\\][^'\\n]))*)[']" 1
  let lexer ← lexer.defineKeyword engine "%" ""
  let lexer ← lexer.defineKeyword engine "/" ""
  let lexer ← lexer.defineKeyword engine "=" ""
  let lexer ← lexer.defineKeyword engine "\u00e2\u0086\u0092" ""
  let lexer ← lexer.defineKeyword engine ":" ""
  let lexer ← lexer.defineKeyword engine ";" ""
  let lexer ← lexer.defineKeyword engine "\u00ce\u00b5" ""
  let lexer ← lexer.defineLexem engine 0 "CALL" "[-]\x7b0,1\x7d[a-zA-Z_][.a-zA-Z_0-9]*" 0
  let lexer ← lexer.defineKeyword engine "\x7b" ""
  let lexer ← lexer.defineKeyword engine "\x7d" ""
  let lexer ← lexer.defineKeyword engine "," ""
  let lexer ← lexer.defineKeyword engine "(" ""
  let lexer ← lexer.defineKeyword engine ")" ""
  let lexer ← lexer.defineKeyword engine "|" ""
  let lexer ← lexer.defineKeyword engine ">>" ""
  lexer.defineKeyword engine "\x7b\x7d" ""

def isSpace (ch : Char) : Bool := ch.toNat ≤ 32 && ch ≠ '\n'

def skipSpaces (str : List Char) : List Char := str.dropWhile isSpace

def skipEoln (str : List Char) : List Char := str.dropWhile (· ≠ '\n')

def trimRight (text : List Char) : List Char := text.rdropWhile fun ch => ch.toNat ≤ 32

/-- The loop over the lines of a comment. It does not step over the end of a line. -/
def splitLinesLoop : Nat → List Char → List (List Char) → Except Failure (List (List Char))
  | 0, _, _ => .error .outOfFuel
  | _ + 1, [], rt => .ok rt
  | fuel + 1, ch :: text, rt =>
    let start := skipSpaces (ch :: text)
    let line := start.takeWhile (· ≠ '\n')
    splitLinesLoop fuel (skipEoln start) (rt ++ [trimRight line])

def splitLines (fuel : Nat) (text : List Char) : Except Failure (List (List Char)) := do
  return (← splitLinesLoop fuel text []).rdropWhile List.isEmpty

/-- The characters of the name of an attribute. -/
def isAttributeChar (ch : Char) : Bool :=
  ('a'.toNat ≤ (ch.toNat ||| 32) && (ch.toNat ||| 32) ≤ 'z'.toNat) || ch.isDigit || ch = '_'

/-- The name of the attribute that a line begins with, if there is one, and what follows it. -/
def splitDecoratorDef (ln : List Char) : List Char × List Char :=
  match skipSpaces ln with
  | '@' :: rest =>
    let start := skipSpaces rest
    (start.takeWhile isAttributeChar, cstr (skipSpaces (start.dropWhile isAttributeChar)))
  | lp => ([], cstr lp)

/-- A line begins a decorator or belongs to the last one. -/
def extractDecorator (res : List LanguageDecorator) (cm : List Char) : List LanguageDecorator :=
  let dd := splitDecoratorDef cm
  if dd.1 = [] then
    match res.getLast? with
    | none => res
    | some last =>
      res.dropLast ++ [{ last with content := last.content ++ [String.ofList dd.2] }]
  else res ++ [⟨String.ofList dd.1, [String.ofList dd.2]⟩]

def extractDecorators (res : List LanguageDecorator) (comment : List (List Char)) :
    List LanguageDecorator := comment.foldl extractDecorator res

/-- The variables of the loop over the source. -/
structure DecoratorScan where
  scanner : Scanner
  symlen : Nat := 0
  decorators : List LanguageDecorator := []
  rt : LanguageDecoratorMap := {}

/-- The length of the begin of a comment that ends with the line. -/
def lineOpening : List Char → Option Nat
  | '#' :: _ => some 1
  | '/' :: '/' :: _ => some 2
  | _ => none

def opensBlock : List Char → Bool
  | '/' :: '*' :: _ => true
  | _ => false

/-- The characters between two positions of the scanner, after some of them. -/
def between (s after : Scanner) (opening : Nat) : List Char :=
  (s.rest.drop opening).take (after.passed.length - s.passed.length - opening)

/-- The decorators found before a token belong to its line. -/
def addDecorators (line : Int) (decorators : List LanguageDecorator) (rt : LanguageDecoratorMap) :
    Except Failure LanguageDecoratorMap :=
  decorators.foldlM (fun rt dc =>
    if LanguageDecorator.isReservedAttribute dc.name then
      throw .UsingReservedAttributeNameInGrammarDef
    else .ok (rt.addDecorator line dc)) rt

/-- What is done with a comment that ends with the line. -/
def scanLine (st : DecoratorScan) (s : Scanner) (opening : Nat) : Except Failure DecoratorScan :=
  s.scan ['\n'] >>= fun
  | some after =>
    let comment := (between s after opening).dropLast
    .ok { st with
      scanner := after
      symlen := 0
      decorators := extractDecorators st.decorators [comment] }
  | none =>
    .ok { st with
      scanner := s
      symlen := 0
      decorators := extractDecorators st.decorators [cstr (s.rest.drop opening)] }

/-- What is done with a comment in brackets. -/
def scanBlock (fuel : Nat) (st : DecoratorScan) (s : Scanner) : Except Failure DecoratorScan :=
  s.scan ['*', '/'] >>= fun
  | some after => do
    let comment ← splitLines fuel (between s after 2)
    return { st with
      scanner := after
      symlen := 1
      decorators := extractDecorators st.decorators comment }
  | none => throw .UnexpectedEofInGrammarDef

def scanToken (engine : PatternSearch) (lexer : Lexer) (fuel : Nat) (st : DecoratorScan)
    (s : Scanner) : Except Failure DecoratorScan := do
  let (_, after) ← lexer.next engine fuel s
  let rt ← addDecorators s.line st.decorators st.rt
  return { st with
    scanner := after
    decorators := []
    rt := rt }

def decoratorLoop (engine : PatternSearch) (lexer : Lexer) :
    Nat → DecoratorScan → Except Failure LanguageDecoratorMap
  | 0, _ => .error .outOfFuel
  | fuel + 1, st => do
    let s ← st.scanner.next st.symlen
    if s.rest.headD '\x00' = '\x00' then return st.rt
    else
      match lineOpening s.rest with
      | some opening => decoratorLoop engine lexer fuel (← scanLine st s opening)
      | none =>
        if opensBlock s.rest then decoratorLoop engine lexer fuel (← scanBlock fuel st s)
        else decoratorLoop engine lexer fuel (← scanToken engine lexer fuel st s)

/-- The decorators of a grammar by line, with a bound on the steps of the loops. -/
def parseLanguageDecoratorMap (engine : PatternSearch) (lexer : Lexer) (fuel : Nat)
    (source : List Char) : Except Failure LanguageDecoratorMap :=
  decoratorLoop engine lexer fuel { scanner := .ofSource source }

end Grammar

end Mewa
