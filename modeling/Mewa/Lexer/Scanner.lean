/- Module: Mewa/Lexer/Scanner
   digest: The scanner of a source and the lexer that reads one lexem after the other from it. -/

import Mathlib.Data.List.TakeWhile
import Mewa.Lexer.Definitions

set_option autoImplicit false
set_option relaxedAutoImplicit false

namespace Mewa

open Mewa.Lib

/-- A match at the begin of a text, with the positions and lengths of its subexpressions. -/
structure PiecesMatch where
  length : Nat
  pieces : List (Nat × Nat)

/-- The search for a regular expression, bound to the begin of a text and for a match that is not
    empty. -/
structure PatternSearch where
  search : String → List Char → Option PiecesMatch
  not_null : ∀ {pattern text found}, search pattern text = some found → 0 < found.length
  continuous : ∀ {pattern text found}, search pattern text = some found →
    found.length ≤ text.length

/-- The value and the length of the match of a definition, without length if there is none. -/
def LexemDef.matchAt (engine : PatternSearch) (d : LexemDef) (src : List Char) :
    List Char × Nat :=
  match engine.search d.source src with
  | none => ([], 0)
  | some found =>
    match ((0, found.length) :: found.pieces)[d.select]? with
    | none => ([], 0)
    | some (position, length) => ((src.drop position).take length, found.length)

/-- A text up to the null character that ends it. -/
def cstr (text : List Char) : List Char := text.takeWhile (· ≠ '\x00')

theorem cstr_plain {text : List Char} (plain : '\x00' ∉ text) : cstr text = text := by
  refine List.takeWhile_eq_self_iff.mpr fun ch mem => ?_
  simpa using fun same : ch = '\x00' => plain (same ▸ mem)

theorem null_not_mem_cstr (text : List Char) : '\x00' ∉ cstr text := by
  intro mem
  have stands := List.mem_takeWhile_imp mem
  simp at stands

/-- The first position of a text in another. -/
def strstr (str : List Char) : List Char → Option Nat
  | [] => if str.isEmpty then some 0 else none
  | ch :: text =>
    if str.isPrefixOf (ch :: text) then some 0 else (strstr str text).map (· + 1)

def isBlank (ch : Char) : Bool := ch ≠ '\x00' && ch.toNat ≤ 32

/-- A position in a source. The text that was passed is the nearest character first. -/
structure Scanner where
  passed : List Char := []
  rest : List Char
  line : Int := 1
  indentstk : List Int := []
  indentConsumed : Bool := false
  deriving DecidableEq, Repr

inductive IndentToken
  | IndentNone
  | IndentNewLine
  | IndentOpen
  | IndentClose
  deriving DecidableEq, Repr

namespace Scanner

def ofSource (src : List Char) : Scanner := { rest := src }

/-- The scanner after some characters, with the lines counted. -/
def advance : Nat → Scanner → Scanner
  | 0, s => s
  | n + 1, s =>
    match s.rest with
    | [] => s
    | ch :: rest => advance n { s with
        passed := ch :: s.passed
        rest := rest
        line := if ch = '\n' then s.line + 1 else s.line }

def skipBlanks (s : Scanner) : Scanner := s.advance (s.rest.takeWhile isBlank).length

def next (incr : Nat) (s : Scanner) : Except Failure Scanner :=
  if s.rest.length < incr then .error (.thrown ⟨.ArrayBoundReadInLexer, "", 0⟩)
  else .ok (s.advance incr).skipBlanks

/-- The scanner after the next occurrence of a text, if there is one. -/
def scan (str : List Char) (s : Scanner) : Except Failure (Option Scanner) :=
  match strstr (cstr str) (cstr s.rest) with
  | none => .ok none
  | some position => do .ok (some (← s.next (position + (cstr str).length)))

/-- The scanner after a text that stands here. -/
def matchText (str : List Char) (s : Scanner) : Option Scanner :=
  if (cstr str).isPrefixOf (cstr s.rest) then some (s.advance (cstr str).length) else none

/-- The indentation of the line if there are only blanks before in it, else -1. The sum is an
    integer of 32 bits that wraps around. -/
def countIndent (tabSize : Int) : List Char → Int → Int
  | [], count => count
  | ch :: passed, count =>
    if ch = '\n' then count
    else if ch.toNat ≤ 32 then
      countIndent tabSize passed ((count + if ch = '\t' then tabSize else 1).bmod (2 ^ 32))
    else -1

def indentCount (tabSize : Int) (s : Scanner) : Int := countIndent tabSize s.passed 0

def getIndentToken (tabSize : Int) (s : Scanner) : IndentToken × Scanner :=
  if s.indentConsumed then (.IndentNone, { s with indentConsumed := false })
  else
    let count := s.indentCount tabSize
    if count = -1 then (.IndentNone, s)
    else
      match s.indentstk with
      | [] =>
        if count = 0 then (.IndentNewLine, { s with indentConsumed := true })
        else (.IndentOpen, { s with indentstk := [count] })
      | back :: stk =>
        if back < count then (.IndentOpen, { s with indentstk := count :: back :: stk })
        else if back > count then (.IndentClose, { s with indentstk := stk })
        else (.IndentNewLine, { s with indentConsumed := true })

def getEofIndentToken (s : Scanner) : IndentToken × Scanner :=
  match s.indentstk with
  | [] => (.IndentNone, s)
  | _ :: stk => (.IndentClose, { s with indentstk := stk })

end Scanner

def IndentLexems.defined (indent : IndentLexems) : Bool := indent.opening ≠ 0

structure BestMatch where
  maxlen : Nat := 0
  found : Option (LexemDef × List Char) := none

/-- The end of a turn of the loop: at its begin again or with a lexem. -/
inductive Turn
  | again (scanner : Scanner)
  | returned (lexem : Lexem) (scanner : Scanner)
  deriving DecidableEq

namespace Lexer

variable (engine : PatternSearch) (lexer : Lexer)

def matchEolnComment (scanner : Scanner) : Option Scanner :=
  lexer.eolnComments.findSome? fun comment => scanner.matchText comment.opening.toList

def matchBracketCommentStart (scanner : Scanner) : Option (BracketCommentDef × Scanner) :=
  lexer.bracketComments.findSome? fun comment =>
    (scanner.matchText comment.opening.toList).map (comment, ·)

/-- The numbers of the definitions that may match after a first character. -/
def equalRange (start : Nat) : List Int :=
  (lexer.firstmap.filter fun entry => entry.1 == start).map Prod.snd

def definitionAt (idx : Int) : Option LexemDef := if idx < 0 then none else lexer.defar[idx.toNat]?

def better (src : List Char) (best : BestMatch) (d : LexemDef) : BestMatch :=
  let (value, length) := d.matchAt engine src
  if best.maxlen ≤ length ∧ (best.maxlen < length ∨ d.keyword) then ⟨length, some (d, value)⟩
  else best

/-- The candidates for a first character in their order, up to the first comment. -/
def tryCandidates (scanner : Scanner) : List Int → BestMatch → Except Failure (BestMatch ⊕ Turn)
  | [], best => .ok (.inl best)
  | idx :: range, best =>
    if idx = MATCH_EOLN_COMMENT then
      match lexer.matchEolnComment scanner with
      | none => tryCandidates scanner range best
      | some inside => do
        match ← inside.scan ['\n'] with
        | none => .ok (.inr (.returned (Lexem.atEnd inside.line) inside))
        | some after => .ok (.inr (.again after))
    else if idx = MATCH_BRACKET_COMMENT then
      match lexer.matchBracketCommentStart scanner with
      | none => tryCandidates scanner range best
      | some (comment, inside) => do
        match ← inside.scan comment.closing.toList with
        | none =>
          .ok (.inr (.returned ⟨lexer.errorLexem.value, -1, comment.opening, inside.line⟩ inside))
        | some after => .ok (.inr (.again after))
    else
      match lexer.definitionAt idx with
      | none => .error (.thrown ⟨.ArrayBoundReadInLexer, "", 0⟩)
      | some d => tryCandidates scanner range (better engine scanner.rest best d)

def indentLexem (id : Nat) (line : Int) : Except Failure Lexem :=
  match lexer.namelist[id - 1]? with
  | none => .error .outOfRange
  | some name => .ok ⟨name, id, "", line⟩

/-- What is done at the first character that is not blank. -/
def turnAt (scanner : Scanner) : Except Failure Turn := do
  let start := scanner.rest.headD '\x00'
  if start = '\x00' then
    match lexer.indentLexems.defined, scanner.getEofIndentToken with
    | true, (.IndentClose, closed) =>
      .ok (.returned (← lexer.indentLexem lexer.indentLexems.closing scanner.line) closed)
    | _, _ => .ok (.returned (Lexem.atEnd scanner.line) scanner)
  else
    match ← tryCandidates engine lexer scanner (lexer.equalRange start.toNat) {} with
    | .inr turn => .ok turn
    | .inl ⟨_, none⟩ =>
      let chr := parseChar scanner.rest
      .ok (.returned ⟨lexer.errorLexem.value, -1, String.ofList chr, scanner.line⟩
        (← scanner.next chr.length))
    | .inl ⟨maxlen, some (d, value)⟩ =>
      if d.id = 0 then .ok (.again scanner)
      else
        let (token, indented) :=
          if lexer.indentLexems.defined then
            scanner.getIndentToken lexer.indentLexems.tabSize
          else (.IndentNone, scanner)
        match token with
        | .IndentNone =>
          .ok (.returned ⟨d.name, d.id, String.ofList value, scanner.line⟩
            (← indented.next maxlen))
        | .IndentNewLine =>
          .ok (.returned (← lexer.indentLexem lexer.indentLexems.newLine scanner.line) indented)
        | .IndentOpen =>
          .ok (.returned (← lexer.indentLexem lexer.indentLexems.opening scanner.line) indented)
        | .IndentClose =>
          .ok (.returned (← lexer.indentLexem lexer.indentLexems.closing scanner.line) indented)

def turn (scanner : Scanner) : Except Failure Turn := do turnAt engine lexer (← scanner.next 0)

/-- The next lexem, with a bound on the turns of the loop. -/
def next : Nat → Scanner → Except Failure (Lexem × Scanner)
  | 0, _ => .error .outOfFuel
  | fuel + 1, scanner => do
    match ← turn engine lexer scanner with
    | .again scanner => next fuel scanner
    | .returned lexem scanner => .ok (lexem, scanner)

end Lexer

/-! Patterns that are plain texts, for examples. -/

namespace Plain

def patterns : PatternEngine where
  compiles _ := true

def search (pattern : String) (text : List Char) : Option PiecesMatch :=
  if pattern.toList ≠ [] ∧ pattern.toList.isPrefixOf text then some ⟨pattern.toList.length, []⟩
  else none

def engine : PatternSearch where
  search := search
  not_null := by
    intro pattern text found h
    obtain ⟨⟨some_char, -⟩, here⟩ := Option.ite_none_right_eq_some.mp h
    obtain rfl := Option.some.inj here
    exact List.length_pos_iff.mpr some_char
  continuous := by
    intro pattern text found h
    obtain ⟨⟨-, stands⟩, here⟩ := Option.ite_none_right_eq_some.mp h
    obtain rfl := Option.some.inj here
    exact (List.isPrefixOf_iff_prefix.mp stands).length_le

end Plain

end Mewa
