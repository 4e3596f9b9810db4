/- Module: Mewa/Generated/Tostring
   digest: The generated module of an automaton, and when its strings denote themselves. -/

import Mathlib.Data.Int.Bitwise
import Mathlib.Data.List.TakeWhile
import Mewa.Automaton.Table
import Mewa.Generated.Reading

set_option autoImplicit false
set_option relaxedAutoImplicit false

namespace Mewa

open Mewa.Lib

namespace Limits

def ShiftCall : Nat := 10
def ShiftScopeFlag : Nat := 2

end Limits

/-! The packed keys and values of the tables. -/

open Limits in
def ActionKey.packed (key : ActionKey) : Int :=
  Int.lor (key.state * 2 ^ ShiftTerminal) key.terminal

def ActionType.code : ActionType → Int
  | Shift => 0
  | Reduce => 1
  | Accept => 2

def ScopeFlag.code : ScopeFlag → Int
  | NoScope => 0
  | Step => 1
  | Scope => 2

open Limits in
def Action.packed (action : Action) : Int :=
  Int.lor (Int.lor (Int.lor (Int.lor
    (action.type.code * 2 ^ (ShiftProductionLength + ShiftCall + ShiftState + ShiftScopeFlag))
    (action.scopeflag.code * 2 ^ (ShiftProductionLength + ShiftCall + ShiftState)))
    (action.value * 2 ^ (ShiftProductionLength + ShiftCall)))
    (action.call * 2 ^ ShiftProductionLength))
    action.count

open Limits in
def GotoKey.packed (key : GotoKey) : Int :=
  Int.lor (key.state * 2 ^ ShiftTerminal) key.nonterminal

/-! The module in the syntax of Lua. As in the table of the lexer a string is a literal there. -/

/-- The argument of a function in a module, a literal or an expression. -/
inductive LuaObject
  | literal (text : String)
  | expression (text : String)
  deriving DecidableEq, Repr

structure LuaCall where
  name : String
  proc : String
  obj : Option LuaObject
  deriving DecidableEq, Repr

structure LuaModule where
  mewa : String
  language : Option String
  typesystem : Option String
  cmdline : Option String
  lexer : List LuaRow
  nonterminal : List String
  action : List (Int × Int)
  gto : List (Int × Int)
  call : List LuaCall
  deriving DecidableEq, Repr

def MEWA_VERSION_STRING : String := "0.10.13"

def typeSystemModulePrefix : String := "typesystem."

def quoted (quote : Char) (str : String) : String :=
  String.ofList (quote :: (str.toList ++ [quote]))

def isConstantArgument (val : String) : Bool :=
  match val.toList with
  | [] => false
  | ch :: _ => '0' ≤ ch && ch ≤ '9' || ch = '\x7b' || ch = '-'

def Call.print (call : Call) : Except Failure LuaCall :=
  let proc := typeSystemModulePrefix ++ call.function
  match call.argtype with
  | .NoArg => do .ok ⟨← printString call.function, proc, none⟩
  | .StringArg => do
    .ok ⟨← printString (call.function ++ " " ++ call.arg), proc,
      some (.literal (quoted '"' call.arg))⟩
  | .ReferenceArg => do
    let obj := if isConstantArgument call.arg then call.arg else typeSystemModulePrefix ++ call.arg
    .ok ⟨← printString (call.function ++ " " ++ call.arg), proc, some (.expression obj)⟩

/-- A string of the head of the module, left out if it is empty. -/
def printHeader (str : String) : Option String :=
  if str.isEmpty then none else some (quoted '"' str)

def Automaton.tostring (automaton : Automaton) : Except Failure LuaModule := do
  let lexer ← Lexer.printLexer automaton.lexer
  let call ← automaton.calls.mapM Call.print
  .ok {
    mewa := quoted '"' MEWA_VERSION_STRING
    language := printHeader automaton.language
    typesystem := printHeader automaton.typesystem
    cmdline := printHeader automaton.cmdline
    lexer := lexer
    nonterminal := automaton.nonterminals.map (quoted '"')
    action := automaton.actions.entries.map fun e => (e.1.packed, e.2.packed)
    gto := automaton.gotos.entries.map fun e => (e.1.packed, e.2)
    call := call }

/-! The literals of the module. -/

def quotedParts : Option (Char × List Char) → List Char → List (Char × List Char)
  | _, [] => []
  | none, ch :: text =>
    if ch = '\'' ∨ ch = '"' then quotedParts (some (ch, [])) text else quotedParts none text
  | some (quote, part), ch :: text =>
    if ch = quote then (quote, part) :: quotedParts none text
    else quotedParts (some (quote, part ++ [ch])) text

def LuaField.literals : LuaField → List String
  | string literal => [literal]
  | integer _ => []

def LuaElement.literals : LuaElement → List String
  | field f => f.literals
  | table fields => fields.flatMap LuaField.literals

def LuaRow.literals (row : LuaRow) : List String := row.elements.flatMap LuaElement.literals

/-- The strings of a structure are written between the quotes they have in the grammar. -/
def LuaObject.literals : LuaObject → List String
  | literal text => [text]
  | expression text =>
    (quotedParts none text.toList).map fun part => quoted part.1 (String.ofList part.2)

def LuaCall.literals (call : LuaCall) : List String :=
  call.name :: (call.obj.toList.flatMap LuaObject.literals)

/-- All literals of a module, its version left out. -/
def LuaModule.literals (module : LuaModule) : List String :=
  module.language.toList ++ module.typesystem.toList ++ module.cmdline.toList ++
    module.lexer.flatMap LuaRow.literals ++ module.nonterminal ++
    module.call.flatMap LuaCall.literals

/-! The strings of an automaton. -/

/-- A string as it is written, with its backslashes doubled or as it is. -/
inductive WrittenString
  | escaped (str : String)
  | plain (quote : Char) (str : String)
  deriving DecidableEq, Repr

namespace WrittenString

def text : WrittenString → String
  | escaped str => str
  | plain _ str => str

def write : WrittenString → Except Failure String
  | escaped str => printString str
  | plain quote str => .ok (quoted quote str)

/-- What may stand in a string so that the literal denotes it. -/
def Denotable : WrittenString → Prop
  | escaped str => Readable str ∧ '\x00' ∉ str.toList
  | plain quote str => ∀ ch ∈ str.toList, LuaString.Plain quote ch

end WrittenString

def headerStrings (str : String) : List WrittenString :=
  if str.isEmpty then [] else [.plain '"' str]

def Lexer.strings (lexer : Lexer) : List WrittenString :=
  (usedClasses lexer.getDefinitions).flatMap fun defclass =>
    (classOf lexer.getDefinitions defclass).flatMap fun d => d.texts.map .escaped

/-- The name of a call in a module, its string argument and the strings of its structure. -/
def Call.strings (call : Call) : List WrittenString :=
  match call.argtype with
  | .NoArg => [.escaped call.function]
  | .StringArg => [.escaped (call.function ++ " " ++ call.arg), .plain '"' call.arg]
  | .ReferenceArg => .escaped (call.function ++ " " ++ call.arg) ::
    (quotedParts none call.arg.toList).map fun part => .plain part.1 (String.ofList part.2)

namespace Automaton

/-- All strings written in the module of an automaton, in their order. -/
def strings (automaton : Automaton) : List WrittenString :=
  headerStrings automaton.language ++ headerStrings automaton.typesystem ++
    headerStrings automaton.cmdline ++ automaton.lexer.strings ++
    automaton.nonterminals.map (.plain '"') ++ automaton.calls.flatMap Call.strings

/-- The module is made and its literals denote the strings, or a string is reported. -/
def StringsDenoted (automaton : Automaton) : Prop :=
  (∃ module, automaton.tostring = .ok module ∧
    module.literals.map readLiteral = automaton.strings.map fun w => some w.text) ∨
  ∃ str, automaton.tostring = .error (.thrown ⟨.EscapeQuoteErrorInString, str, 0⟩)

end Automaton

theorem printed_eq_iff {str : String} : printed str = str ↔ '\x00' ∉ str.toList := by
  have whole : printed str = str ↔ cstr str.toList = str.toList := by
    rw [printed, ← String.toList_inj, String.toList_ofList]
  rw [whole, cstr, List.takeWhile_eq_self_iff]
  simp only [ne_eq, decide_eq_true_eq]
  exact ⟨fun all mem => all _ mem rfl, fun none ch mem null => none (null ▸ mem)⟩

theorem readLiteral_quoted_iff {quote : Char} (some_quote : quote = '\'' ∨ quote = '"')
    (str : String) :
    readLiteral (quoted quote str) = some str ↔ ∀ ch ∈ str.toList, LuaString.Plain quote ch := by
  rw [← LuaString.value_quoted_iff some_quote, readLiteral, quoted, String.toList_ofList,
    Option.map_eq_some_iff]
  constructor
  · rintro ⟨text, value, rfl⟩
    rwa [String.toList_ofList] at value ⊢
  · intro value
    exact ⟨_, value, String.ofList_toList⟩

theorem quotedParts_quote {text : List Char} {start : Option (Char × List Char)}
    (opened : ∀ part ∈ start, part.1 = '\'' ∨ part.1 = '"') :
    ∀ part ∈ quotedParts start text, part.1 = '\'' ∨ part.1 = '"' := by
  induction text generalizing start with
  | nil => simp [quotedParts]
  | cons ch text ih =>
    cases start with
    | none =>
      rw [quotedParts]
      split
      · rename_i quote
        exact ih fun part here => Option.some.inj here ▸ quote
      · exact ih (by simp)
    | some start =>
      obtain ⟨quote, front⟩ := start
      have some_quote := opened _ rfl
      rw [quotedParts]
      split
      · exact List.forall_mem_cons.mpr ⟨some_quote, ih (by simp)⟩
      · exact ih fun part here => Option.some.inj here ▸ some_quote

def WrittenString.Quoted : WrittenString → Prop
  | .escaped _ => True
  | .plain quote _ => quote = '\'' ∨ quote = '"'

theorem WrittenString.denotable_iff {w : WrittenString} (some_quote : w.Quoted) :
    w.Denotable ↔ ∃ literal, w.write = .ok literal ∧ readLiteral literal = some w.text := by
  cases w with
  | escaped str =>
    simp only [Denotable, write, text]
    constructor
    · rintro ⟨readable, no_null⟩
      obtain ⟨literal, print, read⟩ := readable_iff.mp readable
      exact ⟨literal, print, by rw [read, printed_eq_iff.mpr no_null]⟩
    · rintro ⟨literal, print, read⟩
      by_cases readable : Readable str
      · rw [(read_printString print).1 readable] at read
        exact ⟨readable, printed_eq_iff.mp (Option.some.inj read)⟩
      · rw [(read_printString print).2 readable] at read
        simp at read
  | plain quote str =>
    simp only [Denotable, write, text, Except.ok.injEq, exists_eq_left']
    exact (readLiteral_quoted_iff some_quote str).symm

theorem WrittenString.write_error {w : WrittenString} {e : Failure} (h : w.write = .error e) :
    e = .outOfRange := by
  cases w with
  | escaped str =>
    simp only [write, printString] at h
    split_ifs at h
    exact (Except.error.inj h).symm
  | plain quote str => simp [write] at h

theorem Lexer.Definition.print_literals (d : Lexer.Definition) :
    d.print.map (·.flatMap LuaElement.literals) =
      (d.texts.map WrittenString.escaped).mapM WrittenString.write := by
  have single : ∀ str : String,
      (do .ok [LuaElement.field (.string (← printString str))] : Except Failure _).map
        (·.flatMap LuaElement.literals) = [WrittenString.escaped str].mapM WrittenString.write := by
    intro str
    simp only [List.mapM_cons, List.mapM_nil, WrittenString.write]
    cases printString str <;> rfl
  have pair : ∀ (a b : String) (more : List LuaField), more.flatMap LuaField.literals = [] →
      (do .ok [LuaElement.table ([.string (← printString a), .string (← printString b)] ++ more)] :
        Except Failure _).map (·.flatMap LuaElement.literals) =
        [WrittenString.escaped a, .escaped b].mapM WrittenString.write := by
    intro a b more none
    simp only [List.mapM_cons, List.mapM_nil, WrittenString.write]
    cases printString a with
    | error e => rfl
    | ok la =>
      cases printString b with
      | error e => rfl
      | ok lb => simp [Except.map, LuaElement.literals, LuaField.literals, none, pure, Except.pure]
  unfold print texts
  cases d.type with
  | BadLexem => exact single d.bad
  | NamedPatternLexem => exact pair d.name d.pattern _ (by split <;> simp [LuaField.literals])
  | KeywordLexem => exact single d.name
  | IgnoreLexem => exact single d.ignore
  | EolnComment => exact single d.start
  | BracketComment =>
    have step := pair d.start d.stop [] rfl
    simpa using step
  | IndentLexems => rfl

theorem Lexer.printLexer_literals (lexer : Lexer) :
    (printLexer lexer).map (·.flatMap LuaRow.literals) =
      lexer.strings.mapM WrittenString.write := by
  apply map_mapM_flatMap
  intro c _
  have definitions := @map_mapM_flatMap _ _ _ _ _ Definition.print (·.flatMap LuaElement.literals)
    (fun d => d.texts.map WrittenString.escaped) WrittenString.write (classOf lexer.getDefinitions c)
    fun d _ => d.print_literals
  rw [← definitions, printRow]
  cases (classOf lexer.getDefinitions c).mapM Definition.print with
  | error e => rfl
  | ok ess =>
    show Except.ok (ess.flatten.flatMap LuaElement.literals) = _
    rw [← List.flatMap_id, List.flatMap_assoc]
    rfl

theorem quotedParts_prefix (text : List Char) :
    quotedParts none (typeSystemModulePrefix.toList ++ text) = quotedParts none text := by
  have start : typeSystemModulePrefix.toList =
    ['t', 'y', 'p', 'e', 's', 'y', 's', 't', 'e', 'm', '.'] := by decide
  rw [start]
  simp [quotedParts]

theorem mapM_plain (parts : List (Char × List Char)) :
    (parts.map fun part => WrittenString.plain part.1 (String.ofList part.2)).mapM
        WrittenString.write =
      .ok (parts.map fun part => quoted part.1 (String.ofList part.2)) := by
  induction parts with
  | nil => rfl
  | cons part parts ih =>
    rw [List.map_cons, List.mapM_cons, ih]
    rfl

theorem Call.print_literals (call : Call) :
    call.print.map LuaCall.literals = call.strings.mapM WrittenString.write := by
  obtain ⟨function, arg, argtype⟩ := call
  cases argtype with
  | NoArg =>
    simp only [print, strings, List.mapM_cons, List.mapM_nil, WrittenString.write]
    cases printString function <;> rfl
  | StringArg =>
    simp only [print, strings, List.mapM_cons, List.mapM_nil, WrittenString.write]
    cases printString (function ++ " " ++ arg) <;> rfl
  | ReferenceArg =>
    have parts : (LuaObject.expression (if isConstantArgument arg then arg
        else typeSystemModulePrefix ++ arg)).literals =
        (quotedParts none arg.toList).map fun part => quoted part.1 (String.ofList part.2) := by
      rw [LuaObject.literals]
      split
      · rfl
      · rw [String.toList_append, quotedParts_prefix]
    simp only [print, strings, List.mapM_cons, mapM_plain, WrittenString.write]
    cases printString (function ++ " " ++ arg) with
    | error e => rfl
    | ok name =>
      show Except.ok (name :: ([LuaObject.expression _].flatMap LuaObject.literals)) = _
      rw [List.flatMap_cons, List.flatMap_nil, List.append_nil, parts]
      rfl

theorem Automaton.tostring_literals (automaton : Automaton) :
    automaton.tostring.map LuaModule.literals =
      automaton.strings.mapM WrittenString.write := by
  have header (str : String) :
      (headerStrings str).mapM WrittenString.write = .ok (printHeader str).toList := by
    rw [headerStrings, printHeader]
    split <;> rfl
  have nonterminals : (automaton.nonterminals.map (WrittenString.plain '"')).mapM
      WrittenString.write = .ok (automaton.nonterminals.map (quoted '"')) := by
    induction automaton.nonterminals with
    | nil => rfl
    | cons name names ih =>
      rw [List.map_cons, List.mapM_cons, ih]
      rfl
  have calls := @map_mapM_flatMap _ _ _ _ _ Call.print LuaCall.literals Call.strings
    WrittenString.write automaton.calls fun call _ => call.print_literals
  rw [strings, List.mapM_append, List.mapM_append, List.mapM_append, List.mapM_append,
    List.mapM_append, header, header, header, nonterminals, ← Lexer.printLexer_literals, ← calls,
    tostring]
  cases Lexer.printLexer automaton.lexer with
  | error e => rfl
  | ok lexer => cases automaton.calls.mapM Call.print <;> rfl

theorem Automaton.strings_quoted (automaton : Automaton) :
    ∀ w ∈ automaton.strings, w.Quoted := by
  intro w mem
  simp only [strings, headerStrings, Lexer.strings, List.mem_append, List.mem_flatMap,
    List.mem_map] at mem
  rcases mem with ((((mem | mem) | mem) | ⟨c, -, d, -, str, -, rfl⟩) | ⟨name, -, rfl⟩) |
    ⟨call, -, mem⟩
  · split_ifs at mem
    · simp at mem
    · rw [List.mem_singleton.mp mem]
      exact Or.inr rfl
  · split_ifs at mem
    · simp at mem
    · rw [List.mem_singleton.mp mem]
      exact Or.inr rfl
  · split_ifs at mem
    · simp at mem
    · rw [List.mem_singleton.mp mem]
      exact Or.inr rfl
  · exact trivial
  · exact Or.inr rfl
  · rw [Call.strings] at mem
    split at mem
    · rw [List.mem_singleton.mp mem]
      exact trivial
    · rcases List.mem_pair.mp mem with rfl | rfl
      · exact trivial
      · exact Or.inr rfl
    · rcases List.mem_cons.mp mem with rfl | mem
      · exact trivial
      · obtain ⟨part, here, rfl⟩ := List.mem_map.mp mem
        exact quotedParts_quote (by simp) part here

theorem Automaton.tostring_unreported (automaton : Automaton) (str : String) :
    automaton.tostring ≠ .error (.thrown ⟨.EscapeQuoteErrorInString, str, 0⟩) := by
  have literals := automaton.tostring_literals
  intro reported
  rw [reported] at literals
  obtain ⟨w, -, failed⟩ := mapM_eq_error literals.symm
  simpa using WrittenString.write_error failed

theorem Automaton.tostring_outOfRange {automaton : Automaton} {w : WrittenString}
    (mem : w ∈ automaton.strings) (failed : w.write = .error .outOfRange) :
    automaton.tostring = .error .outOfRange := by
  have literals := automaton.tostring_literals
  cases made : automaton.tostring with
  | error e =>
    rw [made] at literals
    obtain ⟨w', -, failed'⟩ := mapM_eq_error literals.symm
    rw [WrittenString.write_error failed']
  | ok module =>
    rw [made] at literals
    obtain ⟨literal, -, write⟩ := (mem_mapM literals.symm).2 w mem
    rw [failed] at write
    simp at write

theorem Automaton.stringsDenoted_iff_each (automaton : Automaton) :
    automaton.StringsDenoted ↔ ∀ w ∈ automaton.strings,
      ∃ literal, w.write = .ok literal ∧ readLiteral literal = some w.text := by
  have written : (∃ module, automaton.tostring = .ok module ∧
      module.literals.map readLiteral = automaton.strings.map fun w => some w.text) ↔
      ∃ texts, automaton.strings.mapM WrittenString.write = .ok texts ∧
        texts.map readLiteral = automaton.strings.map fun w => some w.text := by
    rw [← automaton.tostring_literals]
    constructor
    · rintro ⟨module, made, same⟩
      exact ⟨module.literals, by rw [made]; rfl, same⟩
    · rintro ⟨texts, made, same⟩
      obtain ⟨module, printed, rfl⟩ := map_eq_ok.mp made
      exact ⟨module, printed, same⟩
  rw [StringsDenoted, written, exists_mapM_map_iff]
  refine ⟨fun denoted => denoted.resolve_right ?_, Or.inl⟩
  rintro ⟨str, reported⟩
  exact automaton.tostring_unreported str reported

/-- The strings of a module denote themselves if and only if no string holds what its way of writing
    cannot express. -/
theorem Automaton.stringsDenoted_iff (automaton : Automaton) :
    automaton.StringsDenoted ↔ ∀ w ∈ automaton.strings, w.Denotable := by
  rw [stringsDenoted_iff_each]
  apply forall₂_congr
  intro w mem
  exact (WrittenString.denotable_iff (automaton.strings_quoted w mem)).symm

def callGrammar (argument : List (LexemType × String)) : List (LexemType × String) :=
  [(.IDENT, "S"), (.EQUAL, "="), (.SQSTRING, "x"), (.OPENBRK, "("), (.IDENT, "f")] ++ argument ++
    [(.CLOSEBRK, ")"), (.SEMICOLON, ";")]

def quotedArgument : List (LexemType × String) := callGrammar [(.SQSTRING, "say \"hi\"")]

def mixedStructure : List (LexemType × String) :=
  callGrammar [(.OPENCURLYBRK, "\x7b"), (.IDENT, "a"), (.EQUAL, "="), (.DQSTRING, "1"),
    (.COMMA, ","), (.IDENT, "b"), (.EQUAL, "="), (.SQSTRING, "2"), (.CLOSECURLYBRK, "\x7d")]

theorem Automaton.mem_strings_of_call {automaton : Automaton} {call : Call} {w : WrittenString}
    (called : call ∈ automaton.calls) (mem : w ∈ call.strings) : w ∈ automaton.strings :=
  List.mem_append_right _ (List.mem_flatMap.mpr ⟨call, called, mem⟩)

/-- A double quote ends the literal of a string argument, and the loop for a name with quotes of
    both kinds does not end. -/
theorem Automaton.quotes_not_escaped :
    (∃ automaton, Sample.build quotedArgument = ((automaton, []), .ok ()) ∧
      ¬ automaton.StringsDenoted) ∧
    ∃ automaton, Sample.build mixedStructure = ((automaton, []), .ok ()) ∧
      automaton.tostring = .error .outOfRange ∧ ¬ automaton.StringsDenoted := by
  have accepted : (Sample.build quotedArgument).1.2 = [] ∧
      (Sample.build quotedArgument).2.toOption = some () := by decide +kernel
  have accepted' : (Sample.build mixedStructure).1.2 = [] ∧
      (Sample.build mixedStructure).2.toOption = some () := by decide +kernel
  have call : ⟨"f", "say \"hi\"", .StringArg⟩ ∈ (Sample.automaton quotedArgument).calls := by
    decide +kernel
  have call' : ⟨"f", "\x7ba=\"1\",b='2'\x7d", .ReferenceArg⟩ ∈
      (Sample.automaton mixedStructure).calls := by decide +kernel
  refine ⟨⟨_, Sample.build_eq accepted.1 accepted.2, fun denoted => ?_⟩,
    _, Sample.build_eq accepted'.1 accepted'.2, ?_⟩
  · have mem := mem_strings_of_call call
      (List.mem_cons_of_mem _ (List.mem_singleton_self (WrittenString.plain '"' "say \"hi\"")))
    obtain ⟨literal, write, read⟩ := (stringsDenoted_iff_each _).mp denoted _ mem
    obtain rfl := Except.ok.inj write
    have unread : readLiteral (quoted '"' "say \"hi\"") ≠ some "say \"hi\"" := by decide +kernel
    exact unread read
  · have mem := mem_strings_of_call call' List.mem_cons_self
    have both : '\'' ∈ cstr ("f" ++ " " ++ "\x7ba=\"1\",b='2'\x7d").toList ∧
        '"' ∈ cstr ("f" ++ " " ++ "\x7ba=\"1\",b='2'\x7d").toList := by decide +kernel
    have failed : (WrittenString.escaped ("f" ++ " " ++ "\x7ba=\"1\",b='2'\x7d")).write =
        .error .outOfRange := by
      simp only [WrittenString.write, printString, if_pos both]
    refine ⟨tostring_outOfRange mem failed, fun denoted => ?_⟩
    obtain ⟨literal, write, -⟩ := (stringsDenoted_iff_each _).mp denoted _ mem
    rw [failed] at write
    simp at write

end Mewa
