/- Module: Mewa/Generated/Reading
   digest: What Lua reads of the table printed for a lexer, row by row. -/

import Mewa.Generated.LexerTable
import Mewa.Lib.Result

set_option autoImplicit false
set_option relaxedAutoImplicit false

namespace Mewa.Lexer

open Mewa.Lib

namespace Definition

def texts (d : Definition) : List String :=
  match d.type with
  | .BadLexem => [d.bad]
  | .NamedPatternLexem => [d.name, d.pattern]
  | .KeywordLexem => [d.name]
  | .IgnoreLexem => [d.ignore]
  | .EolnComment => [d.start]
  | .BracketComment => [d.start, d.stop]
  | .IndentLexems => []

def values (d : Definition) : List LuaElement :=
  match d.type with
  | .BadLexem => [.field (.string (printed d.bad))]
  | .NamedPatternLexem =>
    [.table ([.string (printed d.name), .string (printed d.pattern)] ++
      if d.select ≠ 0 then [.integer d.select] else [])]
  | .KeywordLexem => [.field (.string (printed d.name))]
  | .IgnoreLexem => [.field (.string (printed d.ignore))]
  | .EolnComment => [.field (.string (printed d.start))]
  | .BracketComment => [.table [.string (printed d.start), .string (printed d.stop)]]
  | .IndentLexems => [.field (.integer d.openind), .field (.integer d.tabsize)]

theorem print_read (d : Definition) (vs : List LuaElement) :
    (∃ es, d.print = .ok es ∧ es.mapM LuaElement.read = some vs) ↔
      (∀ str ∈ d.texts, Readable str) ∧ vs = d.values := by
  have single : ∀ str : String,
      (∃ es, (do .ok [LuaElement.field (.string (← printString str))]) = Except.ok (ε := Failure) es ∧
        es.mapM LuaElement.read = some vs) ↔
      Readable str ∧ vs = [.field (.string (printed str))] := by
    intro str
    rw [readable_iff]
    constructor
    · rintro ⟨es, whole, read⟩
      obtain ⟨literal, print, h⟩ := bind_eq_ok.mp whole
      obtain rfl := Except.ok.inj h
      have readable : Readable str := by
        by_contra unreadable
        simp [LuaElement.read, LuaField.read, (read_printString print).2 unreadable] at read
      have value := (read_printString print).1 readable
      refine ⟨⟨literal, print, value⟩, ?_⟩
      simpa [LuaElement.read, LuaField.read, value, eq_comm] using read
    · rintro ⟨⟨literal, print, read⟩, rfl⟩
      exact ⟨_, by rw [print]; rfl, by simp [LuaElement.read, LuaField.read, read]⟩
  have pair : ∀ (a b : String) (more : List LuaField), more.mapM LuaField.read = some more →
      ((∃ es, (do .ok [LuaElement.table ([.string (← printString a), .string (← printString b)] ++
          more)]) = Except.ok (ε := Failure) es ∧ es.mapM LuaElement.read = some vs) ↔
        (Readable a ∧ Readable b) ∧
          vs = [.table ([.string (printed a), .string (printed b)] ++ more)]) := by
    intro a b more same
    constructor
    · rintro ⟨es, print, read⟩
      obtain ⟨la, pa, h⟩ := bind_eq_ok.mp print
      obtain ⟨lb, pb, h⟩ := bind_eq_ok.mp h
      obtain rfl := Except.ok.inj h
      have readable : Readable a ∧ Readable b := by
        by_contra unreadable
        rcases not_and_or.mp unreadable with no | no
        · simp [LuaElement.read, LuaField.read, (read_printString pa).2 no] at read
        · simp [LuaElement.read, LuaField.read, (read_printString pb).2 no] at read
      have ra := (read_printString pa).1 readable.1
      have rb := (read_printString pb).1 readable.2
      refine ⟨readable, ?_⟩
      simpa [LuaElement.read, LuaField.read, ra, rb, same, eq_comm] using read
    · rintro ⟨⟨readable_a, readable_b⟩, rfl⟩
      obtain ⟨la, pa, ra⟩ := readable_iff.mp readable_a
      obtain ⟨lb, pb, rb⟩ := readable_iff.mp readable_b
      exact ⟨_, by rw [pa, pb]; rfl, by simp [LuaElement.read, LuaField.read, ra, rb, same]⟩
  unfold print texts values
  cases d.type with
  | BadLexem => simpa using single d.bad
  | NamedPatternLexem =>
    have step := pair d.name d.pattern (if d.select ≠ 0 then [.integer d.select] else [])
      (by split <;> simp [LuaField.read])
    simpa using step
  | KeywordLexem => simpa using single d.name
  | IgnoreLexem => simpa using single d.ignore
  | EolnComment => simpa using single d.start
  | BracketComment => simpa using pair d.start d.stop [] rfl
  | IndentLexems =>
    constructor
    · rintro ⟨es, print, read⟩
      obtain rfl := Except.ok.inj print
      refine ⟨by simp, ?_⟩
      simpa [LuaElement.read, LuaField.read, eq_comm] using read
    · rintro ⟨-, rfl⟩
      exact ⟨_, rfl, by simp [LuaElement.read, LuaField.read]⟩

end Definition

def rowOf (definitions : List Definition) (defclass : String) : LuaRow :=
  ⟨defclass, (classOf definitions defclass).flatMap Definition.values⟩

def usedClasses (definitions : List Definition) : List String :=
  definitionClasses.filter fun defclass => !(classOf definitions defclass).isEmpty

theorem definitions_read (ds : List Definition) (vs : List LuaElement) :
    (∃ ess, ds.mapM Definition.print = .ok ess ∧
        ess.flatten.mapM LuaElement.read = some vs) ↔
      (∀ d ∈ ds, ∀ str ∈ d.texts, Readable str) ∧ vs = ds.flatMap Definition.values := by
  induction ds generalizing vs with
  | nil => simp [pure, Except.pure, eq_comm]
  | cons d ds ih =>
    constructor
    · rintro ⟨ess, print, read⟩
      rw [List.mapM_cons] at print
      obtain ⟨es, here, print⟩ := bind_eq_ok.mp print
      obtain ⟨rest, others, print⟩ := bind_eq_ok.mp print
      obtain rfl := Except.ok.inj print
      rw [List.flatten_cons, List.mapM_append] at read
      obtain ⟨v, read_here, read⟩ := Option.bind_eq_some_iff.mp read
      obtain ⟨w, read_rest, read⟩ := Option.bind_eq_some_iff.mp read
      obtain rfl := Option.some.inj read
      obtain ⟨readable, rfl⟩ := (d.print_read v).mp ⟨es, here, read_here⟩
      obtain ⟨all, rfl⟩ := (ih w).mp ⟨rest, others, read_rest⟩
      exact ⟨List.forall_mem_cons.mpr ⟨readable, all⟩, rfl⟩
    · rintro ⟨readable, rfl⟩
      obtain ⟨readable, all⟩ := List.forall_mem_cons.mp readable
      obtain ⟨es, here, read_here⟩ := (d.print_read _).mpr ⟨readable, rfl⟩
      obtain ⟨rest, others, read_rest⟩ := (ih _).mpr ⟨all, rfl⟩
      refine ⟨es :: rest, by rw [List.mapM_cons, here, others]; rfl, ?_⟩
      rw [List.flatten_cons, List.mapM_append, read_here, read_rest]
      rfl

theorem rows_read (ds : List Definition) (classes : List String) (rs : List LuaRow) :
    (∃ rows, classes.mapM (printRow ds) = .ok rows ∧ rows.mapM LuaRow.read = some rs) ↔
      (∀ c ∈ classes, ∀ d ∈ classOf ds c, ∀ str ∈ d.texts, Readable str) ∧
        rs = classes.map (rowOf ds) := by
  induction classes generalizing rs with
  | nil => simp [pure, Except.pure, eq_comm]
  | cons c classes ih =>
    constructor
    · rintro ⟨rows, print, read⟩
      rw [List.mapM_cons] at print
      obtain ⟨row, here, print⟩ := bind_eq_ok.mp print
      obtain ⟨rest, others, print⟩ := bind_eq_ok.mp print
      obtain rfl := Except.ok.inj print
      obtain ⟨ess, printed_row, here⟩ := bind_eq_ok.mp here
      obtain rfl := Except.ok.inj here
      rw [List.mapM_cons] at read
      obtain ⟨r, read_here, read⟩ := Option.bind_eq_some_iff.mp read
      obtain ⟨rs', read_rest, read⟩ := Option.bind_eq_some_iff.mp read
      obtain rfl := Option.some.inj read
      obtain ⟨vs, read_row, rfl⟩ := Option.map_eq_some_iff.mp read_here
      obtain ⟨readable, rfl⟩ := (definitions_read _ vs).mp ⟨ess, printed_row, read_row⟩
      obtain ⟨all, rfl⟩ := (ih rs').mp ⟨rest, others, read_rest⟩
      exact ⟨List.forall_mem_cons.mpr ⟨readable, all⟩, rfl⟩
    · rintro ⟨readable, rfl⟩
      obtain ⟨readable, all⟩ := List.forall_mem_cons.mp readable
      obtain ⟨ess, printed_row, read_row⟩ := (definitions_read _ _).mpr ⟨readable, rfl⟩
      obtain ⟨rest, others, read_rest⟩ := (ih _).mpr ⟨all, rfl⟩
      refine ⟨⟨c, ess.flatten⟩ :: rest, ?_, ?_⟩
      · rw [List.mapM_cons, printRow, printed_row, others]
        rfl
      · rw [List.mapM_cons, LuaRow.read, read_row, read_rest]
        rfl

theorem typeName_mem (type : DefinitionType) : type.typeName ∈ definitionClasses := by
  cases type <;> simp [DefinitionType.typeName, definitionClasses]

theorem mem_usedClasses {ds : List Definition} {c : String} :
    c ∈ usedClasses ds ↔ ∃ d ∈ ds, d.type.typeName = c := by
  have some_definition : (!(classOf ds c).isEmpty) = true ↔ ∃ d ∈ ds, d.type.typeName = c := by
    rw [Bool.not_eq_true', List.isEmpty_eq_false_iff_exists_mem]
    simp [classOf]
  unfold usedClasses
  rw [List.mem_filter, some_definition]
  constructor
  · exact And.right
  · rintro ⟨d, mem, rfl⟩
    exact ⟨typeName_mem d.type, d, mem, rfl⟩

theorem table_read (lexer : Lexer) (rs : List LuaRow) :
    (∃ rows, printLexer lexer = .ok rows ∧ rows.mapM LuaRow.read = some rs) ↔
      (∀ d ∈ lexer.getDefinitions, ∀ str ∈ d.texts, Readable str) ∧
        rs = (usedClasses lexer.getDefinitions).map (rowOf lexer.getDefinitions) := by
  unfold printLexer
  refine (rows_read lexer.getDefinitions _ rs).trans (and_congr_left fun _ => ?_)
  constructor
  · intro readable d mem
    exact readable d.type.typeName (mem_usedClasses.mpr ⟨d, mem, rfl⟩) d
      (List.mem_filter.mpr ⟨mem, by simp⟩)
  · intro readable c _ d mem
    exact readable d (List.mem_filter.mp mem).1

end Mewa.Lexer
