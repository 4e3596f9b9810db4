/- Module: Mewa/Lexer/Defined
   digest: The lexers that are built by calls of its definitions, and what holds of all of them. -/

import Mewa.Lexer.Scanner

set_option autoImplicit false
set_option relaxedAutoImplicit false

namespace Mewa

open Mewa.Lib

/-- A definition is tried after a first character. -/
def LexemDef.tries (d : LexemDef) (start : Nat) : Bool :=
  !d.source.isEmpty && decide (start < 256 ∧ start ∈ d.activate)

namespace Lexer

/-- The lexers that are built by calls of the functions that define something. -/
inductive Defined (patterns : PatternEngine) : Lexer → Prop
  | empty : Defined patterns {}
  | badLexem {lexer : Lexer} (line : Int) (name : String) : Defined patterns lexer →
      Defined patterns (lexer.defineBadLexem line name)
  | lexem {lexer lexer' : Lexer} {line : Int} {name pattern : String} {select : Nat} :
      Defined patterns lexer →
      lexer.defineLexem patterns line name pattern select = .ok lexer' → Defined patterns lexer'
  | keyword {lexer lexer' : Lexer} {opr tail : String} : Defined patterns lexer →
      lexer.defineKeyword patterns opr tail = .ok lexer' → Defined patterns lexer'
  | ignore {lexer lexer' : Lexer} {line : Int} {pattern : String} : Defined patterns lexer →
      lexer.defineIgnore patterns line pattern = .ok lexer' → Defined patterns lexer'
  | eolnComment {lexer lexer' : Lexer} {line : Int} {opr : String} : Defined patterns lexer →
      lexer.defineEolnComment line opr = .ok lexer' → Defined patterns lexer'
  | bracketComment {lexer lexer' : Lexer} {line : Int} {start stop : String} :
      Defined patterns lexer → lexer.defineBracketComment line start stop = .ok lexer' →
      Defined patterns lexer'
  | indentLexems {lexer lexer' : Lexer} {line tabsize : Int} {opening closing newline : String} :
      Defined patterns lexer →
      lexer.defineIndentLexems line opening closing newline tabsize = .ok lexer' →
      Defined patterns lexer'

/-- The first characters lead to the definitions that are tried after them, in the order of the
    definitions. -/
structure Indexed (lexer : Lexer) : Prop where
  known : ∀ entry ∈ lexer.firstmap, entry.2 = MATCH_EOLN_COMMENT ∨
    entry.2 = MATCH_BRACKET_COMMENT ∨ (lexer.definitionAt entry.2).isSome
  tried : ∀ start, (lexer.equalRange start).filterMap lexer.definitionAt =
    lexer.defar.filter fun d => d.tries start
  eoln : ∀ comment ∈ lexer.eolnComments,
    MATCH_EOLN_COMMENT ∈ lexer.equalRange (firstByte comment.opening)
  bracket : ∀ comment ∈ lexer.bracketComments,
    MATCH_BRACKET_COMMENT ∈ lexer.equalRange (firstByte comment.opening)

/-- The identifiers are numbers of names, and those of the indentation are of no keyword. -/
structure Named (lexer : Lexer) : Prop where
  names : lexer.namelist.length = lexer.nameidmap.entries.length
  bound : ∀ name id, lexer.nameidmap.find name = some id → 0 < id ∧ id ≤ lexer.namelist.length
  definition : ∀ d ∈ lexer.defar, d.id ≤ lexer.namelist.length
  keyword : ∀ d ∈ lexer.defar, d.keyword = true → d.id ≠ 0
  indent : lexer.indentLexems.opening ≠ 0 →
    lexer.indentLexems.closing = lexer.indentLexems.opening + 1 ∧
    lexer.indentLexems.newLine = lexer.indentLexems.opening + 2 ∧
    lexer.indentLexems.newLine ≤ lexer.namelist.length
  separate : ∀ d ∈ lexer.defar, d.keyword = true → lexer.indentLexems.opening ≠ 0 →
    d.id < lexer.indentLexems.opening ∨ lexer.indentLexems.newLine < d.id

/-- A pattern is defined under the number of a new name or of a known one, or under none. -/
inductive NamedBy (lexer lexer' : Lexer) (d : LexemDef) : Prop
  | unnamed : d.id = 0 → d.keyword = false → lexer'.nameidmap = lexer.nameidmap →
      lexer'.namelist = lexer.namelist → NamedBy lexer lexer' d
  | known : lexer.nameidmap.find d.name = some d.id → d.keyword = false →
      lexer'.nameidmap = lexer.nameidmap → lexer'.namelist = lexer.namelist →
      NamedBy lexer lexer' d
  | fresh (entry : String) : lexer.nameidmap.find d.name = none →
      d.id = lexer.nameidmap.entries.length + 1 →
      lexer'.nameidmap = lexer.nameidmap.set d.name d.id →
      lexer'.namelist = lexer.namelist ++ [entry] → NamedBy lexer lexer' d

/-- What the definition of a pattern does. -/
structure Pushed (lexer lexer' : Lexer) (d : LexemDef) : Prop where
  defar : lexer'.defar = lexer.defar ++ [d]
  firstmap : lexer'.firstmap = lexer.firstmap ++
    ((List.range 256).filter fun ch => d.tries ch).map fun ch => (ch, (lexer.defar.length : Int))
  eolnComments : lexer'.eolnComments = lexer.eolnComments
  bracketComments : lexer'.bracketComments = lexer.bracketComments
  indentLexems : lexer'.indentLexems = lexer.indentLexems

end Lexer

namespace Lexer

variable {patterns : PatternEngine} {lexer lexer' : Lexer}

theorem pushDefinition_spec {line : Int} {name pattern : String} {id : Nat} {keyword : Bool}
    {select : Nat}
    (h : lexer.pushDefinition patterns line name pattern id keyword select = .ok lexer') :
    ∃ d, d.name = name ∧ d.id = id ∧ d.keyword = keyword ∧ Pushed lexer lexer' d ∧
      lexer'.nameidmap = lexer.nameidmap ∧ lexer'.namelist = lexer.namelist := by
  unfold pushDefinition at h
  split at h
  · obtain ⟨activate, -, h⟩ := bind_eq_ok.mp h
    dsimp only at h
    refine ⟨⟨line, name, pattern, activate, select, id, keyword⟩, rfl, rfl, rfl, ?_⟩
    split at h
    · rename_i nothing
      obtain rfl := Except.ok.inj h
      exact ⟨⟨rfl, by simp [LexemDef.tries, nothing], rfl, rfl, rfl⟩, rfl, rfl⟩
    · rename_i some_pattern
      split at h
      · simp at h
      · obtain rfl := Except.ok.inj h
        refine ⟨⟨rfl, ?_, rfl, rfl, rfl⟩, rfl, rfl⟩
        have same : ((List.range 256).filter fun ch => decide (ch ∈ activate)) =
            (List.range 256).filter fun ch => LexemDef.tries
              ⟨line, name, pattern, activate, select, id, keyword⟩ ch := by
          refine List.filter_congr fun ch mem => ?_
          simp [LexemDef.tries, some_pattern, List.mem_range.mp mem]
        rw [same]
  · simp at h

theorem defineLexemWith_spec {line : Int} {name pattern : String} {keyword : Bool} {select id : Nat}
    (h : lexer.defineLexem_ patterns line name pattern keyword select = .ok (lexer', id)) :
    ∃ d, Pushed lexer lexer' d ∧ NamedBy lexer lexer' d := by
  unfold defineLexem_ at h
  split at h
  · obtain ⟨pushed, push, h⟩ := bind_eq_ok.mp h
    obtain ⟨rfl, -⟩ := Prod.mk.inj (Except.ok.inj h)
    obtain ⟨d, -, number, kind, spec, names, list⟩ := pushDefinition_spec push
    exact ⟨d, spec, .unnamed number kind names list⟩
  · cases found : lexer.nameidmap.find name with
    | none =>
      simp only [SortedMap.insertNew_of_none found] at h
      obtain ⟨pushed, push, h⟩ := bind_eq_ok.mp h
      obtain ⟨rfl, -⟩ := Prod.mk.inj (Except.ok.inj h)
      obtain ⟨d, rfl, number, -, spec, names, list⟩ := pushDefinition_spec push
      exact ⟨d, ⟨spec.defar, spec.firstmap, spec.eolnComments, spec.bracketComments,
        spec.indentLexems⟩, .fresh _ found number (by rw [number]; exact names) list⟩
    | some known =>
      simp only [SortedMap.insertNew_of_some found] at h
      split at h
      · simp at h
      · rename_i plain
        obtain ⟨pushed, push, h⟩ := bind_eq_ok.mp h
        obtain ⟨rfl, -⟩ := Prod.mk.inj (Except.ok.inj h)
        obtain ⟨d, rfl, number, kind, spec, names, list⟩ := pushDefinition_spec push
        refine ⟨d, ⟨spec.defar, spec.firstmap, spec.eolnComments, spec.bracketComments,
          spec.indentLexems⟩, .known (number ▸ found) ?_ names list⟩
        rw [kind]
        simpa using plain

theorem defineLexemId_spec {name : String} {id : Nat}
    (h : lexer.defineLexemId name = .ok (lexer', id)) :
    ∃ d entry, d.name = name ∧ d.id = id ∧ d.source = "" ∧ d.keyword = false ∧
      lexer.nameidmap.find name = none ∧ id = lexer.nameidmap.entries.length + 1 ∧
      lexer' = { lexer with
        nameidmap := lexer.nameidmap.set name id
        namelist := lexer.namelist ++ [entry]
        id2keyword := padKeywords lexer.id2keyword id
        defar := lexer.defar ++ [d] } := by
  unfold defineLexemId at h
  cases found : lexer.nameidmap.find name with
  | none =>
    simp only [SortedMap.insertNew_of_none found] at h
    obtain ⟨rfl, rfl⟩ := Prod.mk.inj (Except.ok.inj h)
    exact ⟨_, _, rfl, rfl, rfl, rfl, rfl, rfl, rfl⟩
  | some known => simp [SortedMap.insertNew_of_some found] at h

theorem tries_of_source {d : LexemDef} (source : d.source = "") (start : Nat) :
    d.tries start = false := by
  simp [LexemDef.tries, source]

theorem Pushed.of_defineLexemId {name : String} {id : Nat}
    (h : lexer.defineLexemId name = .ok (lexer', id)) :
    ∃ d, d.source = "" ∧ d.id = id ∧ d.keyword = false ∧ Pushed lexer lexer' d ∧
      NamedBy lexer lexer' d := by
  obtain ⟨d, entry, name_eq, id_eq, source, keyword, absent, number, rfl⟩ := defineLexemId_spec h
  subst name_eq id_eq
  refine ⟨d, source, rfl, keyword, ⟨rfl, ?_, rfl, rfl, rfl⟩, .fresh entry absent number rfl rfl⟩
  simp [tries_of_source source]

theorem definitionAt_append {d : LexemDef} (defar : lexer'.defar = lexer.defar ++ [d]) {idx : Int}
    (known : (lexer.definitionAt idx).isSome) :
    lexer'.definitionAt idx = lexer.definitionAt idx := by
  unfold definitionAt at known ⊢
  split
  · rfl
  · rename_i positive
    simp only [positive, if_false, Option.isSome_iff_exists] at known
    obtain ⟨x, known⟩ := known
    have bound := (List.getElem?_eq_some_iff.mp known).1
    rw [defar, List.getElem?_append_left bound]

theorem definitionAt_length {d : LexemDef} (defar : lexer'.defar = lexer.defar ++ [d]) :
    lexer'.definitionAt (lexer.defar.length : Int) = some d := by
  simp [definitionAt, defar]

theorem definitionAt_comment {idx : Int}
    (comment : idx = MATCH_EOLN_COMMENT ∨ idx = MATCH_BRACKET_COMMENT) :
    lexer.definitionAt idx = none := by
  rcases comment with rfl | rfl <;> rfl

theorem indexed_empty : Indexed {} where
  known := by simp
  tried := by simp [equalRange]
  eoln := by simp
  bracket := by simp

theorem mem_equalRange {start : Nat} {idx : Int} :
    idx ∈ lexer.equalRange start ↔ (start, idx) ∈ lexer.firstmap := by
  simp [equalRange]

theorem Pushed.equalRange {d : LexemDef} (h : Pushed lexer lexer' d) (start : Nat) :
    lexer'.equalRange start = lexer.equalRange start ++
      if d.tries start then [(lexer.defar.length : Int)] else [] := by
  have selected : (List.range 256).filter (fun ch => (ch == start) && d.tries ch) =
      if d.tries start then [start] else [] := by
    cases tries : d.tries start with
    | false =>
      refine List.filter_eq_nil_iff.mpr fun ch _ both => ?_
      obtain ⟨same, tried⟩ := Bool.and_eq_true_iff.mp both
      rw [eq_of_beq same, tries] at tried
      exact absurd tried (by simp)
    | true =>
      have small : start < 256 := by
        simp only [LexemDef.tries, Bool.and_eq_true, decide_eq_true_eq] at tries
        exact tries.2.1
      have only : (List.range 256).filter (fun ch => (ch == start) && d.tries ch) =
          (List.range 256).filter (fun ch => ch == start) := by
        refine List.filter_congr fun ch _ => ?_
        by_cases same : ch = start
        · rw [same, tries]
          simp
        · simp [same]
      rw [only, List.filter_beq, List.count_range]
      simp [small]
  unfold Lexer.equalRange
  rw [h.firstmap, List.filter_append, List.map_append, List.filter_map, List.filter_filter]
  congr 1
  simp only [Function.comp_def]
  rw [selected]
  split <;> rfl

theorem Indexed.pushed {d : LexemDef} (indexed : Indexed lexer) (h : Pushed lexer lexer' d) :
    Indexed lexer' where
  known := by
    intro entry mem
    rw [h.firstmap] at mem
    rcases List.mem_append.mp mem with old | new
    · rcases indexed.known entry old with eoln | bracket | known
      · exact Or.inl eoln
      · exact Or.inr (Or.inl bracket)
      · exact Or.inr (Or.inr (by rwa [definitionAt_append h.defar known]))
    · obtain ⟨ch, -, rfl⟩ := List.mem_map.mp new
      exact Or.inr (Or.inr (by rw [definitionAt_length h.defar]; rfl))
  tried := by
    intro start
    have same : (lexer.equalRange start).filterMap lexer'.definitionAt =
        (lexer.equalRange start).filterMap lexer.definitionAt := by
      refine List.filterMap_congr fun idx mem => ?_
      rcases indexed.known _ (mem_equalRange.mp mem) with eoln | bracket | known
      · rw [definitionAt_comment (Or.inl eoln), definitionAt_comment (Or.inl eoln)]
      · rw [definitionAt_comment (Or.inr bracket), definitionAt_comment (Or.inr bracket)]
      · exact definitionAt_append h.defar known
    rw [h.equalRange, List.filterMap_append, same, indexed.tried, h.defar, List.filter_append]
    cases tries : d.tries start with
    | false => simp [tries]
    | true => simp [tries, definitionAt_length h.defar]
  eoln := by
    intro comment mem
    rw [h.eolnComments] at mem
    rw [h.equalRange]
    exact List.mem_append_left _ (indexed.eoln comment mem)
  bracket := by
    intro comment mem
    rw [h.bracketComments] at mem
    rw [h.equalRange]
    exact List.mem_append_left _ (indexed.bracket comment mem)

theorem Indexed.comment {entry : Nat × Int} (indexed : Indexed lexer)
    (kind : entry.2 = MATCH_EOLN_COMMENT ∨ entry.2 = MATCH_BRACKET_COMMENT)
    (defar : lexer'.defar = lexer.defar) (firstmap : lexer'.firstmap = lexer.firstmap ++ [entry])
    (eoln : ∀ comment ∈ lexer'.eolnComments, comment ∈ lexer.eolnComments ∨
      entry = (firstByte comment.opening, MATCH_EOLN_COMMENT))
    (bracket : ∀ comment ∈ lexer'.bracketComments, comment ∈ lexer.bracketComments ∨
      entry = (firstByte comment.opening, MATCH_BRACKET_COMMENT)) : Indexed lexer' := by
  have definition : lexer'.definitionAt = lexer.definitionAt := by
    funext idx
    unfold definitionAt
    rw [defar]
  have range : ∀ start, lexer'.equalRange start =
      lexer.equalRange start ++ if entry.1 = start then [entry.2] else [] := by
    intro start
    unfold Lexer.equalRange
    rw [firstmap, List.filter_append, List.map_append]
    by_cases same : entry.1 = start <;> simp [same]
  refine ⟨?_, ?_, ?_, ?_⟩
  · intro e mem
    rw [firstmap] at mem
    rw [definition]
    rcases List.mem_append.mp mem with old | new
    · exact indexed.known e old
    · rw [List.mem_singleton.mp new]
      exact kind.imp_right Or.inl
  · intro start
    rw [range, definition, List.filterMap_append, indexed.tried, defar]
    split
    · simp [definitionAt_comment kind]
    · simp
  · intro comment mem
    rw [range]
    rcases eoln comment mem with old | new
    · exact List.mem_append_left _ (indexed.eoln comment old)
    · simp [new]
  · intro comment mem
    rw [range]
    rcases bracket comment mem with old | new
    · exact List.mem_append_left _ (indexed.bracket comment old)
    · simp [new]

theorem named_empty : Named {} where
  names := rfl
  bound := by simp
  definition := by simp
  keyword := by simp
  indent := by simp
  separate := by simp

theorem NamedBy.length {d : LexemDef} (h : NamedBy lexer lexer' d) :
    lexer.namelist.length ≤ lexer'.namelist.length := by
  cases h with
  | unnamed _ _ _ list => rw [list]
  | known _ _ _ list => rw [list]
  | fresh entry _ _ _ list => simp [list]

theorem NamedBy.bound {d : LexemDef} (h : NamedBy lexer lexer' d) (named : Named lexer) :
    d.id ≤ lexer'.namelist.length := by
  cases h with
  | unnamed id_eq _ _ _ => omega
  | known found _ _ list =>
    rw [list]
    exact (named.bound _ _ found).2
  | fresh entry _ id_eq _ list =>
    rw [list, id_eq, List.length_append, named.names]
    rfl

theorem NamedBy.keyword_id {d : LexemDef} (h : NamedBy lexer lexer' d) (named : Named lexer)
    (keyword : d.keyword = true) : lexer.namelist.length < d.id := by
  cases h with
  | unnamed _ plain _ _ => simp [plain] at keyword
  | known _ plain _ _ => simp [plain] at keyword
  | fresh entry _ id_eq _ _ =>
    rw [named.names]
    omega

theorem Named.pushed {d : LexemDef} (named : Named lexer) (push : Pushed lexer lexer' d)
    (h : NamedBy lexer lexer' d) : Named lexer' where
  names := by
    cases h with
    | unnamed _ _ names list => rw [names, list, named.names]
    | known _ _ names list => rw [names, list, named.names]
    | fresh entry absent _ names list =>
      rw [names, list, SortedMap.length_set_of_none absent, List.length_append, named.names]
      rfl
  bound := by
    intro name id found
    have longer := h.length
    cases h with
    | unnamed _ _ names _ =>
      rw [names] at found
      have := named.bound name id found
      omega
    | known _ _ names _ =>
      rw [names] at found
      have := named.bound name id found
      omega
    | fresh entry _ id_eq names list =>
      rw [names, SortedMap.find_set] at found
      split at found
      · obtain rfl := Option.some.inj found
        rw [list, List.length_append, named.names, id_eq]
        exact ⟨by omega, le_rfl⟩
      · have := named.bound name id found
        omega
  definition := by
    intro x mem
    rw [push.defar] at mem
    rcases List.mem_append.mp mem with old | new
    · exact (named.definition x old).trans h.length
    · rw [List.mem_singleton.mp new]
      exact h.bound named
  keyword := by
    intro x mem keyword
    rw [push.defar] at mem
    rcases List.mem_append.mp mem with old | new
    · exact named.keyword x old keyword
    · rw [List.mem_singleton.mp new] at keyword ⊢
      have := h.keyword_id named keyword
      omega
  indent := by
    intro opened
    rw [push.indentLexems] at opened ⊢
    obtain ⟨closing, newLine, bound⟩ := named.indent opened
    exact ⟨closing, newLine, bound.trans h.length⟩
  separate := by
    intro x mem keyword opened
    rw [push.indentLexems] at opened ⊢
    rw [push.defar] at mem
    rcases List.mem_append.mp mem with old | new
    · exact named.separate x old keyword opened
    · rw [List.mem_singleton.mp new] at keyword ⊢
      have := h.keyword_id named keyword
      have := (named.indent opened).2.2
      exact Or.inr (by omega)

theorem defineIndentLexems_spec {line tabsize : Int} {opening closing newline : String}
    (h : lexer.defineIndentLexems line opening closing newline tabsize = .ok lexer')
    (named : Named lexer) (indexed : Indexed lexer) : Named lexer' ∧ Indexed lexer' := by
  unfold defineIndentLexems at h
  split at h
  · simp at h
  rename_i absent
  have none_yet : lexer.indentLexems.opening = 0 := by simpa using absent
  obtain ⟨⟨opened, openid⟩, hopen, h⟩ := bind_eq_ok.mp h
  obtain ⟨⟨closed, closeid⟩, hclose, h⟩ := bind_eq_ok.mp h
  obtain ⟨⟨lined, newlineid⟩, hline, h⟩ := bind_eq_ok.mp h
  obtain ⟨d₁, -, id₁, plain₁, push₁, by₁⟩ := Pushed.of_defineLexemId hopen
  obtain ⟨d₂, -, id₂, plain₂, push₂, by₂⟩ := Pushed.of_defineLexemId hclose
  obtain ⟨d₃, -, id₃, plain₃, push₃, by₃⟩ := Pushed.of_defineLexemId hline
  have named₁ := named.pushed push₁ by₁
  have named₂ := named₁.pushed push₂ by₂
  have named₃ := named₂.pushed push₃ by₃
  have indexed₃ := ((indexed.pushed push₁).pushed push₂).pushed push₃
  obtain ⟨_, _, -, -, -, -, absent₁, number₁, eq₁⟩ := defineLexemId_spec hopen
  obtain ⟨_, _, -, -, -, -, absent₂, number₂, eq₂⟩ := defineLexemId_spec hclose
  obtain ⟨_, _, -, -, -, -, absent₃, number₃, eq₃⟩ := defineLexemId_spec hline
  have count₁ : opened.nameidmap.entries.length = lexer.nameidmap.entries.length + 1 := by
    rw [eq₁, SortedMap.length_set_of_none absent₁]
  have count₂ : closed.nameidmap.entries.length = opened.nameidmap.entries.length + 1 := by
    rw [eq₂, SortedMap.length_set_of_none absent₂]
  have count₃ : lined.nameidmap.entries.length = closed.nameidmap.entries.length + 1 := by
    rw [eq₃, SortedMap.length_set_of_none absent₃]
  obtain rfl := Except.ok.inj h
  refine ⟨⟨named₃.names, named₃.bound, named₃.definition, named₃.keyword, fun _ => ?_, ?_⟩,
    indexed₃.known, indexed₃.tried, indexed₃.eoln, indexed₃.bracket⟩
  · have := named₃.names
    exact ⟨by simp only; omega, by simp only; omega, by simp only; omega⟩
  · intro x mem keyword _
    have old : x ∈ lexer.defar := by
      rw [push₃.defar, push₂.defar, push₁.defar] at mem
      simp only [List.mem_append, List.mem_singleton] at mem
      rcases mem with ((old | rfl) | rfl) | rfl
      · exact old
      · simp [plain₁] at keyword
      · simp [plain₂] at keyword
      · simp [plain₃] at keyword
    have below := named.definition x old
    rw [named.names] at below
    exact Or.inl (by simp only; omega)

theorem Defined.invariants (defined : Defined patterns lexer) : Named lexer ∧ Indexed lexer := by
  induction defined with
  | empty => exact ⟨named_empty, indexed_empty⟩
  | badLexem line name _ ih =>
    exact ⟨⟨ih.1.names, ih.1.bound, ih.1.definition, ih.1.keyword, ih.1.indent, ih.1.separate⟩,
      ih.2.known, ih.2.tried, ih.2.eoln, ih.2.bracket⟩
  | lexem _ h ih =>
    obtain ⟨⟨l, id⟩, call, eq⟩ := bind_eq_ok.mp h
    obtain rfl := Except.ok.inj eq
    obtain ⟨d, push, by_name⟩ := defineLexemWith_spec call
    exact ⟨ih.1.pushed push by_name, ih.2.pushed push⟩
  | keyword _ h ih =>
    obtain ⟨⟨l, id⟩, call, eq⟩ := bind_eq_ok.mp h
    obtain rfl := Except.ok.inj eq
    obtain ⟨d, push, by_name⟩ := defineLexemWith_spec call
    exact ⟨ih.1.pushed push by_name, ih.2.pushed push⟩
  | ignore _ h ih =>
    obtain ⟨⟨l, id⟩, call, eq⟩ := bind_eq_ok.mp h
    obtain rfl := Except.ok.inj eq
    obtain ⟨d, push, by_name⟩ := defineLexemWith_spec call
    exact ⟨ih.1.pushed push by_name, ih.2.pushed push⟩
  | eolnComment _ h ih =>
    unfold defineEolnComment at h
    split at h
    · simp at h
    · obtain rfl := Except.ok.inj h
      refine ⟨⟨ih.1.names, ih.1.bound, ih.1.definition, ih.1.keyword, ih.1.indent,
        ih.1.separate⟩, ih.2.comment (Or.inl rfl) rfl rfl (fun comment mem => ?_)
          fun comment mem => Or.inl mem⟩
      rcases List.mem_append.mp mem with old | new
      · exact Or.inl old
      · rw [List.mem_singleton.mp new]
        exact Or.inr rfl
  | bracketComment _ h ih =>
    unfold defineBracketComment at h
    split at h
    · simp at h
    · obtain rfl := Except.ok.inj h
      refine ⟨⟨ih.1.names, ih.1.bound, ih.1.definition, ih.1.keyword, ih.1.indent,
        ih.1.separate⟩, ih.2.comment (Or.inr rfl) rfl rfl (fun comment mem => Or.inl mem)
          fun comment mem => ?_⟩
      rcases List.mem_append.mp mem with old | new
      · exact Or.inl old
      · rw [List.mem_singleton.mp new]
        exact Or.inr rfl
  | indentLexems _ h ih => exact defineIndentLexems_spec h ih.1 ih.2

end Lexer

end Mewa
