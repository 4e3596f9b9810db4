/- Module: Mewa/Generated/Rebuilt
   digest: The lexer that is made of the definitions of another, and when it returns the same lexems. -/

import Mewa.Generated.Terminals
import Mewa.Lexer.Alike

set_option autoImplicit false
set_option relaxedAutoImplicit false

namespace Mewa.Lexer

open Mewa.Lib

namespace Definition

def closeind (d : Definition) : Int := d.id + 1

def newline (d : Definition) : Int := d.id + 2

end Definition

/-- The call of a function that defines something. -/
def defineFrom (patterns : PatternEngine) (lexer : Lexer) (d : Definition) :
    Except Failure Lexer :=
  match d.type with
  | .BadLexem => .ok (lexer.defineBadLexem d.line d.name)
  | .NamedPatternLexem => lexer.defineLexem patterns d.line d.name d.pattern d.select.toNat
  -- the name is a string with an end of its own
  | .KeywordLexem => lexer.defineKeyword patterns d.name ""
  -- the case goes on with the next one
  | .IgnoreLexem =>
    lexer.defineIgnore patterns d.line d.pattern >>= fun lexer =>
      lexer.defineEolnComment d.line d.start
  | .EolnComment => lexer.defineEolnComment d.line d.start
  | .BracketComment => lexer.defineBracketComment d.line d.start d.stop
  | .IndentLexems => .ok { lexer with indentLexems :=
      ⟨d.line, d.openind.toNat, d.closeind.toNat, d.newline.toNat, d.tabsize⟩ }

/-- The members before the definitions: there is no name for errors, and the lexems of the
    indentation are not set, but what stands in the memory. -/
def unset (memory : IndentLexems) : Lexer := { errorLexem := ⟨0, ""⟩, indentLexems := memory }

def ofDefinitions (patterns : PatternEngine) (memory : IndentLexems)
    (definitions : List Definition) : Except Failure Lexer :=
  definitions.foldlM (defineFrom patterns) (unset memory)

/-- The lexer made of the definitions of a lexer returns the same lexems. -/
def Determined (patterns : PatternEngine) (engine : PatternSearch) (memory : IndentLexems)
    (lexer : Lexer) : Prop :=
  ∃ lexer', ofDefinitions patterns memory lexer.getDefinitions = .ok lexer' ∧
    ∀ text lexems s, Lexes engine lexer' (.ofSource text) lexems s ↔
      Lexes engine lexer (.ofSource text) lexems s

/-- The definition has the number of a token of the indentation. -/
def Indents (lexer : Lexer) (d : LexemDef) : Prop :=
  lexer.indentLexems.defined = true ∧ lexer.indentLexems.opening ≤ d.id ∧
    d.id ≤ lexer.indentLexems.newLine

def isComment (idx : Int) : Bool := idx = MATCH_EOLN_COMMENT ∨ idx = MATCH_BRACKET_COMMENT

/-- The definitions of a lexer survive: errors have a name of their own, there is nothing that is
    ignored, keywords stand for their names, indentation is either defined with names that have both
    kinds of quotes or not at all, and bracket comments were defined before the comments to the end
    of the line that begin at the same texts. -/
structure Survives (lexer : Lexer) (memory : IndentLexems) : Prop where
  error : lexer.errorLexem.value ≠ "?"
  named : ∀ d ∈ lexer.defar, d.name ≠ ""
  keyword : ∀ d ∈ lexer.defar, d.keyword = true → d.source = stringToRegex d.name
  indent : lexer.indentLexems.defined = false → memory.defined = false
  quoted : ∀ d ∈ lexer.defar, lexer.Indents d → nameString d.name = d.name
  order : ∀ text, lexer.commentOf text MATCH_EOLN_COMMENT ≠ none →
    lexer.commentOf text MATCH_BRACKET_COMMENT ≠ none →
    MATCH_BRACKET_COMMENT ∈ lexer.equalRange (text.headD '\x00').toNat →
    (lexer.equalRange (text.headD '\x00').toNat).find? isComment = some MATCH_BRACKET_COMMENT

variable {patterns : PatternEngine} {lexer lexer' : Lexer}

/-- Every number of a comment among the first characters comes from a comment. -/
structure FromComments (lexer : Lexer) : Prop where
  eoln : ∀ e ∈ lexer.firstmap, e.2 = MATCH_EOLN_COMMENT →
    ∃ c ∈ lexer.eolnComments, firstByte c.opening = e.1
  bracket : ∀ e ∈ lexer.firstmap, e.2 = MATCH_BRACKET_COMMENT →
    ∃ c ∈ lexer.bracketComments, firstByte c.opening = e.1

namespace FromComments

theorem pushed {d : LexemDef} (h : FromComments lexer) (push : Pushed lexer lexer' d) :
    FromComments lexer' := by
  have no_comment : ∀ ch, (((ch, (lexer.defar.length : Int)) : Nat × Int).2 ≠ MATCH_EOLN_COMMENT) ∧
      ((ch, (lexer.defar.length : Int)) : Nat × Int).2 ≠ MATCH_BRACKET_COMMENT := by
    intro ch
    simp only [MATCH_EOLN_COMMENT, MATCH_BRACKET_COMMENT]
    omega
  constructor
  · intro e mem number
    rw [push.firstmap] at mem
    rw [push.eolnComments]
    rcases List.mem_append.mp mem with old | new
    · exact h.eoln e old number
    · obtain ⟨ch, -, rfl⟩ := List.mem_map.mp new
      exact absurd number (no_comment ch).1
  · intro e mem number
    rw [push.firstmap] at mem
    rw [push.bracketComments]
    rcases List.mem_append.mp mem with old | new
    · exact h.bracket e old number
    · obtain ⟨ch, -, rfl⟩ := List.mem_map.mp new
      exact absurd number (no_comment ch).2

theorem eolnComment {line : Int} {opr : String} (h : FromComments lexer)
    (call : lexer.defineEolnComment line opr = .ok lexer') : FromComments lexer' := by
  unfold defineEolnComment at call
  split at call
  · simp at call
  obtain rfl := Except.ok.inj call
  constructor
  · intro e mem number
    rcases List.mem_append.mp mem with old | new
    · obtain ⟨c, mem', byte⟩ := h.eoln e old number
      exact ⟨c, List.mem_append_left _ mem', byte⟩
    · rw [List.mem_singleton.mp new]
      exact ⟨⟨line, opr⟩, by simp, rfl⟩
  · intro e mem number
    rcases List.mem_append.mp mem with old | new
    · exact h.bracket e old number
    · rw [List.mem_singleton.mp new] at number
      exact absurd number (show ¬ MATCH_EOLN_COMMENT = MATCH_BRACKET_COMMENT by decide)

theorem bracketComment {line : Int} {start stop : String} (h : FromComments lexer)
    (call : lexer.defineBracketComment line start stop = .ok lexer') : FromComments lexer' := by
  unfold defineBracketComment at call
  split at call
  · simp at call
  obtain rfl := Except.ok.inj call
  constructor
  · intro e mem number
    rcases List.mem_append.mp mem with old | new
    · exact h.eoln e old number
    · rw [List.mem_singleton.mp new] at number
      exact absurd number (show ¬ MATCH_BRACKET_COMMENT = MATCH_EOLN_COMMENT by decide)
  · intro e mem number
    rcases List.mem_append.mp mem with old | new
    · obtain ⟨c, mem', byte⟩ := h.bracket e old number
      exact ⟨c, List.mem_append_left _ mem', byte⟩
    · rw [List.mem_singleton.mp new]
      exact ⟨⟨line, start, stop⟩, by simp, rfl⟩

theorem indentLexems {line tabsize : Int} {opening closing newline : String}
    (h : FromComments lexer)
    (call : lexer.defineIndentLexems line opening closing newline tabsize = .ok lexer') :
    FromComments lexer' := by
  unfold defineIndentLexems at call
  split at call
  · simp at call
  obtain ⟨⟨opened, openid⟩, hopen, call⟩ := bind_eq_ok.mp call
  obtain ⟨⟨closed, closeid⟩, hclose, call⟩ := bind_eq_ok.mp call
  obtain ⟨⟨lined, newlineid⟩, hline, call⟩ := bind_eq_ok.mp call
  obtain ⟨d₁, -, -, -, push₁, -⟩ := Pushed.of_defineLexemId hopen
  obtain ⟨d₂, -, -, -, push₂, -⟩ := Pushed.of_defineLexemId hclose
  obtain ⟨d₃, -, -, -, push₃, -⟩ := Pushed.of_defineLexemId hline
  have last := ((h.pushed push₁).pushed push₂).pushed push₃
  obtain rfl := Except.ok.inj call
  exact ⟨last.eoln, last.bracket⟩

end FromComments

theorem Defined.fromComments (defined : Defined patterns lexer) : FromComments lexer := by
  induction defined with
  | empty => exact ⟨by simp, by simp⟩
  | badLexem line name _ ih => exact ⟨ih.eoln, ih.bracket⟩
  | lexem _ h ih | keyword _ h ih | ignore _ h ih =>
    obtain ⟨⟨l, id⟩, call, eq⟩ := bind_eq_ok.mp h
    obtain rfl := Except.ok.inj eq
    obtain ⟨d, push, -⟩ := defineLexemWith_spec call
    exact ih.pushed push
  | eolnComment _ h ih => exact ih.eolnComment h
  | bracketComment _ h ih => exact ih.bracketComment h
  | indentLexems _ h ih => exact ih.indentLexems h

theorem mem_equalRange_comment (indexed : Indexed lexer) (from_comments : FromComments lexer)
    (start : Nat) :
    (MATCH_EOLN_COMMENT ∈ lexer.equalRange start ↔
      ∃ c ∈ lexer.eolnComments, firstByte c.opening = start) ∧
    (MATCH_BRACKET_COMMENT ∈ lexer.equalRange start ↔
      ∃ c ∈ lexer.bracketComments, firstByte c.opening = start) := by
  refine ⟨⟨fun mem => ?_, ?_⟩, ⟨fun mem => ?_, ?_⟩⟩
  · exact from_comments.eoln _ (mem_equalRange.mp mem) rfl
  · rintro ⟨c, mem, rfl⟩
    exact indexed.eoln c mem
  · exact from_comments.bracket _ (mem_equalRange.mp mem) rfl
  · rintro ⟨c, mem, rfl⟩
    exact indexed.bracket c mem

theorem findSome_comment {f : Int → Option Comment} {range : List Int}
    (others : ∀ idx, isComment idx = false → f idx = none)
    (order : f MATCH_EOLN_COMMENT ≠ none → f MATCH_BRACKET_COMMENT ≠ none →
      MATCH_BRACKET_COMMENT ∈ range → range.find? isComment = some MATCH_BRACKET_COMMENT) :
    range.findSome? f =
      if MATCH_BRACKET_COMMENT ∈ range ∧ f MATCH_BRACKET_COMMENT ≠ none then
        f MATCH_BRACKET_COMMENT
      else if MATCH_EOLN_COMMENT ∈ range then f MATCH_EOLN_COMMENT else none := by
  induction range with
  | nil => simp
  | cons idx range ih =>
    have differ : MATCH_BRACKET_COMMENT ≠ MATCH_EOLN_COMMENT := by decide
    rw [List.findSome?_cons]
    cases comment : isComment idx with
    | false =>
      have here : f idx = none := others idx comment
      have bracket : MATCH_BRACKET_COMMENT ≠ idx := by
        rintro rfl
        exact absurd comment (by decide)
      have eoln : MATCH_EOLN_COMMENT ≠ idx := by
        rintro rfl
        exact absurd comment (by decide)
      rw [here]
      simp only [List.mem_cons, bracket, eoln, false_or]
      refine ih fun some_eoln some_bracket mem => ?_
      have first := order some_eoln some_bracket (List.mem_cons_of_mem idx mem)
      rwa [List.find?_cons, comment] at first
    | true =>
      have kind : idx = MATCH_EOLN_COMMENT ∨ idx = MATCH_BRACKET_COMMENT :=
        of_decide_eq_true comment
      cases here : f idx with
      | some c =>
        rcases kind with rfl | rfl
        · have no_bracket : ¬ (MATCH_BRACKET_COMMENT ∈ MATCH_EOLN_COMMENT :: range ∧
              f MATCH_BRACKET_COMMENT ≠ none) := by
            rintro ⟨mem, some_bracket⟩
            have first := order (by rw [here]; simp) some_bracket mem
            rw [List.find?_cons, comment] at first
            exact differ (Option.some.inj first).symm
          rw [if_neg no_bracket, if_pos List.mem_cons_self, here]
        · rw [if_pos ⟨List.mem_cons_self, by rw [here]; simp⟩, here]
      | none =>
        rcases kind with rfl | rfl
        · have rest := ih fun some_eoln => absurd here some_eoln
          rw [here] at rest ⊢
          simp only [List.mem_cons, differ, false_or, ite_self] at rest ⊢
          exact rest
        · have rest := ih fun _ some_bracket => absurd here some_bracket
          rw [here] at rest ⊢
          simpa [differ.symm] using rest

theorem commentAt_same (indexed : Indexed lexer) (indexed' : Indexed lexer')
    (from_comments : FromComments lexer) (from_comments' : FromComments lexer')
    (eoln : lexer'.eolnComments = lexer.eolnComments)
    (bracket : lexer'.bracketComments = lexer.bracketComments) {text : List Char}
    (order : lexer.commentOf text MATCH_EOLN_COMMENT ≠ none →
      lexer.commentOf text MATCH_BRACKET_COMMENT ≠ none →
      MATCH_BRACKET_COMMENT ∈ lexer.equalRange (text.headD '\x00').toNat →
      (lexer.equalRange (text.headD '\x00').toNat).find? isComment = some MATCH_BRACKET_COMMENT)
    (order' : MATCH_BRACKET_COMMENT ∈ lexer'.equalRange (text.headD '\x00').toNat →
      (lexer'.equalRange (text.headD '\x00').toNat).find? isComment =
        some MATCH_BRACKET_COMMENT) :
    lexer'.commentAt text = lexer.commentAt text := by
  have same : lexer'.commentOf text = lexer.commentOf text := by
    funext idx
    unfold commentOf
    rw [eoln, bracket]
  have others : ∀ idx, isComment idx = false → lexer.commentOf text idx = none := by
    intro idx no_comment
    obtain ⟨no_eoln, no_bracket⟩ := not_or.mp (of_decide_eq_false no_comment)
    rw [commentOf, if_neg no_eoln, if_neg no_bracket]
  have range := mem_equalRange_comment indexed from_comments (text.headD '\x00').toNat
  have range' := mem_equalRange_comment indexed' from_comments' (text.headD '\x00').toNat
  rw [eoln, bracket, ← range.1, ← range.2] at range'
  unfold commentAt
  rw [same, findSome_comment others order, findSome_comment others fun _ _ => order']
  simp only [range'.1, range'.2]

theorem find_bracket {range : List Int}
    (order : range.Pairwise fun i j => j = MATCH_BRACKET_COMMENT → i ≠ MATCH_EOLN_COMMENT)
    (mem : MATCH_BRACKET_COMMENT ∈ range) :
    range.find? isComment = some MATCH_BRACKET_COMMENT := by
  induction range with
  | nil => cases mem
  | cons idx range ih =>
    obtain ⟨before, order⟩ := List.pairwise_cons.mp order
    rw [List.find?_cons]
    rcases List.mem_cons.mp mem with rfl | later
    · rfl
    · have no_eoln := before _ later rfl
      by_cases bracket : idx = MATCH_BRACKET_COMMENT
      · subst bracket
        rfl
      · have no_comment : isComment idx = false := decide_eq_false (by simp [no_eoln, bracket])
        rw [no_comment]
        exact ih order later

theorem equalRange_pairwise {R : Int → Int → Prop} (start : Nat)
    (order : lexer.firstmap.Pairwise fun e f => R e.2 f.2) : (lexer.equalRange start).Pairwise R :=
  List.pairwise_map.mpr (order.filter _)

/-! The patterns are defined again. -/

theorem defineLexem_frame {line : Int} {name pattern : String} {keyword : Bool} {select id : Nat}
    (call : lexer.defineLexem_ patterns line name pattern keyword select = .ok (lexer', id)) :
    lexer'.errorLexem = lexer.errorLexem ∧
      (lexer'.namelist = lexer.namelist ∨ lexer.nameidmap.find name = none ∧
        lexer'.namelist = lexer.namelist ++ [if keyword then nameString name else name]) := by
  unfold defineLexem_ at call
  split at call
  · obtain ⟨pushed, hp, call⟩ := bind_eq_ok.mp call
    obtain ⟨rfl, -⟩ := Prod.mk.inj (Except.ok.inj call)
    obtain ⟨activate, -, rfl⟩ := pushDefinition_iff.mp hp
    exact ⟨rfl, Or.inl rfl⟩
  · cases found : lexer.nameidmap.find name with
    | none =>
      simp only [SortedMap.insertNew_of_none found] at call
      obtain ⟨pushed, hp, call⟩ := bind_eq_ok.mp call
      obtain ⟨rfl, -⟩ := Prod.mk.inj (Except.ok.inj call)
      obtain ⟨activate, -, rfl⟩ := pushDefinition_iff.mp hp
      exact ⟨rfl, Or.inr ⟨rfl, rfl⟩⟩
    | some known =>
      simp only [SortedMap.insertNew_of_some found] at call
      split at call
      · simp at call
      · obtain ⟨pushed, hp, call⟩ := bind_eq_ok.mp call
        obtain ⟨rfl, -⟩ := Prod.mk.inj (Except.ok.inj call)
        obtain ⟨activate, -, rfl⟩ := pushDefinition_iff.mp hp
        exact ⟨rfl, Or.inl rfl⟩

/-- The number of a definition that is no number of a keyword stands for its name. -/
def NamesWhole (lexer : Lexer) : Prop :=
  ∀ d ∈ lexer.defar, d.id ≠ 0 → (∀ e ∈ lexer.defar, e.keyword = true → e.id ≠ d.id) →
    lexer.namelist[d.id - 1]? = some d.name

/-- The definitions of patterns were made after those of a lexer. -/
structure Redefined (patterns : PatternEngine) (lexer lexer' : Lexer) (entries : List Entry) :
    Prop where
  inv : LoadInv patterns lexer'
  names : NamesWhole lexer'
  from_comments : FromComments lexer'
  entries : lexer'.defar.map entryOf = lexer.defar.map entryOf ++ entries
  eoln : lexer'.eolnComments = lexer.eolnComments
  bracket : lexer'.bracketComments = lexer.bracketComments
  indent : lexer'.indentLexems = lexer.indentLexems
  error : lexer'.errorLexem = lexer.errorLexem

/-- A pattern that can be defined again. -/
structure Ready (patterns : PatternEngine) (d : LexemDef) : Prop where
  named : d.name ≠ ""
  keyword : d.keyword = true → d.source = stringToRegex d.name ∧ d.select = 0
  admits : ∃ activate, Admits patterns d.source activate

theorem defineFrom_definition {d : LexemDef} (ready : Ready patterns d) (lexer : Lexer) :
    ∃ line, defineFrom patterns lexer d.definition =
      lexer.defineLexem_ patterns line d.name d.source d.keyword d.select >>= fun r => .ok r.1 := by
  have some_name : d.name.isEmpty = false := by simpa using ready.named
  unfold LexemDef.definition
  rw [some_name]
  cases keyword : d.keyword with
  | true =>
    obtain ⟨source, select⟩ := ready.keyword keyword
    refine ⟨0, ?_⟩
    rw [source, select]
    change lexer.defineKeyword patterns d.name "" = _
    rw [defineKeyword, String.append_empty]
  | false => exact ⟨d.line, rfl⟩

theorem NamesWhole.defineLexem_ {line : Int} {name pattern : String} {keyword : Bool}
    {select id : Nat} (names : NamesWhole lexer) (inv : LoadInv patterns lexer)
    (some_name : name ≠ "")
    (call : lexer.defineLexem_ patterns line name pattern keyword select = .ok (lexer', id)) :
    NamesWhole lexer' := by
  have listed := (defineLexem_frame call).2
  obtain ⟨activate, -, adds⟩ := defineLexem_adds call
  have reg := inv.registered
  cases adds with
  | unnamed empty => exact absurd empty some_name
  | fresh entry _ new =>
    have entry_eq : entry = if keyword then nameString name else name := by
      rcases listed with same | ⟨-, longer⟩
      · have length := congrArg List.length same
        simp [push, addName] at length
      · simpa [push, addName] using longer
    intro x mem number apart
    change x ∈ lexer.defar ++ [_] at mem
    change (lexer.namelist ++ [entry])[x.id - 1]? = some x.name
    rcases List.mem_append.mp mem with old | last
    · have inside := reg.id_le old
      rw [← inv.names] at inside
      rw [List.getElem?_append_left (by omega)]
      exact names x old number fun e mem' => apart e (List.mem_append_left _ mem')
    · obtain rfl := List.mem_singleton.mp last
      cases keyword with
      | true => exact absurd rfl (apart _ (List.mem_append_right _ (List.mem_singleton_self _)) rfl)
      | false => simp [inv.names, entry_eq]
  | known _ plain found =>
    intro x mem number apart
    change x ∈ lexer.defar ++ [_] at mem
    change lexer.namelist[x.id - 1]? = some x.name
    have old_name : ∀ y ∈ lexer.defar, y.id = x.id → lexer.namelist[x.id - 1]? = some y.name := by
      intro y old same
      rw [← same]
      exact names y old (by omega) fun e mem' keyword => by
        rw [same]
        exact apart e (List.mem_append_left _ mem') keyword
    rcases List.mem_append.mp mem with old | last
    · exact old_name x old rfl
    · obtain rfl := List.mem_singleton.mp last
      have defined : name ∈ lexer.definedNames := reg.mem_definedNames.mpr (by rw [found]; simp)
      obtain ⟨y, mem', rfl⟩ := List.mem_map.mp defined
      obtain ⟨old, number'⟩ := List.mem_filter.mp mem'
      have same := reg.named y old (by simpa using number')
      exact old_name y old (Option.some.inj (same.symm.trans found))

theorem Ready.redefine {d : LexemDef} (ready : Ready patterns d) (inv : LoadInv patterns lexer)
    (names : NamesWhole lexer) (from_comments : FromComments lexer)
    (new : d.keyword = true → d.name ∉ lexer.definedNames) :
    ∃ lexer', defineFrom patterns lexer d.definition = .ok lexer' ∧
      Redefined patterns lexer lexer' [entryOf d] := by
  obtain ⟨line, run⟩ := defineFrom_definition ready lexer
  obtain ⟨activate, admits⟩ := ready.admits
  have absent : d.keyword = true → lexer.nameidmap.find d.name = none := by
    intro keyword
    by_contra found
    exact new keyword (inv.registered.mem_definedNames.mpr found)
  obtain ⟨lexer', id, call⟩ := defineLexem_ok lexer line d.name d.keyword d.select admits absent
  refine ⟨lexer', by rw [run, call, ok_bind], ?_⟩
  obtain ⟨inv', made, indent⟩ := inv.defineLexem_ (fun keyword => (ready.keyword keyword).2) call
  obtain ⟨d', push, -⟩ := defineLexemWith_spec call
  refine ⟨inv', names.defineLexem_ inv ready.named call, from_comments.pushed push, ?_,
    push.eolnComments, push.bracketComments, indent, (defineLexem_frame call).1⟩
  rw [made.defar]
  have some_name : d.name.isEmpty = false := by simpa using ready.named
  simp [entryOf, some_name]

theorem redefine_all {l : List LexemDef} (ready : ∀ d ∈ l, Ready patterns d)
    (inv : LoadInv patterns lexer) (names : NamesWhole lexer) (from_comments : FromComments lexer)
    (fresh : l.Pairwise fun d e => e.keyword = true → d.name ≠ e.name)
    (new : ∀ e ∈ l, e.keyword = true → e.name ∉ lexer.definedNames) :
    ∃ lexer', (l.map LexemDef.definition).foldlM (defineFrom patterns) lexer = .ok lexer' ∧
      Redefined patterns lexer lexer' (l.map entryOf) := by
  induction l generalizing lexer with
  | nil => exact ⟨lexer, rfl, inv, names, from_comments, by simp, rfl, rfl, rfl, rfl⟩
  | cons d l ih =>
    obtain ⟨apart, fresh⟩ := List.pairwise_cons.mp fresh
    obtain ⟨next, here, step⟩ := (ready d List.mem_cons_self).redefine inv names from_comments
      (new d List.mem_cons_self)
    have next_names : next.definedNames = lexer.definedNames ++ [d.name] := by
      rw [definedNames_eq step.inv.registered step.inv.blank, entries, step.entries,
        List.filter_append, List.map_append, ← entries,
        ← definedNames_eq inv.registered inv.blank]
      have some_name : d.name.isEmpty = false := by
        simpa using (ready d List.mem_cons_self).named
      simp [isIgnored, entryOf, some_name]
    obtain ⟨last, rest, more⟩ := ih (fun e mem => ready e (List.mem_cons_of_mem d mem)) step.inv
      step.names step.from_comments fresh fun e mem keyword defined => by
        rw [next_names] at defined
        rcases List.mem_append.mp defined with old | same
        · exact new e (List.mem_cons_of_mem d mem) keyword old
        · exact apart e mem keyword (List.mem_singleton.mp same).symm
    refine ⟨last, by rw [List.map_cons, List.foldlM_cons, here, ok_bind, rest], more.inv,
      more.names, more.from_comments, ?_, more.eoln.trans step.eoln, more.bracket.trans step.bracket,
      more.indent.trans step.indent, more.error.trans step.error⟩
    rw [more.entries, step.entries, List.append_assoc]
    rfl

/-! The comments are defined again. -/

structure Delimited (lexer : Lexer) : Prop where
  eoln : ∀ c ∈ lexer.eolnComments, c.opening ≠ ""
  bracket : ∀ b ∈ lexer.bracketComments, b.opening ≠ "" ∧ b.closing ≠ ""

theorem Delimited.same (h : Delimited lexer) (eoln : lexer'.eolnComments = lexer.eolnComments)
    (bracket : lexer'.bracketComments = lexer.bracketComments) : Delimited lexer' :=
  ⟨by rw [eoln]; exact h.eoln, by rw [bracket]; exact h.bracket⟩

theorem Defined.delimited (defined : Defined patterns lexer) : Delimited lexer := by
  induction defined with
  | empty => exact ⟨by simp, by simp⟩
  | badLexem line name _ ih => exact ⟨ih.eoln, ih.bracket⟩
  | lexem _ h ih | keyword _ h ih | ignore _ h ih =>
    obtain ⟨⟨l, id⟩, call, eq⟩ := bind_eq_ok.mp h
    obtain rfl := Except.ok.inj eq
    obtain ⟨d, push, -⟩ := defineLexemWith_spec call
    exact ih.same push.eolnComments push.bracketComments
  | eolnComment _ h ih =>
    unfold defineEolnComment at h
    split at h
    · simp at h
    rename_i some_opening
    obtain rfl := Except.ok.inj h
    refine ⟨fun c mem => ?_, ih.bracket⟩
    rcases List.mem_append.mp mem with old | new
    · exact ih.eoln c old
    · rw [List.mem_singleton.mp new]
      simpa using some_opening
  | bracketComment _ h ih =>
    unfold defineBracketComment at h
    split at h
    · simp at h
    rename_i some_delimiters
    obtain rfl := Except.ok.inj h
    refine ⟨ih.eoln, fun b mem => ?_⟩
    rcases List.mem_append.mp mem with old | new
    · exact ih.bracket b old
    · rw [List.mem_singleton.mp new]
      simpa using some_delimiters
  | indentLexems _ h ih =>
    unfold defineIndentLexems at h
    split at h
    · simp at h
    obtain ⟨⟨opened, openid⟩, hopen, h⟩ := bind_eq_ok.mp h
    obtain ⟨⟨closed, closeid⟩, hclose, h⟩ := bind_eq_ok.mp h
    obtain ⟨⟨lined, newlineid⟩, hline, h⟩ := bind_eq_ok.mp h
    obtain ⟨d₁, -, -, -, push₁, -⟩ := Pushed.of_defineLexemId hopen
    obtain ⟨d₂, -, -, -, push₂, -⟩ := Pushed.of_defineLexemId hclose
    obtain ⟨d₃, -, -, -, push₃, -⟩ := Pushed.of_defineLexemId hline
    have last := ((ih.same push₁.eolnComments push₁.bracketComments).same push₂.eolnComments
      push₂.bracketComments).same push₃.eolnComments push₃.bracketComments
    obtain rfl := Except.ok.inj h
    exact ⟨last.eoln, last.bracket⟩

structure Commented (patterns : PatternEngine) (lexer lexer' : Lexer) (eolns : List EolnCommentDef)
    (brackets : List BracketCommentDef) : Prop where
  inv : LoadInv patterns lexer'
  from_comments : FromComments lexer'
  eoln : lexer'.eolnComments = lexer.eolnComments ++ eolns
  bracket : lexer'.bracketComments = lexer.bracketComments ++ brackets
  defar : lexer'.defar = lexer.defar
  namelist : lexer'.namelist = lexer.namelist
  indent : lexer'.indentLexems = lexer.indentLexems
  error : lexer'.errorLexem = lexer.errorLexem

def bracketDefinition (bc : BracketCommentDef) : Definition :=
  ⟨bc.line, .BracketComment, [bc.opening, bc.closing], 0, MATCH_BRACKET_COMMENT⟩

def eolnDefinition (cc : EolnCommentDef) : Definition :=
  ⟨cc.line, .EolnComment, [cc.opening], 0, MATCH_EOLN_COMMENT⟩

theorem defineBrackets {l : List BracketCommentDef} (inv : LoadInv patterns lexer)
    (from_comments : FromComments lexer) (no_eoln : lexer.eolnComments = [])
    (delimited : ∀ b ∈ l, b.opening ≠ "" ∧ b.closing ≠ "") :
    ∃ lexer', (l.map bracketDefinition).foldlM (defineFrom patterns) lexer = .ok lexer' ∧
      Commented patterns lexer lexer' [] l := by
  induction l generalizing lexer with
  | nil => exact ⟨lexer, rfl, inv, from_comments, by simp, by simp, rfl, rfl, rfl, rfl⟩
  | cons b l ih =>
    obtain ⟨opening, closing⟩ := delimited b List.mem_cons_self
    have call : lexer.defineBracketComment b.line b.opening b.closing = .ok { lexer with
        bracketComments := lexer.bracketComments ++ [⟨b.line, b.opening, b.closing⟩]
        firstmap := lexer.firstmap ++ [(firstByte b.opening, MATCH_BRACKET_COMMENT)] } :=
      if_neg (by simp [opening, closing])
    obtain ⟨last, rest, more⟩ := ih (inv.defineBracketComment no_eoln call).1
      (from_comments.bracketComment call) no_eoln
      fun b' mem => delimited b' (List.mem_cons_of_mem b mem)
    refine ⟨last, ?_, more.inv, more.from_comments, more.eoln, ?_, more.defar, more.namelist,
      more.indent, more.error⟩
    · rw [List.map_cons, List.foldlM_cons]
      change lexer.defineBracketComment b.line b.opening b.closing >>= _ = _
      rw [call, ok_bind, rest]
    · rw [more.bracket, List.append_assoc]
      rfl

theorem defineEolns {l : List EolnCommentDef} (inv : LoadInv patterns lexer)
    (from_comments : FromComments lexer) (delimited : ∀ c ∈ l, c.opening ≠ "") :
    ∃ lexer', (l.map eolnDefinition).foldlM (defineFrom patterns) lexer = .ok lexer' ∧
      Commented patterns lexer lexer' l [] := by
  induction l generalizing lexer with
  | nil => exact ⟨lexer, rfl, inv, from_comments, by simp, by simp, rfl, rfl, rfl, rfl⟩
  | cons c l ih =>
    have opening := delimited c List.mem_cons_self
    have call : lexer.defineEolnComment c.line c.opening = .ok { lexer with
        eolnComments := lexer.eolnComments ++ [⟨c.line, c.opening⟩]
        firstmap := lexer.firstmap ++ [(firstByte c.opening, MATCH_EOLN_COMMENT)] } :=
      if_neg (by simp [opening])
    obtain ⟨last, rest, more⟩ := ih (inv.defineEolnComment call).1
      (from_comments.eolnComment call)
      fun c' mem => delimited c' (List.mem_cons_of_mem c mem)
    refine ⟨last, ?_, more.inv, more.from_comments, ?_, more.bracket, more.defar, more.namelist,
      more.indent, more.error⟩
    · rw [List.map_cons, List.foldlM_cons]
      change lexer.defineEolnComment c.line c.opening >>= _ = _
      rw [call, ok_bind, rest]
    · rw [more.eoln, List.append_assoc]
      rfl

/-! The names of the indentation. -/

/-- The tokens of the indentation are listed with their names in quotes. -/
def Listed (lexer : Lexer) : Prop :=
  lexer.indentLexems.opening ≠ 0 → ∀ id, lexer.indentLexems.opening ≤ id →
    id ≤ lexer.indentLexems.newLine → ∃ d ∈ lexer.defar, d.id = id ∧
      lexer.namelist[id - 1]? = some (nameString d.name)

theorem Listed.pushed {d : LexemDef} (h : Listed lexer) (push : Pushed lexer lexer' d)
    (by_name : NamedBy lexer lexer' d) : Listed lexer' := by
  intro opened id from_opening to_newline
  rw [push.indentLexems] at opened from_opening to_newline
  obtain ⟨x, mem, id_eq, listed⟩ := h opened id from_opening to_newline
  refine ⟨x, by rw [push.defar]; exact List.mem_append_left _ mem, id_eq, ?_⟩
  cases by_name with
  | unnamed _ _ _ list => rwa [list]
  | known _ _ _ list => rwa [list]
  | fresh entry _ _ _ list =>
    rw [list, List.getElem?_append_left (List.getElem?_eq_some_iff.mp listed).1, listed]

theorem defineLexemId_listed {name : String} {id : Nat} (named : Named lexer)
    (call : lexer.defineLexemId name = .ok (lexer', id)) :
    id = lexer.namelist.length + 1 ∧ lexer'.namelist = lexer.namelist ++ [nameString name] ∧
      ∃ d, d.name = name ∧ d.id = id ∧ lexer'.defar = lexer.defar ++ [d] := by
  unfold defineLexemId at call
  cases found : lexer.nameidmap.find name with
  | some known => simp [SortedMap.insertNew_of_some found] at call
  | none =>
    simp only [SortedMap.insertNew_of_none found] at call
    obtain ⟨rfl, rfl⟩ := Prod.mk.inj (Except.ok.inj call)
    exact ⟨by rw [named.names], rfl, _, rfl, rfl, rfl⟩

theorem listed_of_defineIndentLexems {line tabsize : Int} {opening closing newline : String}
    (named : Named lexer)
    (call : lexer.defineIndentLexems line opening closing newline tabsize = .ok lexer') :
    Listed lexer' := by
  unfold defineIndentLexems at call
  split at call
  · simp at call
  obtain ⟨⟨opened, openid⟩, hopen, call⟩ := bind_eq_ok.mp call
  obtain ⟨⟨closed, closeid⟩, hclose, call⟩ := bind_eq_ok.mp call
  obtain ⟨⟨lined, newlineid⟩, hline, call⟩ := bind_eq_ok.mp call
  obtain ⟨_, -, -, -, push₁, by₁⟩ := Pushed.of_defineLexemId hopen
  obtain ⟨_, -, -, -, push₂, by₂⟩ := Pushed.of_defineLexemId hclose
  have named₁ := named.pushed push₁ by₁
  have named₂ := named₁.pushed push₂ by₂
  obtain ⟨id₁, list₁, d₁, name₁, number₁, defar₁⟩ := defineLexemId_listed named hopen
  obtain ⟨id₂, list₂, d₂, name₂, number₂, defar₂⟩ := defineLexemId_listed named₁ hclose
  obtain ⟨id₃, list₃, d₃, name₃, number₃, defar₃⟩ := defineLexemId_listed named₂ hline
  have defar : lined.defar = lexer.defar ++ [d₁, d₂, d₃] := by simp [defar₃, defar₂, defar₁]
  have list : lined.namelist =
      lexer.namelist ++ [nameString opening, nameString closing, nameString newline] := by
    simp [list₃, list₂, list₁]
  have length₁ : opened.namelist.length = lexer.namelist.length + 1 := by simp [list₁]
  have length₂ : closed.namelist.length = opened.namelist.length + 1 := by simp [list₂]
  obtain rfl := Except.ok.inj call
  intro _ id from_opening to_newline
  simp only at from_opening to_newline
  change ∃ d ∈ lined.defar, d.id = id ∧ lined.namelist[id - 1]? = some (nameString d.name)
  rw [defar, list]
  have three : id = lexer.namelist.length + 1 ∨ id = lexer.namelist.length + 2 ∨
      id = lexer.namelist.length + 3 := by omega
  rcases three with rfl | rfl | rfl
  · exact ⟨d₁, by simp, by omega, by rw [name₁]; simp⟩
  · exact ⟨d₂, by simp, by omega, by rw [name₂]; simp⟩
  · exact ⟨d₃, by simp, by omega, by rw [name₃]; simp⟩

theorem Defined.listed (defined : Defined patterns lexer) : Listed lexer := by
  induction defined with
  | empty => exact fun opened => absurd rfl opened
  | badLexem line name _ ih => exact ih
  | lexem _ h ih | keyword _ h ih | ignore _ h ih =>
    obtain ⟨⟨l, id⟩, call, eq⟩ := bind_eq_ok.mp h
    obtain rfl := Except.ok.inj eq
    obtain ⟨d, push, by_name⟩ := defineLexemWith_spec call
    exact ih.pushed push by_name
  | eolnComment _ h ih =>
    unfold defineEolnComment at h
    split at h
    · simp at h
    · obtain rfl := Except.ok.inj h
      exact ih
  | bracketComment _ h ih =>
    unfold defineBracketComment at h
    split at h
    · simp at h
    · obtain rfl := Except.ok.inj h
      exact ih
  | indentLexems before h _ => exact listed_of_defineIndentLexems before.invariants.1 h

/-! The definitions of a lexer as a whole. -/

theorem getDefinitions_eq (lexer : Lexer) (error : lexer.errorLexem.value ≠ "?") :
    lexer.getDefinitions =
      ⟨lexer.errorLexem.line, .BadLexem, [lexer.errorLexem.value], 0, 0⟩ ::
        (lexer.defar.map LexemDef.definition ++
          (lexer.bracketComments.map bracketDefinition ++
            (lexer.eolnComments.map eolnDefinition ++
              if lexer.indentLexems.defined then
                [⟨lexer.indentLexems.line, .IndentLexems, [], lexer.indentLexems.tabSize,
                  lexer.indentLexems.opening⟩] else []))) := by
  unfold getDefinitions
  rw [if_pos error, List.append_assoc, List.append_assoc, List.append_assoc]
  rfl

/-- What is set for the indentation: the numbers of the tokens follow each other. -/
def indentAgain (lexer : Lexer) (memory : IndentLexems) : IndentLexems :=
  if lexer.indentLexems.defined then
    ⟨lexer.indentLexems.line, lexer.indentLexems.opening, lexer.indentLexems.opening + 1,
      lexer.indentLexems.opening + 2, lexer.indentLexems.tabSize⟩
  else memory

theorem defineIndents (lexer made : Lexer) :
    (if lexer.indentLexems.defined then
      [(⟨lexer.indentLexems.line, .IndentLexems, [], lexer.indentLexems.tabSize,
        lexer.indentLexems.opening⟩ : Definition)] else []).foldlM (defineFrom patterns) made =
      .ok { made with indentLexems := lexer.indentAgain made.indentLexems } := by
  unfold indentAgain
  split
  · have opening : ((lexer.indentLexems.opening : Int) + 0).toNat =
        lexer.indentLexems.opening := by omega
    have closing : ((lexer.indentLexems.opening : Int) + 1).toNat =
        lexer.indentLexems.opening + 1 := by omega
    have newline : ((lexer.indentLexems.opening : Int) + 2).toNat =
        lexer.indentLexems.opening + 2 := by omega
    rw [List.foldlM_cons]
    simp only [defineFrom, Definition.openind, Definition.closeind, Definition.newline,
      Definition.tabsize, opening, closing, newline]
    rfl
  · rfl

theorem sameDefinition_of_entry {d d' : LexemDef} (reg : Registered patterns lexer)
    (blank : ∀ d ∈ lexer.defar, d.name = "" → d.id = 0) (reg' : Registered patterns lexer')
    (blank' : ∀ d ∈ lexer'.defar, d.name = "" → d.id = 0)
    (entries_eq : lexer'.defar.map entryOf = lexer.defar.map entryOf) (mem : d ∈ lexer.defar)
    (mem' : d' ∈ lexer'.defar) (same : entryOf d' = entryOf d) : d.Same d' := by
  obtain ⟨name, source, select, keyword⟩ := Entry.mk.inj same
  have numbers : lexer'.idOf = lexer.idOf := by
    funext e
    unfold idOf lexemId
    rw [reg.number, reg'.number, definedNames_eq reg blank, definedNames_eq reg' blank', entries,
      entries, entries_eq]
  refine ⟨name, ?_, source, select, keyword, fun start => ?_⟩
  · rw [id_eq reg blank mem, id_eq reg' blank' mem', numbers, same]
  · by_cases nothing : d.source = ""
    · rw [tries_of_source nothing, tries_of_source (source.trans nothing)]
    · have activation := (reg.admitted d mem nothing).activation
      have activation' := (reg'.admitted d' mem' (by rwa [source])).activation
      rw [source] at activation'
      have first : d'.activate = d.activate :=
        Except.ok.inj (activation'.symm.trans activation)
      unfold LexemDef.tries
      rw [source, first]

theorem LoadInv.unset (inv : LoadInv patterns lexer) (error : ErrorLexemDef)
    (indent : IndentLexems) :
    LoadInv patterns { lexer with errorLexem := error, indentLexems := indent } := by
  have reg := inv.registered
  exact ⟨⟨reg.number, reg.count, reg.named, reg.unnamed, reg.keyword, reg.fresh, reg.covered,
    reg.flagged, reg.admitted⟩, ⟨inv.indexed.known, inv.indexed.tried, inv.indexed.eoln,
    inv.indexed.bracket⟩, inv.names, inv.blank, inv.order, inv.eoln⟩

/-- What is the same in the lexer that is made again. -/
structure Rebuilt (patterns : PatternEngine) (memory : IndentLexems) (lexer lexer' : Lexer) :
    Prop where
  inv : LoadInv patterns lexer'
  names : NamesWhole lexer'
  from_comments : FromComments lexer'
  entries : lexer'.defar.map entryOf = lexer.defar.map entryOf
  eoln : lexer'.eolnComments = lexer.eolnComments
  bracket : lexer'.bracketComments = lexer.bracketComments
  error : lexer'.errorLexem.value = lexer.errorLexem.value
  indent : lexer'.indentLexems = lexer.indentAgain memory

theorem exists_rebuilt (defined : Defined patterns lexer) {memory : IndentLexems}
    (emptyPattern : ∃ activate, Admits patterns "" activate) (survives : Survives lexer memory) :
    ∃ lexer', ofDefinitions patterns memory lexer.getDefinitions = .ok lexer' ∧
      Rebuilt patterns memory lexer lexer' := by
  have reg := defined.registered
  have delimited := defined.delimited
  have ready : ∀ d ∈ lexer.defar, Ready patterns d := by
    intro d mem
    refine ⟨survives.named d mem, fun keyword => ⟨survives.keyword d mem keyword,
      (reg.keyword d mem keyword).2⟩, ?_⟩
    by_cases nothing : d.source = ""
    · rwa [nothing]
    · exact ⟨_, reg.admitted d mem nothing⟩
  have start : LoadInv patterns
      ((unset memory).defineBadLexem lexer.errorLexem.line lexer.errorLexem.value) :=
    loadInv_empty.unset _ _
  -- the patterns, then the comments, and the indentation at the end
  obtain ⟨a, patterns_made, a_is⟩ := redefine_all ready start (fun d mem => nomatch mem)
    ⟨fun e mem => (nomatch mem), fun e mem => (nomatch mem)⟩ reg.fresh fun e _ _ mem => nomatch mem
  obtain ⟨b, brackets_made, b_is⟩ := defineBrackets a_is.inv a_is.from_comments a_is.eoln
    delimited.bracket
  obtain ⟨c, eolns_made, c_is⟩ := defineEolns b_is.inv b_is.from_comments delimited.eoln
  have run : ofDefinitions patterns memory lexer.getDefinitions =
      .ok { c with indentLexems := lexer.indentAgain c.indentLexems } := by
    rw [getDefinitions_eq lexer survives.error, ofDefinitions, List.foldlM_cons]
    change List.foldlM (defineFrom patterns)
      ((unset memory).defineBadLexem lexer.errorLexem.line lexer.errorLexem.value) _ = _
    rw [List.foldlM_append, patterns_made, ok_bind, List.foldlM_append, brackets_made, ok_bind,
      List.foldlM_append, eolns_made, ok_bind, defineIndents]
  have defar : c.defar = a.defar := c_is.defar.trans b_is.defar
  have namelist : c.namelist = a.namelist := c_is.namelist.trans b_is.namelist
  have names : NamesWhole c := by
    unfold NamesWhole
    rw [defar, namelist]
    exact a_is.names
  refine ⟨_, run, c_is.inv.unset c.errorLexem _, names,
    ⟨c_is.from_comments.eoln, c_is.from_comments.bracket⟩, ?_, ?_, ?_, ?_, ?_⟩
  · rw [defar, a_is.entries]
    rfl
  · rw [c_is.eoln, b_is.eoln, a_is.eoln]
    rfl
  · rw [c_is.bracket, b_is.bracket, a_is.bracket, List.append_nil]
    rfl
  · rw [c_is.error, b_is.error, a_is.error]
    rfl
  · rw [c_is.indent, b_is.indent, a_is.indent]
    rfl

/-- The lexer that is made again has the patterns, comments and names of the lexer it is made of. -/
theorem Rebuilt.alike {memory : IndentLexems} (h : Rebuilt patterns memory lexer lexer')
    (defined : Defined patterns lexer) (survives : Survives lexer memory) :
    Alike lexer lexer' := by
  obtain ⟨named, indexed⟩ := defined.invariants
  have reg := defined.registered
  have blank : ∀ d ∈ lexer.defar, d.name = "" → d.id = 0 :=
    fun d mem empty => absurd empty (survives.named d mem)
  have same_entry : ∀ d ∈ lexer.defar, ∀ d' ∈ lexer'.defar, entryOf d' = entryOf d → d.Same d' :=
    fun d mem d' mem' =>
      sameDefinition_of_entry reg blank h.inv.registered h.inv.blank h.entries mem mem'
  have same : List.Forall₂ LexemDef.Same lexer.defar lexer'.defar := by
    refine List.forall₂_iff_get.mpr ⟨by simpa using (congrArg List.length h.entries).symm, ?_⟩
    intro i bound bound'
    apply same_entry _ (List.get_mem _ _) _ (List.get_mem _ _)
    have at_i := congrArg (fun l => l[i]?) h.entries
    simpa [bound, bound'] using at_i
  have opening : lexer'.indentLexems.defined = lexer.indentLexems.defined := by
    rw [h.indent, indentAgain]
    split
    · rfl
    · rename_i undefined
      rw [survives.indent (by simpa using undefined)]
      simpa using undefined
  have numbers : lexer.indentLexems.defined = true →
      lexer'.indentLexems.tabSize = lexer.indentLexems.tabSize ∧
      ∀ token, lexer'.indentId token = lexer.indentId token := by
    intro defined
    obtain ⟨closing, newLine, -⟩ := named.indent (of_decide_eq_true defined)
    refine ⟨by rw [h.indent, indentAgain, if_pos defined], fun token => ?_⟩
    cases token <;> simp [indentId, h.indent, indentAgain, defined, closing, newLine]
  refine ⟨same, fun text => ?_, h.error, opening, numbers, fun indented token some_token => ?_⟩
  · exact commentAt_same indexed h.inv.indexed defined.fromComments h.from_comments h.eoln
      h.bracket (survives.order text)
      (find_bracket (equalRange_pairwise _ h.inv.order))
  · have opened := of_decide_eq_true indented
    obtain ⟨closing, newLine, -⟩ := named.indent opened
    have inside : lexer.indentLexems.opening ≤ lexer.indentId token ∧
        lexer.indentId token ≤ lexer.indentLexems.newLine := by
      cases token with
      | IndentNone => exact absurd rfl some_token
      | IndentNewLine | IndentOpen | IndentClose =>
        simp only [indentId]
        omega
    obtain ⟨d, mem, number, listed⟩ := defined.listed opened _ inside.1 inside.2
    have again : entryOf d ∈ lexer'.defar.map entryOf :=
      h.entries ▸ List.mem_map.mpr ⟨d, mem, rfl⟩
    obtain ⟨d', mem', entry⟩ := List.mem_map.mp again
    have same := same_entry d mem d' mem' entry
    have apart : ∀ e ∈ lexer'.defar, e.keyword = true → e.id ≠ d'.id := by
      intro e' memEntry keyword number'
      have old : entryOf e' ∈ lexer.defar.map entryOf :=
        h.entries ▸ List.mem_map.mpr ⟨e', memEntry, rfl⟩
      obtain ⟨e, memOld, entry'⟩ := List.mem_map.mp old
      have same' := same_entry e memOld e' memEntry entry'.symm
      have separate := named.separate e memOld (same'.keyword ▸ keyword) opened
      have := same'.id
      have := same.id
      omega
    have listed' := h.names d' mem' (by rw [same.id]; omega) apart
    rw [same.id, same.name, number] at listed'
    rw [listed', listed, survives.quoted d mem ⟨indented, by omega, by omega⟩]

/-- A lexer whose definitions survive is determined by them. -/
theorem determined (engine : PatternSearch) (memory : IndentLexems)
    (defined : Defined patterns lexer) (emptyPattern : patterns.compiles "" = true)
    (survives : Survives lexer memory) : Determined patterns engine memory lexer := by
  have admits : Admits patterns "" [] := ⟨emptyPattern, rfl, by simp⟩
  obtain ⟨lexer', made, rebuilt⟩ := exists_rebuilt defined ⟨[], admits⟩ survives
  refine ⟨lexer', made, fun text lexems s => ?_⟩
  exact (rebuilt.alike defined survives).lexes defined.invariants.2 rebuilt.inv.indexed

/-- A lexer with comments of both kinds that begin alike, with indentation and a keyword. -/
def withKeyword : Except Failure Lexer := do
  let lexer ← (({} : Lexer).defineBadLexem 1 "err").defineBracketComment 1 "#|" "|#"
  let lexer ← lexer.defineEolnComment 2 "#"
  let lexer ← lexer.defineIndentLexems 3 "'\">" "'\"<" "'\"" 4
  lexer.defineKeyword Plain.patterns "if" ""

/-- A lexer with a keyword, and without a name for errors. -/
def withoutError : Except Failure Lexer := ({} : Lexer).defineKeyword Plain.patterns "if" ""

theorem determined_withKeyword : ∃ lexer, withKeyword = .ok lexer ∧
    Determined Plain.patterns Plain.engine ⟨0, 0, 0, 0, 0⟩ lexer := by
  have run : (withKeyword.toOption.any fun lexer =>
      decide (lexer.errorLexem.value = "err") && decide (lexer.indentLexems = ⟨3, 1, 2, 3, 4⟩) &&
      decide (lexer.defar.map (fun d => (entryOf d, d.id)) =
        [(⟨"'\">", "", 0, false⟩, 1), (⟨"'\"<", "", 0, false⟩, 2), (⟨"'\"", "", 0, false⟩, 3),
          (⟨"if", "if", 0, true⟩, 4)]) &&
      decide (lexer.firstmap = [(35, MATCH_BRACKET_COMMENT), (35, MATCH_EOLN_COMMENT),
        (105, 3)])) = true := by decide +kernel
  obtain ⟨lexer, built, checks⟩ := (Option.any_eq_true _ _).mp run
  have built := toOption_eq_some.mp built
  simp only [Bool.and_eq_true, decide_eq_true_eq] at checks
  obtain ⟨⟨⟨error, indent⟩, entries_eq⟩, first⟩ := checks
  have defined : Defined Plain.patterns lexer := by
    obtain ⟨_, bracket, more⟩ := bind_eq_ok.mp built
    obtain ⟨_, eoln, more⟩ := bind_eq_ok.mp more
    obtain ⟨_, indented, keyword⟩ := bind_eq_ok.mp more
    exact .keyword (.indentLexems (.eolnComment (.bracketComment (.badLexem 1 "err" .empty) bracket)
      eoln) indented) keyword
  have listed : ∀ d ∈ lexer.defar, (nameString d.name = d.name ∧ d.keyword = false ∨
      4 ≤ d.id ∧ d.source = stringToRegex d.name) ∧ d.name ≠ "" := by
    intro d mem
    have entry : (entryOf d, d.id) ∈ lexer.defar.map fun d => (entryOf d, d.id) :=
      List.mem_map.mpr ⟨d, mem, rfl⟩
    rw [entries_eq] at entry
    simp only [List.mem_cons, List.not_mem_nil, or_false, Prod.mk.injEq, entryOf,
      Entry.mk.injEq] at entry
    rcases entry with ⟨⟨name, -, -, kind⟩, -⟩ | ⟨⟨name, -, -, kind⟩, -⟩ | ⟨⟨name, -, -, kind⟩, -⟩ |
      ⟨⟨name, source, -, -⟩, number⟩
    · exact ⟨Or.inl ⟨by simp [name, nameString], kind⟩, by simp [name]⟩
    · exact ⟨Or.inl ⟨by simp [name, nameString], kind⟩, by simp [name]⟩
    · exact ⟨Or.inl ⟨by simp [name, nameString], kind⟩, by simp [name]⟩
    · refine ⟨Or.inr ⟨number.ge, ?_⟩, by simp [name]⟩
      rw [name, source]
      decide
  refine ⟨lexer, built, determined Plain.engine ⟨0, 0, 0, 0, 0⟩ defined rfl
    ⟨by rw [error]; decide, fun d mem => (listed d mem).2, fun d mem keyword => ?_, fun _ => rfl,
      fun d mem indents => ?_, fun text _ _ bracket => ?_⟩⟩
  · rcases (listed d mem).1 with ⟨-, other⟩ | ⟨-, source⟩
    · rw [keyword] at other
      cases other
    · exact source
  · rcases (listed d mem).1 with ⟨quoted, -⟩ | ⟨number, -⟩
    · exact quoted
    · have bound := indents.2.2
      rw [indent] at bound
      have bound : d.id ≤ 3 := bound
      omega
  · -- the bracket comment stands before the other one that begins alike
    generalize (text.headD '\x00').toNat = ch at bracket ⊢
    unfold equalRange at bracket ⊢
    rw [first] at bracket ⊢
    by_cases same : ch = 35
    · rw [same]
      decide
    · simp [Ne.symm same, MATCH_BRACKET_COMMENT] at bracket

/-- The name of errors is lost if it is the default one. -/
theorem withoutError_undetermined : ∃ lexer, withoutError = .ok lexer ∧
    ¬ Determined Plain.patterns Plain.engine ⟨0, 0, 0, 0, 0⟩ lexer := by
  have run : (withoutError.toOption.any fun lexer =>
      (ofDefinitions Plain.patterns ⟨0, 0, 0, 0, 0⟩ lexer.getDefinitions).toOption.any fun lexer' =>
        decide ((next Plain.engine lexer 1 (.ofSource ['a'])).toOption.map Prod.fst =
          some ⟨"?", -1, "a", 1⟩) &&
        decide ((next Plain.engine lexer' 1 (.ofSource ['a'])).toOption.map Prod.fst =
          some ⟨"", -1, "a", 1⟩)) = true := by decide +kernel
  obtain ⟨lexer, built, checks⟩ := (Option.any_eq_true _ _).mp run
  obtain ⟨lexer', made, checks⟩ := (Option.any_eq_true _ _).mp checks
  have made := toOption_eq_some.mp made
  simp only [Bool.and_eq_true, decide_eq_true_eq, Option.map_eq_some_iff] at checks
  obtain ⟨⟨⟨lexem, s⟩, read, lexem_eq⟩, ⟨⟨lexem', s'⟩, read', lexem_eq'⟩⟩ := checks
  refine ⟨lexer, toOption_eq_some.mp built, ?_⟩
  rintro ⟨again, made_again, same⟩
  obtain rfl := Except.ok.inj (made.symm.trans made_again)
  have first : Lexes Plain.engine lexer (.ofSource ['a']) [lexem] s :=
    .call .start (by simp) ⟨1, toOption_eq_some.mp read⟩
  have call := ((same _ _ _).mpr first).calls rfl
  obtain ⟨rfl, -⟩ := call.unique ⟨1, toOption_eq_some.mp read'⟩
  rw [lexem_eq] at lexem_eq'
  exact absurd lexem_eq' (by decide)

end Mewa.Lexer
