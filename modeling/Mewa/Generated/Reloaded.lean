/- Module: Mewa/Generated/Reloaded
   digest: The lexer that is made by loading definitions, and when it can be made. -/

import Mewa.Generated.Loading
import Mewa.Lexer.Registry

set_option autoImplicit false
set_option relaxedAutoImplicit false

namespace Mewa.Lexer

open Mewa.Lib

/-- What counts of the definition of a pattern besides of its number. -/
structure Entry where
  name : String
  source : String
  select : Nat
  keyword : Bool
  deriving DecidableEq

def entryOf (d : LexemDef) : Entry := ⟨d.name, d.source, d.select, d.keyword⟩

def loadedEntries (d : Definition) : List Entry :=
  match d.type with
  | .NamedPatternLexem => [⟨printed d.name, printed d.pattern, d.select.toNat, false⟩]
  | .IgnoreLexem => [⟨"", printed d.ignore, 0, false⟩]
  | _ => []

/-- The pattern defined for a keyword. -/
def keywordEntry (name : String) : Entry := ⟨name, stringToRegex name, 0, !name.isEmpty⟩

/-- The begin of an end of line comment loaded from a definition. -/
def loadedEoln (d : Definition) : List String :=
  if d.type = .EolnComment then [printed d.start] else []

def loadedBracket (d : Definition) : List (String × String) :=
  if d.type = .BracketComment then [(printed d.start, printed d.stop)] else []

/-- What holds of a lexer while it is loaded. Bracket comments are looked for first. -/
structure LoadInv (patterns : PatternEngine) (lexer : Lexer) : Prop where
  registered : Registered patterns lexer
  indexed : Indexed lexer
  names : lexer.namelist.length = lexer.nameidmap.entries.length
  blank : ∀ d ∈ lexer.defar, d.name = "" → d.id = 0
  order : lexer.firstmap.Pairwise fun e f => f.2 = MATCH_BRACKET_COMMENT → e.2 ≠ MATCH_EOLN_COMMENT
  eoln : ∀ e ∈ lexer.firstmap, e.2 = MATCH_EOLN_COMMENT → lexer.eolnComments ≠ []

/-- What a lexer has more than another. -/
structure Made (lexer lexer' : Lexer) (entries : List Entry) (eolns : List String)
    (brackets : List (String × String)) : Prop where
  defar : lexer'.defar.map entryOf = lexer.defar.map entryOf ++ entries
  eoln : lexer'.eolnComments.map EolnCommentDef.opening =
    lexer.eolnComments.map EolnCommentDef.opening ++ eolns
  bracket : lexer'.bracketComments.map (fun c => (c.opening, c.closing)) =
    lexer.bracketComments.map (fun c => (c.opening, c.closing)) ++ brackets

variable {patterns : PatternEngine} {lexer lexer' : Lexer}

theorem loadInv_empty : LoadInv patterns {} where
  registered := registered_empty
  indexed := indexed_empty
  names := rfl
  blank := by simp
  order := by simp
  eoln := by simp

theorem Made.refl (lexer : Lexer) : Made lexer lexer [] [] [] := ⟨by simp, by simp, by simp⟩

theorem Made.trans {lexer'' : Lexer} {entries entries' : List Entry} {eolns eolns' : List String}
    {brackets brackets' : List (String × String)} (h : Made lexer lexer' entries eolns brackets)
    (h' : Made lexer' lexer'' entries' eolns' brackets') :
    Made lexer lexer'' (entries ++ entries') (eolns ++ eolns') (brackets ++ brackets') :=
  ⟨by rw [h'.defar, h.defar, List.append_assoc], by rw [h'.eoln, h.eoln, List.append_assoc],
    by rw [h'.bracket, h.bracket, List.append_assoc]⟩

theorem LoadInv.defineLexem_ {line : Int} {name pattern : String} {keyword : Bool}
    {select id : Nat} (inv : LoadInv patterns lexer) (whole : keyword = true → select = 0)
    (call : lexer.defineLexem_ patterns line name pattern keyword select = .ok (lexer', id)) :
    LoadInv patterns lexer' ∧
      Made lexer lexer' [⟨name, pattern, select, keyword && !name.isEmpty⟩] [] [] ∧
      lexer'.indentLexems = lexer.indentLexems := by
  obtain ⟨activate, admits, adds⟩ := defineLexem_adds call
  have registered := inv.registered.adds admits whole adds
  obtain ⟨d, push, by_name⟩ := defineLexemWith_spec call
  have names : lexer'.namelist.length = lexer'.nameidmap.entries.length := by
    cases by_name with
    | unnamed _ _ names list => rw [names, list, inv.names]
    | known _ _ names list => rw [names, list, inv.names]
    | fresh entry absent _ names list =>
      rw [names, list, SortedMap.length_set_of_none absent, List.length_append, inv.names]
      rfl
  have last : entryOf d = ⟨name, pattern, select, keyword && !name.isEmpty⟩ ∧
      (d.name = "" → d.id = 0) := by
    have defar := push.defar
    have same : ∀ x : LexemDef, lexer.defar ++ [x] = lexer.defar ++ [d] → x = d := by
      intro x eq
      simpa using eq
    cases adds with
    | unnamed empty =>
      obtain rfl := same _ defar
      subst empty
      simp [entryOf]
    | fresh entry some_name new =>
      obtain rfl := same _ defar
      simp [entryOf, some_name]
    | known some_name plain found =>
      obtain rfl := same _ defar
      subst plain
      simp [entryOf, some_name]
  refine ⟨⟨registered, inv.indexed.pushed push, names, ?_, ?_, ?_⟩, ⟨?_, ?_, ?_⟩,
    push.indentLexems⟩
  · intro x mem
    rw [push.defar] at mem
    rcases List.mem_append.mp mem with old | new
    · exact inv.blank x old
    · rw [List.mem_singleton.mp new]
      exact last.2
  · rw [push.firstmap]
    have entries : ∀ f ∈ ((List.range 256).filter fun ch => d.tries ch).map
        (fun ch => (ch, (lexer.defar.length : Int))), f.2 ≠ MATCH_BRACKET_COMMENT := by
      intro f mem is_bracket
      obtain ⟨ch, -, rfl⟩ := List.mem_map.mp mem
      simp only [MATCH_BRACKET_COMMENT] at is_bracket
      omega
    refine List.pairwise_append.mpr ⟨inv.order, ?_, fun e _ f mem is_bracket =>
      absurd is_bracket (entries f mem)⟩
    exact List.pairwise_of_forall_mem_list fun e _ f mem is_bracket =>
      absurd is_bracket (entries f mem)
  · intro e mem is_eoln
    rw [push.firstmap] at mem
    rw [push.eolnComments]
    rcases List.mem_append.mp mem with old | new
    · exact inv.eoln e old is_eoln
    · obtain ⟨ch, -, rfl⟩ := List.mem_map.mp new
      simp only [MATCH_EOLN_COMMENT] at is_eoln
      omega
  · rw [push.defar, List.map_append, List.map_singleton, last.1]
  · rw [push.eolnComments, List.append_nil]
  · rw [push.bracketComments, List.append_nil]

theorem LoadInv.defineEolnComment {line : Int} {opr : String} (inv : LoadInv patterns lexer)
    (call : lexer.defineEolnComment line opr = .ok lexer') :
    LoadInv patterns lexer' ∧ Made lexer lexer' [] [opr] [] ∧
      lexer'.indentLexems = lexer.indentLexems := by
  unfold Lexer.defineEolnComment at call
  split at call
  · simp at call
  obtain rfl := Except.ok.inj call
  have reg := inv.registered
  refine ⟨⟨⟨reg.number, reg.count, reg.named, reg.unnamed, reg.keyword, reg.fresh, reg.covered,
    reg.flagged, reg.admitted⟩, inv.indexed.comment (Or.inl rfl) rfl rfl (fun comment mem => ?_)
    fun comment mem => Or.inl mem, inv.names, inv.blank, ?_, fun e mem _ => ?_⟩,
    ⟨by simp, by simp, by simp⟩, rfl⟩
  · rcases List.mem_append.mp mem with old | new
    · exact Or.inl old
    · rw [List.mem_singleton.mp new]
      exact Or.inr rfl
  · refine List.pairwise_append.mpr ⟨inv.order, List.pairwise_singleton _ _, ?_⟩
    intro e _ f single is_bracket
    rw [List.mem_singleton.mp single] at is_bracket
    exact absurd is_bracket (show ¬ MATCH_EOLN_COMMENT = MATCH_BRACKET_COMMENT by decide)
  · simp

theorem LoadInv.defineBracketComment {line : Int} {start stop : String}
    (inv : LoadInv patterns lexer) (first : lexer.eolnComments = [])
    (call : lexer.defineBracketComment line start stop = .ok lexer') :
    LoadInv patterns lexer' ∧ Made lexer lexer' [] [] [(start, stop)] ∧
      lexer'.indentLexems = lexer.indentLexems := by
  unfold Lexer.defineBracketComment at call
  split at call
  · simp at call
  obtain rfl := Except.ok.inj call
  have reg := inv.registered
  refine ⟨⟨⟨reg.number, reg.count, reg.named, reg.unnamed, reg.keyword, reg.fresh, reg.covered,
    reg.flagged, reg.admitted⟩, inv.indexed.comment (Or.inr rfl) rfl rfl
    (fun comment mem => Or.inl mem) fun comment mem => ?_, inv.names, inv.blank, ?_, ?_⟩,
    ⟨by simp, by simp, by simp⟩, rfl⟩
  · rcases List.mem_append.mp mem with old | new
    · exact Or.inl old
    · rw [List.mem_singleton.mp new]
      exact Or.inr rfl
  · refine List.pairwise_append.mpr ⟨inv.order, List.pairwise_singleton _ _, ?_⟩
    intro e mem f _ _ is_eoln
    exact inv.eoln e mem is_eoln first
  · intro e mem is_eoln
    rcases List.mem_append.mp mem with old | new
    · exact inv.eoln e old is_eoln
    · rw [List.mem_singleton.mp new] at is_eoln
      exact absurd is_eoln (show ¬ MATCH_BRACKET_COMMENT = MATCH_EOLN_COMMENT by decide)

def indentOf (d : Definition) (indent : IndentLexems) : IndentLexems :=
  if d.type = .IndentLexems then
    ⟨0, d.openind.toNat, d.openind.toNat + 1, d.openind.toNat + 2, d.tabsize⟩
  else indent

theorem LoadInv.loadDefinition {d : Definition} (inv : LoadInv patterns lexer)
    (first : d.type = .BracketComment → lexer.eolnComments = [])
    (call : loadDefinition patterns lexer d = .ok lexer') :
    LoadInv patterns lexer' ∧
      Made lexer lexer' (loadedEntries d) (loadedEoln d) (loadedBracket d) ∧
      lexer'.indentLexems = indentOf d lexer.indentLexems := by
  have reg := inv.registered
  unfold Lexer.loadDefinition at call
  unfold loadedEntries loadedEoln loadedBracket indentOf
  cases type : d.type with
  | BadLexem =>
    simp only [type] at call
    obtain rfl := Except.ok.inj call
    exact ⟨⟨⟨reg.number, reg.count, reg.named, reg.unnamed, reg.keyword, reg.fresh, reg.covered,
      reg.flagged, reg.admitted⟩, ⟨inv.indexed.known, inv.indexed.tried, inv.indexed.eoln,
      inv.indexed.bracket⟩, inv.names, inv.blank, inv.order, inv.eoln⟩,
      ⟨by simp [defineBadLexem], by simp [defineBadLexem], by simp [defineBadLexem]⟩,
      by simp [defineBadLexem]⟩
  | NamedPatternLexem =>
    simp only [type] at call
    obtain ⟨⟨l, id⟩, defined, eq⟩ := bind_eq_ok.mp call
    obtain rfl := Except.ok.inj eq
    simpa using inv.defineLexem_ (fun no => Bool.noConfusion no) defined
  | KeywordLexem =>
    simp only [type] at call
    obtain rfl := Except.ok.inj call
    exact ⟨inv, by simpa using Made.refl lexer, by simp⟩
  | IgnoreLexem =>
    simp only [type] at call
    obtain ⟨⟨l, id⟩, defined, eq⟩ := bind_eq_ok.mp call
    obtain rfl := Except.ok.inj eq
    simpa using inv.defineLexem_ (fun _ => rfl) defined
  | EolnComment =>
    simp only [type] at call
    simpa using inv.defineEolnComment call
  | BracketComment =>
    simp only [type] at call
    simpa using inv.defineBracketComment (first type) call
  | IndentLexems =>
    simp only [type] at call
    obtain rfl := Except.ok.inj call
    exact ⟨⟨⟨reg.number, reg.count, reg.named, reg.unnamed, reg.keyword, reg.fresh, reg.covered,
      reg.flagged, reg.admitted⟩, ⟨inv.indexed.known, inv.indexed.tried, inv.indexed.eoln,
      inv.indexed.bracket⟩, inv.names, inv.blank, inv.order, inv.eoln⟩,
      ⟨by simp, by simp, by simp⟩, by simp⟩

theorem LoadInv.fold {ds : List Definition} (inv : LoadInv patterns lexer)
    (order : ds.Pairwise fun d e => e.type = .BracketComment → d.type ≠ .EolnComment)
    (first : ∀ d ∈ ds, d.type = .BracketComment → lexer.eolnComments = [])
    (call : ds.foldlM (Lexer.loadDefinition patterns) lexer = .ok lexer') :
    LoadInv patterns lexer' ∧
      Made lexer lexer' (ds.flatMap loadedEntries) (ds.flatMap loadedEoln)
        (ds.flatMap loadedBracket) ∧
      lexer'.indentLexems = ds.foldl (fun indent d => indentOf d indent) lexer.indentLexems := by
  induction ds generalizing lexer with
  | nil =>
    obtain rfl := Except.ok.inj call
    exact ⟨inv, Made.refl lexer, rfl⟩
  | cons d ds ih =>
    obtain ⟨before, order⟩ := List.pairwise_cons.mp order
    rw [List.foldlM_cons] at call
    obtain ⟨next, here, call⟩ := bind_eq_ok.mp call
    obtain ⟨inv, made, indent⟩ := inv.loadDefinition (first d List.mem_cons_self) here
    have later : ∀ e ∈ ds, e.type = .BracketComment → next.eolnComments = [] := by
      intro e mem is_bracket
      have nothing : loadedEoln d = [] := if_neg (before e mem is_bracket)
      have same := made.eoln
      rw [nothing, first e (List.mem_cons_of_mem d mem) is_bracket] at same
      simpa using same
    obtain ⟨inv, more, indent'⟩ := ih inv order later call
    refine ⟨inv, ?_, ?_⟩
    · rw [List.flatMap_cons, List.flatMap_cons, List.flatMap_cons]
      exact made.trans more
    · rw [indent', indent]
      rfl

theorem LoadInv.keywords {names : List String} (inv : LoadInv patterns lexer)
    (call : names.foldlM (fun lexer keyword => lexer.defineKeyword patterns keyword "") lexer =
      .ok lexer') :
    LoadInv patterns lexer' ∧ Made lexer lexer' (names.map keywordEntry) [] [] ∧
      lexer'.indentLexems = lexer.indentLexems := by
  induction names generalizing lexer with
  | nil =>
    obtain rfl := Except.ok.inj call
    exact ⟨inv, Made.refl lexer, rfl⟩
  | cons name names ih =>
    rw [List.foldlM_cons] at call
    obtain ⟨next, here, call⟩ := bind_eq_ok.mp call
    obtain ⟨⟨l, id⟩, defined, eq⟩ := bind_eq_ok.mp here
    obtain rfl := Except.ok.inj eq
    obtain ⟨inv, made, indent⟩ := inv.defineLexem_ (fun _ => rfl) defined
    obtain ⟨inv, more, indent'⟩ := ih inv call
    refine ⟨inv, ?_, indent'.trans indent⟩
    have step := made.trans more
    rw [String.append_empty] at step
    exact step

/-- What a definition needs to be loaded. -/
def Loadable (patterns : PatternEngine) (d : Definition) : Prop :=
  match d.type with
  | .NamedPatternLexem => ∃ activate, Admits patterns (printed d.pattern) activate
  | .IgnoreLexem => ∃ activate, Admits patterns (printed d.ignore) activate
  | .EolnComment => printed d.start ≠ ""
  | .BracketComment => printed d.start ≠ "" ∧ printed d.stop ≠ ""
  | _ => True

theorem loadDefinition_ok {d : Definition} (loadable : Loadable patterns d) (lexer : Lexer) :
    ∃ lexer', Lexer.loadDefinition patterns lexer d = .ok lexer' := by
  unfold Lexer.loadDefinition
  unfold Loadable at loadable
  cases type : d.type with
  | BadLexem => exact ⟨_, rfl⟩
  | NamedPatternLexem =>
    simp only [type] at loadable
    obtain ⟨activate, admits⟩ := loadable
    obtain ⟨l, id, defined⟩ := defineLexem_ok lexer 0 (printed d.name) false d.select.toNat admits
      fun no => Bool.noConfusion no
    exact ⟨l, by simp only [defineLexem, defined, ok_bind]⟩
  | KeywordLexem => exact ⟨_, rfl⟩
  | IgnoreLexem =>
    simp only [type] at loadable
    obtain ⟨activate, admits⟩ := loadable
    obtain ⟨l, id, defined⟩ := defineLexem_ok lexer 0 "" false 0 admits
      fun no => Bool.noConfusion no
    exact ⟨l, by simp only [defineIgnore, defined, ok_bind]⟩
  | EolnComment =>
    simp only [type] at loadable
    exact ⟨_, if_neg (by simpa using loadable)⟩
  | BracketComment =>
    simp only [type] at loadable
    exact ⟨_, if_neg (by simpa using loadable)⟩
  | IndentLexems => exact ⟨_, rfl⟩

theorem fold_ok {ds : List Definition} (loadable : ∀ d ∈ ds, Loadable patterns d)
    (lexer : Lexer) : ∃ lexer', ds.foldlM (Lexer.loadDefinition patterns) lexer = .ok lexer' := by
  induction ds generalizing lexer with
  | nil => exact ⟨lexer, rfl⟩
  | cons d ds ih =>
    obtain ⟨next, here⟩ := loadDefinition_ok (loadable d List.mem_cons_self) lexer
    obtain ⟨last, rest⟩ := ih (fun e mem => loadable e (List.mem_cons_of_mem d mem)) next
    exact ⟨last, by rw [List.foldlM_cons, here, ok_bind, rest]⟩

theorem keywords_ok {names : List String} (inv : LoadInv patterns lexer)
    (admits : ∀ name ∈ names, ∃ activate, Admits patterns (stringToRegex name) activate)
    (distinct : names.Nodup) (new : ∀ name ∈ names, ∀ d ∈ lexer.defar, d.name ≠ name) :
    ∃ lexer', names.foldlM (fun lexer keyword => lexer.defineKeyword patterns keyword "") lexer =
      .ok lexer' := by
  induction names generalizing lexer with
  | nil => exact ⟨lexer, rfl⟩
  | cons name names ih =>
    obtain ⟨other, distinct⟩ := List.nodup_cons.mp distinct
    obtain ⟨activate, admitted⟩ := admits name List.mem_cons_self
    have absent : lexer.nameidmap.find name = none := by
      rw [inv.registered.number]
      refine if_neg fun mem => ?_
      obtain ⟨d, inside, same⟩ := List.mem_map.mp mem
      exact new name List.mem_cons_self d (List.mem_filter.mp inside).1 same
    rw [← String.append_empty (s := name)] at admitted
    obtain ⟨l, id, defined⟩ := defineLexem_ok lexer 0 name true 0 admitted fun _ => absent
    obtain ⟨inv, made, -⟩ := inv.defineLexem_ (fun _ => rfl) defined
    have later : ∀ k ∈ names, ∀ d ∈ l.defar, d.name ≠ k := by
      intro k mem d inside same
      have entry : entryOf d ∈ l.defar.map entryOf := List.mem_map_of_mem inside
      rw [made.defar] at entry
      rcases List.mem_append.mp entry with old | last
      · obtain ⟨d', inside', same'⟩ := List.mem_map.mp old
        have name_eq : d'.name = d.name := congrArg Entry.name same'
        exact new k (List.mem_cons_of_mem name mem) d' inside' (name_eq.trans same)
      · have name_eq : d.name = name := congrArg Entry.name (List.mem_singleton.mp last)
        rw [← same, name_eq] at mem
        exact other mem
    obtain ⟨last, rest⟩ := ih inv (fun k mem => admits k (List.mem_cons_of_mem name mem)) distinct
      later
    exact ⟨last, by rw [List.foldlM_cons, defineKeyword, defined, ok_bind, ok_bind, rest]⟩

end Mewa.Lexer
