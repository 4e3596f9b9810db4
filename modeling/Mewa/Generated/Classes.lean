/- Module: Mewa/Generated/Classes
   digest: The classes of definitions of a lexer and what is loaded of each of them. -/

import Mewa.Generated.Reloaded

set_option autoImplicit false
set_option relaxedAutoImplicit false

namespace Mewa.Lexer

open Mewa.Lib

/-- The three kinds of patterns: ignored ones, keywords and tokens. -/
def isIgnored (e : Entry) : Bool := e.name.isEmpty

def isToken (e : Entry) : Bool := !e.name.isEmpty && !e.keyword

def isKeywordEntry (e : Entry) : Bool := !e.name.isEmpty && e.keyword

def entries (lexer : Lexer) : List Entry := lexer.defar.map entryOf

def tokenEntry (e : Entry) : Entry := ⟨printed e.name, printed e.source, e.select, false⟩

def ignoredEntry (e : Entry) : Entry := ⟨"", printed e.source, 0, false⟩

variable (lexer : Lexer)

theorem classOf_append (ds ds' : List Definition) (c : String) :
    classOf (ds ++ ds') c = classOf ds c ++ classOf ds' c := List.filter_append ..

theorem classOf_map {α : Type} (l : List α) (f : α → Definition) (type : DefinitionType)
    (kind : ∀ a, (f a).type = type) (c : String) :
    classOf (l.map f) c = if type.typeName = c then l.map f else [] := by
  unfold classOf
  split
  · rename_i same
    refine List.filter_eq_self.mpr fun d mem => ?_
    obtain ⟨a, -, rfl⟩ := List.mem_map.mp mem
    simp [kind, same]
  · rename_i other
    refine List.filter_eq_nil_iff.mpr fun d mem => ?_
    obtain ⟨a, -, rfl⟩ := List.mem_map.mp mem
    simp [kind, other]

theorem classOf_single (d : Definition) (p : Prop) [Decidable p] (c : String) :
    classOf (if p then [d] else []) c = if p ∧ d.type.typeName = c then [d] else [] := by
  unfold classOf
  by_cases here : p <;> by_cases same : d.type.typeName = c <;> simp [here, same]

theorem classOf_defar (c : String) : classOf (lexer.defar.map LexemDef.definition) c =
    (lexer.defar.filter fun d => d.definition.type.typeName = c).map LexemDef.definition := by
  unfold classOf
  rw [List.filter_map]
  rfl

theorem classOf_getDefinitions (c : String) : classOf lexer.getDefinitions c =
    (if lexer.errorLexem.value ≠ "?" ∧ "bad" = c then
      [⟨lexer.errorLexem.line, .BadLexem, [lexer.errorLexem.value], 0, 0⟩] else []) ++
    (lexer.defar.filter fun d => d.definition.type.typeName = c).map LexemDef.definition ++
    (if "comment" = c then lexer.bracketComments.map (fun bc =>
      ⟨bc.line, .BracketComment, [bc.opening, bc.closing], 0, MATCH_BRACKET_COMMENT⟩) else []) ++
    (if "comment" = c then lexer.eolnComments.map (fun cc =>
      ⟨cc.line, .EolnComment, [cc.opening], 0, MATCH_EOLN_COMMENT⟩) else []) ++
    (if lexer.indentLexems.defined ∧ "indentl" = c then
      [⟨lexer.indentLexems.line, .IndentLexems, [], lexer.indentLexems.tabSize,
        lexer.indentLexems.opening⟩] else []) := by
  unfold getDefinitions
  simp only [classOf_append, classOf_single, classOf_defar]
  rw [classOf_map _ _ .BracketComment (fun _ => rfl), classOf_map _ _ .EolnComment (fun _ => rfl)]
  rfl

theorem definition_type (d : LexemDef) : d.definition.type =
    if d.name.isEmpty then .IgnoreLexem
    else if d.keyword then .KeywordLexem else .NamedPatternLexem := by
  unfold LexemDef.definition
  split
  · rfl
  · split <;> rfl

theorem definition_class (d : LexemDef) :
    (d.definition.type.typeName = "ignore" ↔ isIgnored (entryOf d) = true) ∧
    (d.definition.type.typeName = "token" ↔ isToken (entryOf d) = true) ∧
    (d.definition.type.typeName = "keyword" ↔ isKeywordEntry (entryOf d) = true) ∧
    d.definition.type.typeName ≠ "bad" ∧ d.definition.type.typeName ≠ "comment" ∧
    d.definition.type.typeName ≠ "indentl" := by
  rw [definition_type]
  unfold isIgnored isToken isKeywordEntry entryOf
  cases d.name.isEmpty <;> cases d.keyword <;> simp [DefinitionType.typeName]

theorem regular_getDefinitions : Regular lexer.getDefinitions where
  select := by
    intro d mem type
    unfold getDefinitions at mem
    simp only [List.mem_append, List.mem_map] at mem
    rcases mem with (((bad | ⟨x, -, rfl⟩) | ⟨x, -, rfl⟩) | ⟨x, -, rfl⟩) | indent
    · split at bad
      · rw [List.mem_singleton.mp bad] at type
        simp at type
      · simp at bad
    · unfold LexemDef.definition at type ⊢
      split
      · simp
      · split
        · simp
        · exact Int.natCast_nonneg _
    · simp at type
    · simp at type
    · split at indent
      · rw [List.mem_singleton.mp indent] at type
        simp at type
      · simp at indent
  indent := by
    have none_of : lexer.defar.filter
        (fun d => decide (d.definition.type.typeName = "indentl")) = [] :=
      List.filter_eq_nil_iff.mpr fun d _ => by simp [(definition_class d).2.2.2.2.2]
    rw [classOf_getDefinitions, none_of]
    cases lexer.indentLexems.defined <;> simp

/-- The patterns of a class as they are loaded. -/
def loadedOf (c : String) : List Entry :=
  if c = "token" then ((entries lexer).filter isToken).map tokenEntry
  else if c = "ignore" then ((entries lexer).filter isIgnored).map ignoredEntry
  else []

theorem loadedEntries_definition (d : LexemDef) : loadedEntries d.definition =
    if isIgnored (entryOf d) then [ignoredEntry (entryOf d)]
    else if isToken (entryOf d) then [tokenEntry (entryOf d)] else [] := by
  unfold loadedEntries LexemDef.definition isIgnored isToken entryOf ignoredEntry tokenEntry
  cases empty : d.name.isEmpty <;> cases d.keyword <;>
    simp [Definition.name, Definition.pattern, Definition.ignore]

theorem flatMap_loadedEntries {l : List LexemDef} {f : Entry → Entry}
    (same : ∀ d ∈ l, loadedEntries d.definition = [f (entryOf d)]) :
    (l.map LexemDef.definition).flatMap loadedEntries = (l.map entryOf).map f := by
  induction l with
  | nil => rfl
  | cons d l ih =>
    rw [List.map_cons, List.flatMap_cons, same d List.mem_cons_self,
      ih fun e mem => same e (List.mem_cons_of_mem d mem)]
    rfl

theorem flatMap_eq_nil_of {α β : Type} {l : List α} {f : α → List β} (none_of : ∀ a ∈ l, f a = []) :
    l.flatMap f = [] := List.flatMap_eq_nil_iff.mpr none_of

theorem filter_entries (p : Entry → Bool) :
    (lexer.defar.filter fun d => p (entryOf d)).map entryOf = (entries lexer).filter p := by
  unfold entries
  rw [List.filter_map]
  rfl

theorem class_of_kind {c : String} {p : Entry → Bool}
    (kind : ∀ d : LexemDef, d.definition.type.typeName = c ↔ p (entryOf d) = true) :
    (lexer.defar.filter fun d => decide (d.definition.type.typeName = c)) =
      lexer.defar.filter fun d => p (entryOf d) := by
  refine List.filter_congr fun d _ => ?_
  cases here : p (entryOf d) with
  | true => simpa using (kind d).mpr here
  | false =>
    have other : ¬ d.definition.type.typeName = c := fun same => by
      rw [(kind d).mp same] at here
      exact Bool.noConfusion here
    simpa using other

theorem classOf_keyword : classOf lexer.getDefinitions "keyword" =
    (lexer.defar.filter fun d => isKeywordEntry (entryOf d)).map LexemDef.definition := by
  rw [classOf_getDefinitions, lexer.class_of_kind fun d => (definition_class d).2.2.1]
  simp

theorem classOf_token : classOf lexer.getDefinitions "token" =
    (lexer.defar.filter fun d => isToken (entryOf d)).map LexemDef.definition := by
  rw [classOf_getDefinitions, lexer.class_of_kind fun d => (definition_class d).2.1]
  simp

theorem classOf_ignore : classOf lexer.getDefinitions "ignore" =
    (lexer.defar.filter fun d => isIgnored (entryOf d)).map LexemDef.definition := by
  rw [classOf_getDefinitions, lexer.class_of_kind fun d => (definition_class d).1]
  simp

theorem keywordNames_eq : keywordNames lexer.getDefinitions =
    ((entries lexer).filter isKeywordEntry).map fun e => printed e.name := by
  unfold keywordNames
  rw [classOf_keyword, ← filter_entries, List.map_map, List.map_map]
  refine List.map_congr_left fun d mem => ?_
  have keyword := (List.mem_filter.mp mem).2
  simp only [isKeywordEntry, entryOf, Bool.and_eq_true, Bool.not_eq_true'] at keyword
  simp [LexemDef.definition, keyword, Definition.name, entryOf]

theorem loadedEntries_class (c : String) :
    (classOf lexer.getDefinitions c).flatMap loadedEntries = loadedOf lexer c := by
  unfold loadedOf
  split
  · rename_i same
    rw [same, classOf_token, flatMap_loadedEntries, filter_entries]
    intro d mem
    have token := (List.mem_filter.mp mem).2
    have named : isIgnored (entryOf d) = false := by
      unfold isToken at token
      unfold isIgnored
      cases empty : (entryOf d).name.isEmpty <;> simp_all
    simp [loadedEntries_definition, named, token]
  · split
    · rename_i same
      rw [same, classOf_ignore, flatMap_loadedEntries, filter_entries]
      intro d mem
      simp [loadedEntries_definition, (List.mem_filter.mp mem).2]
    · rename_i no_token no_ignore
      refine flatMap_eq_nil_of fun d mem => ?_
      have name := (mem_classOf.mp mem).2
      unfold loadedEntries
      cases type : d.type with
      | NamedPatternLexem =>
        rw [type] at name
        exact absurd name.symm no_token
      | IgnoreLexem =>
        rw [type] at name
        exact absurd name.symm no_ignore
      | _ => rfl

theorem classOf_comment : classOf lexer.getDefinitions "comment" =
    lexer.bracketComments.map (fun bc =>
      ⟨bc.line, .BracketComment, [bc.opening, bc.closing], 0, MATCH_BRACKET_COMMENT⟩) ++
    lexer.eolnComments.map (fun cc =>
      ⟨cc.line, .EolnComment, [cc.opening], 0, MATCH_EOLN_COMMENT⟩) := by
  have none_of : lexer.defar.filter
      (fun d => decide (d.definition.type.typeName = "comment")) = [] :=
    List.filter_eq_nil_iff.mpr fun d _ => by simp [(definition_class d).2.2.2.2.1]
  rw [classOf_getDefinitions, none_of]
  simp

theorem classOf_indentl : classOf lexer.getDefinitions "indentl" =
    if lexer.indentLexems.defined then
      [⟨lexer.indentLexems.line, .IndentLexems, [], lexer.indentLexems.tabSize,
        lexer.indentLexems.opening⟩] else [] := by
  have none_of : lexer.defar.filter
      (fun d => decide (d.definition.type.typeName = "indentl")) = [] :=
    List.filter_eq_nil_iff.mpr fun d _ => by simp [(definition_class d).2.2.2.2.2]
  rw [classOf_getDefinitions, none_of]
  simp

theorem nodup_usedClasses (ds : List Definition) : (usedClasses ds).Nodup :=
  List.Nodup.filter _ (by decide)

section Order

variable {lexer} {classes : List String}

theorem flatMap_single {β : Type} (all : classes.Perm (usedClasses lexer.getDefinitions))
    {f : String → List β} {c : String} (others : ∀ c', c' ≠ c → f c' = [])
    (unused : classOf lexer.getDefinitions c = [] → f c = []) : classes.flatMap f = f c := by
  have nodup : classes.Nodup := all.nodup_iff.mpr (nodup_usedClasses _)
  have missing : c ∉ classes → f c = [] := by
    intro no
    refine unused (List.eq_nil_iff_forall_not_mem.mpr fun d mem => no (all.mem_iff.mpr ?_))
    exact mem_usedClasses.mpr ⟨d, mem_classOf.mp mem⟩
  clear all
  induction classes with
  | nil => rw [missing (by simp)]; rfl
  | cons c' classes ih =>
    obtain ⟨no, nodup⟩ := List.nodup_cons.mp nodup
    rw [List.flatMap_cons]
    by_cases same : c' = c
    · subst same
      have rest : classes.flatMap f = [] :=
        flatMap_eq_nil_of fun x mem => others x fun same => no (same ▸ mem)
      rw [rest, List.append_nil]
    · rw [others c' same, List.nil_append]
      exact ih nodup fun no' => missing (by simp [no', Ne.symm same])

theorem flatMap_class {β : Type} (all : classes.Perm (usedClasses lexer.getDefinitions))
    {f : Definition → List β} {c : String}
    (only : ∀ d, f d ≠ [] → d.type.typeName = c) :
    (classes.flatMap (classOf lexer.getDefinitions)).flatMap f =
      (classOf lexer.getDefinitions c).flatMap f := by
  rw [List.flatMap_assoc]
  refine flatMap_single all (fun c' other => flatMap_eq_nil_of fun d mem => ?_) fun unused => ?_
  · by_contra some_part
    exact other ((mem_classOf.mp mem).2.symm.trans (only d some_part))
  · rw [unused]
    rfl

theorem brackets_first (all : classes.Perm (usedClasses lexer.getDefinitions)) :
    (classes.flatMap (classOf lexer.getDefinitions)).Pairwise
      fun d e => e.type = .BracketComment → d.type ≠ .EolnComment := by
  refine List.pairwise_flatMap.mpr ⟨fun c _ => ?_, ?_⟩
  · by_cases comment : c = "comment"
    · rw [comment, classOf_comment]
      refine List.pairwise_append.mpr ⟨?_, ?_, ?_⟩
      · refine List.pairwise_of_forall_mem_list fun d mem e _ _ => ?_
        obtain ⟨bc, -, rfl⟩ := List.mem_map.mp mem
        simp
      · refine List.pairwise_of_forall_mem_list fun d _ e mem bracket => ?_
        obtain ⟨cc, -, rfl⟩ := List.mem_map.mp mem
        simp at bracket
      · intro d mem e _ _
        obtain ⟨bc, -, rfl⟩ := List.mem_map.mp mem
        simp
    · refine List.pairwise_of_forall_mem_list fun d mem e _ _ eoln => comment ?_
      rw [← (mem_classOf.mp mem).2, eoln]
      rfl
  · have nodup : classes.Nodup := all.nodup_iff.mpr (nodup_usedClasses _)
    refine nodup.imp fun {c c'} other d mem e mem' bracket eoln => other ?_
    rw [← (mem_classOf.mp mem).2, ← (mem_classOf.mp mem').2, bracket, eoln]
    rfl

theorem eolns_loaded (all : classes.Perm (usedClasses lexer.getDefinitions)) :
    (classes.flatMap (classOf lexer.getDefinitions)).flatMap loadedEoln =
      lexer.eolnComments.map fun c => printed c.opening := by
  rw [flatMap_class (c := "comment") all, classOf_comment, List.flatMap_append]
  · have none_of : (lexer.bracketComments.map fun bc : BracketCommentDef =>
        (⟨bc.line, .BracketComment, [bc.opening, bc.closing], 0, MATCH_BRACKET_COMMENT⟩ :
          Definition)).flatMap loadedEoln = [] := by
      refine flatMap_eq_nil_of fun d mem => ?_
      obtain ⟨bc, -, rfl⟩ := List.mem_map.mp mem
      simp [loadedEoln]
    rw [none_of, List.nil_append, List.flatMap_map]
    exact List.map_eq_flatMap.symm
  · intro d some_part
    unfold loadedEoln at some_part
    split at some_part
    · rename_i type
      rw [type]
      rfl
    · exact absurd rfl some_part

theorem brackets_loaded (all : classes.Perm (usedClasses lexer.getDefinitions)) :
    (classes.flatMap (classOf lexer.getDefinitions)).flatMap loadedBracket =
      lexer.bracketComments.map fun c => (printed c.opening, printed c.closing) := by
  rw [flatMap_class (c := "comment") all, classOf_comment, List.flatMap_append]
  · have none_of : (lexer.eolnComments.map fun cc : EolnCommentDef =>
        (⟨cc.line, .EolnComment, [cc.opening], 0, MATCH_EOLN_COMMENT⟩ :
          Definition)).flatMap loadedBracket = [] := by
      refine flatMap_eq_nil_of fun d mem => ?_
      obtain ⟨bc, -, rfl⟩ := List.mem_map.mp mem
      simp [loadedBracket]
    rw [none_of, List.append_nil, List.flatMap_map]
    exact List.map_eq_flatMap.symm
  · intro d some_part
    unfold loadedBracket at some_part
    split at some_part
    · rename_i type
      rw [type]
      rfl
    · exact absurd rfl some_part

theorem indent_loaded (all : classes.Perm (usedClasses lexer.getDefinitions))
    (init : IndentLexems) :
    (classes.flatMap (classOf lexer.getDefinitions)).foldl (fun indent d => indentOf d indent) init =
      if lexer.indentLexems.defined then
        ⟨0, lexer.indentLexems.opening, lexer.indentLexems.opening + 1,
          lexer.indentLexems.opening + 2, lexer.indentLexems.tabSize⟩
      else init := by
  have skip : ∀ (l : List Definition) (init : IndentLexems),
      l.foldl (fun indent d => indentOf d indent) init =
        (l.flatMap fun d => if d.type = .IndentLexems then [d] else []).foldl
          (fun indent d => indentOf d indent) init := by
    intro l
    induction l with
    | nil => intro init; rfl
    | cons d l ih =>
      intro init
      rw [List.foldl_cons, List.flatMap_cons, List.foldl_append, ih]
      congr 1
      unfold indentOf
      split <;> simp [*]
  rw [skip, flatMap_class (c := "indentl") all, classOf_indentl]
  · cases lexer.indentLexems.defined <;> simp [indentOf, Definition.openind, Definition.tabsize]
  · intro d some_part
    split at some_part
    · rename_i type
      rw [type]
      rfl
    · exact absurd rfl some_part

variable (patterns : PatternEngine)

structure Reloaded (lexer : Lexer) (classes : List String) (lexer' : Lexer) : Prop where
  inv : LoadInv patterns lexer'
  entries : entries lexer' = classes.flatMap (loadedOf lexer) ++
    ((entries lexer).filter isKeywordEntry).map fun e => keywordEntry (printed e.name)
  eoln : lexer'.eolnComments.map EolnCommentDef.opening =
    lexer.eolnComments.map fun c => printed c.opening
  bracket : lexer'.bracketComments.map (fun c => (c.opening, c.closing)) =
    lexer.bracketComments.map fun c => (printed c.opening, printed c.closing)
  indent : lexer'.indentLexems =
    if lexer.indentLexems.defined then
      ⟨0, lexer.indentLexems.opening, lexer.indentLexems.opening + 1,
        lexer.indentLexems.opening + 2, lexer.indentLexems.tabSize⟩
    else ⟨0, 0, 0, 0, 0⟩

variable {patterns}

theorem reloaded_of_loadClasses {lexer' : Lexer}
    (all : classes.Perm (usedClasses lexer.getDefinitions))
    (h : loadClasses patterns lexer.getDefinitions classes = .ok lexer') :
    Reloaded patterns lexer classes lexer' := by
  obtain ⟨first, load, h⟩ := bind_eq_ok.mp h
  obtain ⟨inv, made, indent⟩ := loadInv_empty.fold (brackets_first all) (fun _ _ _ => rfl) load
  obtain ⟨inv', more, indent'⟩ := inv.keywords h
  have whole := made.trans more
  refine ⟨inv', ?_, ?_, ?_, ?_⟩
  · have defar := whole.defar
    rw [List.flatMap_assoc, keywordNames_eq, List.map_map] at defar
    simp only [loadedEntries_class] at defar
    exact defar
  · have eoln := whole.eoln
    rw [List.append_nil, eolns_loaded all] at eoln
    exact eoln
  · have bracket := whole.bracket
    rw [List.append_nil, brackets_loaded all] at bracket
    exact bracket
  · rw [indent', indent, indent_loaded all]

end Order

end Mewa.Lexer
