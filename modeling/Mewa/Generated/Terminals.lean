/- Module: Mewa/Generated/Terminals
   digest: When the terminals of a lexer are the same after it is printed and loaded. -/

import Mewa.Generated.Classes

set_option autoImplicit false
set_option relaxedAutoImplicit false

namespace Mewa.Lexer

open Mewa.Lib

def patternsOf (lexer : Lexer) (id : Nat) : List (String × Nat × Bool) :=
  (lexer.defar.filter fun d => d.id = id).map fun d => (d.source, d.select, d.keyword)

/-- Two lexers give the terminals the same identifiers, flags and patterns. -/
structure SameTerminals (lexer lexer' : Lexer) : Prop where
  ids : ∀ name, lexer'.lexemId name = lexer.lexemId name
  keywords : ∀ id : Nat, 0 < id → id ≤ lexer.nofTerminals →
    lexer'.isKeyword id = lexer.isKeyword id
  patterns : ∀ id, lexer'.patternsOf id = lexer.patternsOf id
  indented : lexer'.indentLexems.defined = lexer.indentLexems.defined
  indent : lexer.indentLexems.defined = true →
    lexer'.indentLexems = { lexer.indentLexems with line := 0 }

/-- The condition under which the terminals stay the same: what is printed can be read again and is
    not cut off, the names without text are those of the ignored patterns, the pattern of a keyword
    is made of its name alone, and all tokens have identifiers below those of the keywords. -/
structure Aligned (lexer : Lexer) : Prop where
  readable : ∀ d ∈ lexer.getDefinitions, ∀ str ∈ d.texts, Readable str
  whole : ∀ d ∈ lexer.defar, printed d.name = d.name ∧
    (d.keyword = false → printed d.source = d.source)
  eoln : ∀ c ∈ lexer.eolnComments, printed c.opening ≠ ""
  bracket : ∀ c ∈ lexer.bracketComments, printed c.opening ≠ "" ∧ printed c.closing ≠ ""
  unnamed : ∀ d ∈ lexer.defar, d.name = "" → d.id = 0 ∧ d.select = 0
  pattern : ∀ d ∈ lexer.defar, d.keyword = true → d.source = stringToRegex d.name
  before : ∀ t ∈ lexer.defar, ∀ k ∈ lexer.defar, t.name ≠ "" → t.keyword = false →
    k.keyword = true → t.id < k.id

/-- Two lists hold the same patterns of each kind in the same order. -/
structure SameKinds (l l' : List Entry) : Prop where
  token : l'.filter isToken = l.filter isToken
  ignored : l'.filter isIgnored = l.filter isIgnored
  keyword : l'.filter isKeywordEntry = l.filter isKeywordEntry

theorem kind_cases (e : Entry) :
    isToken e = true ∧ isIgnored e = false ∧ isKeywordEntry e = false ∨
    isToken e = false ∧ isIgnored e = true ∧ isKeywordEntry e = false ∨
    isToken e = false ∧ isIgnored e = false ∧ isKeywordEntry e = true := by
  unfold isToken isIgnored isKeywordEntry
  cases e.name.isEmpty <;> cases e.keyword <;> simp

namespace SameKinds

variable {l l' : List Entry}

theorem mem_iff (h : SameKinds l l') {e : Entry} : e ∈ l' ↔ e ∈ l := by
  have same : ∀ {p : Entry → Bool}, l'.filter p = l.filter p → p e = true → (e ∈ l' ↔ e ∈ l) := by
    intro p eq here
    have member : e ∈ l'.filter p ↔ e ∈ l.filter p := by rw [eq]
    simpa [here] using member
  rcases kind_cases e with ⟨token, -, -⟩ | ⟨-, ignored, -⟩ | ⟨-, -, keyword⟩
  · exact same h.token token
  · exact same h.ignored ignored
  · exact same h.keyword keyword

theorem filter_eq (h : SameKinds l l') {p q : Entry → Bool}
    (kind : p = isToken ∨ p = isIgnored ∨ p = isKeywordEntry)
    (inside : ∀ e ∈ l, q e = true → p e = true) : l'.filter q = l.filter q := by
  have by_kind : l'.filter p = l.filter p := by
    rcases kind with rfl | rfl | rfl
    · exact h.token
    · exact h.ignored
    · exact h.keyword
  have narrow : ∀ m : List Entry, (∀ e ∈ m, q e = true → p e = true) →
      m.filter q = (m.filter p).filter q := by
    intro m within
    rw [List.filter_filter]
    refine List.filter_congr fun e mem => ?_
    cases here : q e with
    | true => simp [within e mem here]
    | false => simp
  rw [narrow l inside, narrow l' fun e mem => inside e (h.mem_iff.mp mem), by_kind]

end SameKinds

section Numbers

variable {patterns : PatternEngine} {lexer lexer' : Lexer}

def idOf (lexer : Lexer) (e : Entry) : Nat := if e.name = "" then 0 else lexer.lexemId e.name

theorem id_eq (reg : Registered patterns lexer) (blank : ∀ d ∈ lexer.defar, d.name = "" → d.id = 0)
    {d : LexemDef} (mem : d ∈ lexer.defar) : d.id = idOf lexer (entryOf d) := by
  unfold idOf
  split
  · rename_i empty
    exact blank d mem empty
  · rename_i some_name
    have number : d.id ≠ 0 := fun zero => some_name (reg.unnamed d mem zero).1
    simp [lexemId, entryOf, reg.named d mem number]

theorem patternsOf_eq (reg : Registered patterns lexer)
    (blank : ∀ d ∈ lexer.defar, d.name = "" → d.id = 0) (id : Nat) :
    lexer.patternsOf id = ((entries lexer).filter fun e => idOf lexer e = id).map fun e =>
      (e.source, e.select, e.keyword) := by
  unfold patternsOf entries
  rw [List.filter_map, List.map_map]
  have same : lexer.defar.filter (fun d => decide (d.id = id)) =
      lexer.defar.filter ((fun e => decide (idOf lexer e = id)) ∘ entryOf) :=
    List.filter_congr fun d mem => by simp [id_eq reg blank mem]
  rw [same]
  rfl

theorem definedNames_eq (reg : Registered patterns lexer)
    (blank : ∀ d ∈ lexer.defar, d.name = "" → d.id = 0) :
    lexer.definedNames = ((entries lexer).filter fun e => !isIgnored e).map Entry.name := by
  unfold definedNames entries
  rw [List.filter_map, List.map_map]
  have same : lexer.defar.filter (fun d => decide (d.id ≠ 0)) =
      lexer.defar.filter ((fun e => !isIgnored e) ∘ entryOf) := by
    refine List.filter_congr fun d mem => ?_
    have zero : d.id = 0 ↔ d.name = "" := ⟨fun h => (reg.unnamed d mem h).1, blank d mem⟩
    by_cases empty : d.name = "" <;> simp [zero, empty, isIgnored, entryOf]
  rw [same]
  rfl

end Numbers

section Sufficient

variable {patterns : PatternEngine} {lexer lexer' : Lexer} {classes : List String}

theorem mem_entries {d : LexemDef} (mem : d ∈ lexer.defar) : entryOf d ∈ entries lexer :=
  List.mem_map_of_mem mem

theorem isKeywordEntry_iff (reg : Registered patterns lexer) {e : Entry} (mem : e ∈ entries lexer) :
    isKeywordEntry e = true ↔ e.keyword = true := by
  obtain ⟨d, inside, rfl⟩ := List.mem_map.mp mem
  unfold isKeywordEntry
  cases keyword : (entryOf d).keyword with
  | false => simp
  | true =>
    have named := (reg.keyword d inside keyword).1
    simpa [entryOf] using named

theorem filter_loadedOf (all : classes.Perm (usedClasses lexer.getDefinitions))
    {p : Entry → Bool} {c : String} (others : ∀ c', c' ≠ c → (loadedOf lexer c').filter p = []) :
    (classes.flatMap (loadedOf lexer)).filter p = (loadedOf lexer c).filter p := by
  rw [List.filter_flatMap]
  refine flatMap_single all others fun unused => ?_
  rw [← loadedEntries_class, unused]
  rfl

theorem tokens_loaded (aligned : Aligned lexer) :
    ((entries lexer).filter isToken).map tokenEntry = (entries lexer).filter isToken := by
  refine (List.map_congr_left fun e mem => ?_).trans (List.map_id _)
  obtain ⟨inside, token⟩ := List.mem_filter.mp mem
  obtain ⟨d, in_defar, rfl⟩ := List.mem_map.mp inside
  simp only [isToken, Bool.and_eq_true, Bool.not_eq_true'] at token
  obtain ⟨name, source⟩ := aligned.whole d in_defar
  have plain : d.keyword = false := token.2
  simp [tokenEntry, entryOf, name, source plain, plain]

theorem ignored_loaded (reg : Registered patterns lexer) (aligned : Aligned lexer) :
    ((entries lexer).filter isIgnored).map ignoredEntry = (entries lexer).filter isIgnored := by
  refine (List.map_congr_left fun e mem => ?_).trans (List.map_id _)
  obtain ⟨inside, ignored⟩ := List.mem_filter.mp mem
  obtain ⟨d, in_defar, rfl⟩ := List.mem_map.mp inside
  have empty : d.name = "" := by simpa [isIgnored, entryOf] using ignored
  obtain ⟨zero, select⟩ := aligned.unnamed d in_defar empty
  have plain := (reg.unnamed d in_defar zero).2
  simp [ignoredEntry, entryOf, (aligned.whole d in_defar).2 plain, empty, select, plain]

theorem keywords_loaded (reg : Registered patterns lexer) (aligned : Aligned lexer) :
    ((entries lexer).filter isKeywordEntry).map (fun e => keywordEntry (printed e.name)) =
      (entries lexer).filter isKeywordEntry := by
  refine (List.map_congr_left fun e mem => ?_).trans (List.map_id _)
  obtain ⟨inside, keyword⟩ := List.mem_filter.mp mem
  obtain ⟨d, in_defar, rfl⟩ := List.mem_map.mp inside
  have is_keyword : d.keyword = true := (isKeywordEntry_iff reg inside).mp keyword
  obtain ⟨named, select⟩ := reg.keyword d in_defar is_keyword
  simp [keywordEntry, entryOf, (aligned.whole d in_defar).1, aligned.pattern d in_defar is_keyword,
    is_keyword, named, select]

theorem filter_of_kind {l : List Entry} {p q : Entry → Bool}
    (other : ∀ e, p e = true → q e = false) : (l.filter p).filter q = [] :=
  List.filter_eq_nil_iff.mpr fun e mem taken => by
    rw [other e (List.mem_filter.mp mem).2] at taken
    exact Bool.noConfusion taken

theorem sameKinds_of_aligned (all : classes.Perm (usedClasses lexer.getDefinitions))
    (reg : Registered patterns lexer) (aligned : Aligned lexer)
    (loaded : Reloaded patterns lexer classes lexer') :
    SameKinds (entries lexer) (entries lexer') := by
  have token_class : loadedOf lexer "token" = (entries lexer).filter isToken := by
    rw [loadedOf, if_pos rfl, tokens_loaded aligned]
  have ignore_class : loadedOf lexer "ignore" = (entries lexer).filter isIgnored := by
    rw [loadedOf, if_neg (by decide), if_pos rfl, ignored_loaded reg aligned]
  have classes_of : ∀ c, loadedOf lexer c = (entries lexer).filter isToken ∧ c = "token" ∨
      loadedOf lexer c = (entries lexer).filter isIgnored ∧ c = "ignore" ∨
      loadedOf lexer c = [] := by
    intro c
    by_cases token : c = "token"
    · exact Or.inl ⟨token ▸ token_class, token⟩
    by_cases ignore : c = "ignore"
    · exact Or.inr (Or.inl ⟨ignore ▸ ignore_class, ignore⟩)
    · exact Or.inr (Or.inr (by rw [loadedOf, if_neg token, if_neg ignore]))
  have exclusive : ∀ e, (isToken e = true → isIgnored e = false ∧ isKeywordEntry e = false) ∧
      (isIgnored e = true → isToken e = false ∧ isKeywordEntry e = false) ∧
      (isKeywordEntry e = true → isToken e = false ∧ isIgnored e = false) := by
    intro e
    rcases kind_cases e with h | h | h <;> simp [h]
  have whole := loaded.entries
  rw [keywords_loaded reg aligned] at whole
  refine ⟨?_, ?_, ?_⟩
  · rw [whole, List.filter_append, filter_loadedOf (c := "token") all, token_class,
      filter_of_kind fun e h => ((exclusive e).2.2 h).1, List.filter_filter]
    · simp
    · intro c other
      rcases classes_of c with ⟨-, same⟩ | ⟨eq, -⟩ | eq
      · exact absurd same other
      · rw [eq, filter_of_kind fun e h => ((exclusive e).2.1 h).1]
      · rw [eq, List.filter_nil]
  · rw [whole, List.filter_append, filter_loadedOf (c := "ignore") all, ignore_class,
      filter_of_kind fun e h => ((exclusive e).2.2 h).2, List.filter_filter]
    · simp
    · intro c other
      rcases classes_of c with ⟨eq, -⟩ | ⟨-, same⟩ | eq
      · rw [eq, filter_of_kind fun e h => ((exclusive e).1 h).1]
      · exact absurd same other
      · rw [eq, List.filter_nil]
  · have none_of : ((classes.flatMap (loadedOf lexer)).filter isKeywordEntry) = [] := by
      rw [List.filter_flatMap]
      refine flatMap_eq_nil_of fun c _ => ?_
      rcases classes_of c with ⟨eq, -⟩ | ⟨eq, -⟩ | eq
      · rw [eq, filter_of_kind fun e h => ((exclusive e).1 h).2]
      · rw [eq, filter_of_kind fun e h => ((exclusive e).2.1 h).2]
      · rw [eq, List.filter_nil]
    rw [whole, List.filter_append, none_of, List.filter_filter]
    simp

theorem nameidmap_of_aligned (all : classes.Perm (usedClasses lexer.getDefinitions))
    (reg : Registered patterns lexer) (aligned : Aligned lexer)
    (loaded : Reloaded patterns lexer classes lexer') : lexer'.nameidmap = lexer.nameidmap := by
  have kinds := sameKinds_of_aligned all reg aligned loaded
  have blank : ∀ d ∈ lexer.defar, d.name = "" → d.id = 0 :=
    fun d mem empty => (aligned.unnamed d mem empty).1
  -- a name of a token, by its number below those of the keywords
  have less : ∀ t ∈ (entries lexer).filter isToken,
      ∀ k ∈ (entries lexer).filter isKeywordEntry,
      lexer.definedNames.eraseDups.idxOf t.name < lexer.definedNames.eraseDups.idxOf k.name := by
    intro t mem_t k mem_k
    obtain ⟨inside_t, token⟩ := List.mem_filter.mp mem_t
    obtain ⟨inside_k, keyword⟩ := List.mem_filter.mp mem_k
    obtain ⟨dt, in_t, rfl⟩ := List.mem_map.mp inside_t
    obtain ⟨dk, in_k, rfl⟩ := List.mem_map.mp inside_k
    simp only [isToken, entryOf, Bool.and_eq_true, Bool.not_eq_true'] at token
    have some_name : dt.name ≠ "" := by
      intro empty
      rw [empty] at token
      exact Bool.noConfusion token.1
    have is_keyword : dk.keyword = true := (isKeywordEntry_iff reg inside_k).mp keyword
    have numbers := aligned.before dt in_t dk in_k some_name token.2 is_keyword
    have number : ∀ d ∈ lexer.defar, d.id ≠ 0 →
        lexer.definedNames.eraseDups.idxOf d.name + 1 = d.id := by
      intro d mem some_id
      have found := reg.named d mem some_id
      rw [reg.number, numberIn] at found
      split at found
      · exact Option.some.inj found
      · simp at found
    have first := number dt in_t fun zero => some_name (reg.unnamed dt in_t zero).1
    have second := number dk in_k (reg.keyword_id in_k is_keyword)
    show lexer.definedNames.eraseDups.idxOf dt.name < lexer.definedNames.eraseDups.idxOf dk.name
    omega
  let first : String → Bool := fun name =>
    ((entries lexer).filter isToken).any fun e => e.name == name
  have taken : ∀ e ∈ (entries lexer).filter isToken, first e.name = true := by
    intro e mem
    exact List.any_eq_true.mpr ⟨e, mem, by simp⟩
  have not_taken : ∀ e ∈ (entries lexer).filter isKeywordEntry, first e.name = false := by
    intro k mem
    refine Bool.eq_false_iff.mpr fun some_token => ?_
    obtain ⟨t, mem_t, same⟩ := List.any_eq_true.mp some_token
    have := less t mem_t k mem
    rw [eq_of_beq same] at this
    omega
  have named : lexer.definedNames = ((entries lexer).filter fun e => !isIgnored e).map Entry.name :=
    definedNames_eq reg blank
  have token_names : lexer.definedNames.filter first =
      ((entries lexer).filter isToken).map Entry.name := by
    rw [named, List.filter_map, List.filter_filter]
    congr 1
    refine List.filter_congr fun e mem => ?_
    rcases kind_cases e with ⟨token, plain, -⟩ | ⟨plain, ignored, -⟩ | ⟨plain, no, keyword⟩
    · simp [token, plain, taken e (List.mem_filter.mpr ⟨mem, token⟩)]
    · simp [plain, ignored]
    · simp [plain, no, not_taken e (List.mem_filter.mpr ⟨mem, keyword⟩)]
  have keyword_names : lexer.definedNames.filter (fun n => !first n) =
      ((entries lexer).filter isKeywordEntry).map Entry.name := by
    rw [named, List.filter_map, List.filter_filter]
    congr 1
    refine List.filter_congr fun e mem => ?_
    rcases kind_cases e with ⟨token, plain, no⟩ | ⟨-, ignored, no⟩ | ⟨-, plain, keyword⟩
    · simp [plain, no, taken e (List.mem_filter.mpr ⟨mem, token⟩)]
    · simp [ignored, no]
    · simp [plain, keyword, not_taken e (List.mem_filter.mpr ⟨mem, keyword⟩)]
  have loaded_names : lexer'.definedNames =
      lexer.definedNames.filter first ++ lexer.definedNames.filter fun n => !first n := by
    have whole := loaded.entries
    rw [keywords_loaded reg aligned] at whole
    have tokens := kinds.token
    have keywords := kinds.keyword
    have no_token : ((entries lexer).filter isKeywordEntry).filter isToken = [] :=
      filter_of_kind fun e h => by
        rcases kind_cases e with ⟨-, -, no⟩ | ⟨-, -, no⟩ | ⟨plain, -, -⟩
        · rw [h] at no; exact Bool.noConfusion no
        · rw [h] at no; exact Bool.noConfusion no
        · exact plain
    rw [whole, List.filter_append, no_token, List.append_nil] at tokens
    rw [whole, List.filter_append, List.filter_filter] at keywords
    simp only [Bool.and_self, List.append_left_eq_self] at keywords
    have kept : ((entries lexer).filter isKeywordEntry).filter (fun e => !isIgnored e) =
        (entries lexer).filter isKeywordEntry := by
      refine List.filter_eq_self.mpr fun e mem => ?_
      have keyword := (List.mem_filter.mp mem).2
      rcases kind_cases e with ⟨-, -, no⟩ | ⟨-, -, no⟩ | ⟨-, plain, -⟩
      · rw [keyword] at no; exact Bool.noConfusion no
      · rw [keyword] at no; exact Bool.noConfusion no
      · simp [plain]
    have only_tokens : (classes.flatMap (loadedOf lexer)).filter (fun e => !isIgnored e) =
        (classes.flatMap (loadedOf lexer)).filter isToken := by
      refine List.filter_congr fun e mem => ?_
      have no_keyword := List.filter_eq_nil_iff.mp keywords e mem
      rcases kind_cases e with ⟨token, plain, -⟩ | ⟨no, ignored, -⟩ | ⟨-, -, keyword⟩
      · simp [token, plain]
      · simp [no, ignored]
      · exact absurd keyword no_keyword
    rw [definedNames_eq loaded.inv.registered loaded.inv.blank, token_names, keyword_names,
      ← List.map_append, whole, List.filter_append, kept, only_tokens, tokens]
  refine SortedMap.eq_of_find_eq fun name => ?_
  rw [loaded.inv.registered.number, reg.number, loaded_names]
  refine numberIn_sorted (fun a mem_a b mem_b is_first is_second => ?_) name
  have in_tokens : a ∈ lexer.definedNames.filter first := List.mem_filter.mpr ⟨mem_a, is_first⟩
  have in_keywords : b ∈ lexer.definedNames.filter fun n => !first n :=
    List.mem_filter.mpr ⟨mem_b, by simp [is_second]⟩
  rw [token_names] at in_tokens
  rw [keyword_names] at in_keywords
  obtain ⟨t, mem_t, rfl⟩ := List.mem_map.mp in_tokens
  obtain ⟨k, mem_k, rfl⟩ := List.mem_map.mp in_keywords
  exact less t mem_t k mem_k

theorem token_ne_keyword (reg : Registered patterns lexer) (aligned : Aligned lexer)
    {t k : LexemDef} (mem_t : t ∈ lexer.defar) (mem_k : k ∈ lexer.defar)
    (plain : t.keyword = false) (keyword : k.keyword = true) : t.name ≠ k.name := by
  intro same
  by_cases empty : t.name = ""
  · exact (reg.keyword k mem_k keyword).1 (same ▸ empty)
  · have less := aligned.before t mem_t k mem_k empty plain keyword
    have found := reg.named t mem_t fun zero => empty (reg.unnamed t mem_t zero).1
    rw [same, reg.named k mem_k (reg.keyword_id mem_k keyword)] at found
    have := Option.some.inj found
    omega

theorem loadable_of_aligned (reg : Registered patterns lexer) (aligned : Aligned lexer)
    (empty : ∃ activate, Admits patterns "" activate) :
    ∀ d ∈ lexer.getDefinitions, Loadable patterns d := by
  intro d mem
  unfold getDefinitions at mem
  simp only [List.mem_append, List.mem_map] at mem
  rcases mem with (((bad | ⟨x, inside, rfl⟩) | ⟨bc, inside, rfl⟩) | ⟨cc, inside, rfl⟩) | indent
  · split at bad
    · rw [List.mem_singleton.mp bad]
      trivial
    · simp at bad
  · have admitted : ∃ activate, Admits patterns x.source activate := by
      by_cases nothing : x.source = ""
      · rw [nothing]
        exact empty
      · exact ⟨_, reg.admitted x inside nothing⟩
    unfold Loadable LexemDef.definition
    by_cases unnamed : x.name = ""
    · have plain := (reg.unnamed x inside (aligned.unnamed x inside unnamed).1).2
      simp only [unnamed]
      show ∃ activate, Admits patterns (printed x.source) activate
      rwa [(aligned.whole x inside).2 plain]
    · have named : x.name.isEmpty = false := by simpa using unnamed
      cases plain : x.keyword with
      | true => simp [named]
      | false =>
        simp only [named, Bool.false_eq_true, if_false]
        show ∃ activate, Admits patterns (printed x.source) activate
        rwa [(aligned.whole x inside).2 plain]
  · exact aligned.bracket bc inside
  · exact aligned.eoln cc inside
  · split at indent
    · rw [List.mem_singleton.mp indent]
      trivial
    · simp at indent

theorem loadClasses_ok (all : classes.Perm (usedClasses lexer.getDefinitions))
    (reg : Registered patterns lexer) (aligned : Aligned lexer)
    (empty : ∃ activate, Admits patterns "" activate) :
    ∃ lexer', loadClasses patterns lexer.getDefinitions classes = .ok lexer' := by
  have loadable : ∀ d ∈ classes.flatMap (classOf lexer.getDefinitions), Loadable patterns d := by
    intro d mem
    obtain ⟨c, -, inside⟩ := List.mem_flatMap.mp mem
    exact loadable_of_aligned reg aligned empty d (mem_classOf.mp inside).1
  obtain ⟨first, load⟩ := fold_ok loadable {}
  obtain ⟨inv, made, -⟩ := loadInv_empty.fold (brackets_first all) (fun _ _ _ => rfl) load
  have names : keywordNames lexer.getDefinitions =
      ((entries lexer).filter isKeywordEntry).map Entry.name := by
    rw [keywordNames_eq]
    refine List.map_congr_left fun e mem => ?_
    obtain ⟨d, inside, rfl⟩ := List.mem_map.mp (List.mem_filter.mp mem).1
    exact (aligned.whole d inside).1
  have keyword_of : ∀ name ∈ keywordNames lexer.getDefinitions,
      ∃ k ∈ lexer.defar, k.keyword = true ∧ k.name = name := by
    intro name mem
    rw [names] at mem
    obtain ⟨e, inside, rfl⟩ := List.mem_map.mp mem
    obtain ⟨member, keyword⟩ := List.mem_filter.mp inside
    obtain ⟨k, in_defar, rfl⟩ := List.mem_map.mp member
    exact ⟨k, in_defar, (isKeywordEntry_iff reg member).mp keyword, rfl⟩
  have admits : ∀ name ∈ keywordNames lexer.getDefinitions,
      ∃ activate, Admits patterns (stringToRegex name) activate := by
    intro name mem
    obtain ⟨k, in_defar, keyword, rfl⟩ := keyword_of name mem
    rw [← aligned.pattern k in_defar keyword]
    by_cases nothing : k.source = ""
    · rw [nothing]
      exact empty
    · exact ⟨_, reg.admitted k in_defar nothing⟩
  have distinct : (keywordNames lexer.getDefinitions).Nodup := by
    rw [names]
    have fresh : (entries lexer).Pairwise fun d e => e.keyword = true → d.name ≠ e.name :=
      List.pairwise_map.mpr reg.fresh
    refine List.pairwise_map.mpr ((fresh.filter _).imp_of_mem fun {d e} _ mem other => other ?_)
    obtain ⟨member, keyword⟩ := List.mem_filter.mp mem
    exact (isKeywordEntry_iff reg member).mp keyword
  have new : ∀ name ∈ keywordNames lexer.getDefinitions, ∀ d ∈ first.defar, d.name ≠ name := by
    intro name mem d inside same
    obtain ⟨k, in_defar, keyword, rfl⟩ := keyword_of name mem
    have entry : entryOf d ∈ first.defar.map entryOf := List.mem_map_of_mem inside
    rw [made.defar, List.flatMap_assoc] at entry
    simp only [List.map_nil, List.nil_append, loadedEntries_class] at entry
    obtain ⟨c, -, entry⟩ := List.mem_flatMap.mp entry
    unfold loadedOf at entry
    split at entry
    · rw [tokens_loaded aligned] at entry
      obtain ⟨member, token⟩ := List.mem_filter.mp entry
      obtain ⟨t, in_t, eq⟩ := List.mem_map.mp member
      have plain : t.keyword = false := by
        have kind : (entryOf t).keyword = (entryOf d).keyword := by rw [eq]
        unfold isToken at token
        rw [← kind] at token
        simp only [Bool.and_eq_true, Bool.not_eq_true'] at token
        exact token.2
      have name_eq : t.name = d.name := congrArg Entry.name eq
      exact token_ne_keyword reg aligned in_t in_defar plain keyword (name_eq.trans same)
    · split at entry
      · obtain ⟨e, -, eq⟩ := List.mem_map.mp entry
        have name_eq : "" = d.name := congrArg Entry.name eq
        exact (reg.keyword k in_defar keyword).1 (same ▸ name_eq.symm)
      · simp at entry
  obtain ⟨last, done⟩ := keywords_ok inv admits distinct new
  exact ⟨last, by rw [loadClasses, load, ok_bind, done]⟩

theorem keyword_iff (reg : Registered patterns lexer) (id : Nat) :
    (∃ d ∈ lexer.defar, d.keyword = true ∧ d.id = id) ↔
      ∃ e ∈ (entries lexer).filter isKeywordEntry, lexer.nameidmap.find e.name = some id := by
  constructor
  · rintro ⟨d, mem, keyword, rfl⟩
    refine ⟨entryOf d, List.mem_filter.mpr ⟨mem_entries mem, ?_⟩,
      reg.named d mem (reg.keyword_id mem keyword)⟩
    exact (isKeywordEntry_iff reg (mem_entries mem)).mpr keyword
  · rintro ⟨e, mem, found⟩
    obtain ⟨member, is_keyword⟩ := List.mem_filter.mp mem
    obtain ⟨d, inside, rfl⟩ := List.mem_map.mp member
    have keyword := (isKeywordEntry_iff reg member).mp is_keyword
    have number := reg.named d inside (reg.keyword_id inside keyword)
    exact ⟨d, inside, keyword, Option.some.inj (number.symm.trans found)⟩

theorem sameTerminals_of_aligned (all : classes.Perm (usedClasses lexer.getDefinitions))
    (reg : Registered patterns lexer) (named : Named lexer) (aligned : Aligned lexer)
    (loaded : Reloaded patterns lexer classes lexer') : SameTerminals lexer lexer' := by
  have kinds := sameKinds_of_aligned all reg aligned loaded
  have numbers := nameidmap_of_aligned all reg aligned loaded
  have reg' := loaded.inv.registered
  refine ⟨fun name => by rw [lexemId, lexemId, numbers], ?_, ?_, ?_, ?_⟩
  · intro id positive bound
    have count : lexer.nofTerminals = lexer.nameidmap.entries.length := named.names
    have inside := reg.covered id positive (count ▸ bound)
    have inside' := reg'.covered id positive (by rw [numbers, ← count]; exact bound)
    have flags := reg.flagged id _ (List.getElem?_eq_getElem inside)
    have flags' := reg'.flagged id _ (List.getElem?_eq_getElem inside')
    rw [keyword_iff reg] at flags
    rw [keyword_iff reg', numbers, kinds.keyword, ← flags] at flags'
    unfold isKeyword
    rw [if_neg (by omega), if_neg (by omega), Int.toNat_natCast, List.getElem?_eq_getElem inside,
      List.getElem?_eq_getElem inside', Bool.eq_iff_iff.mpr flags']
  · intro id
    have blank : ∀ d ∈ lexer.defar, d.name = "" → d.id = 0 :=
      fun d mem empty => (aligned.unnamed d mem empty).1
    have same_id : idOf lexer' = idOf lexer := by
      funext e
      unfold idOf lexemId
      rw [numbers]
    rw [patternsOf_eq reg blank, patternsOf_eq reg' loaded.inv.blank, same_id]
    congr 1
    -- the patterns of an identifier are all of one kind
    by_cases zero : id = 0
    · refine kinds.filter_eq (Or.inr (Or.inl rfl)) fun e mem here => ?_
      obtain ⟨d, inside, rfl⟩ := List.mem_map.mp mem
      have id_zero : d.id = 0 := by
        rw [id_eq reg blank inside, of_decide_eq_true here, zero]
      simp [isIgnored, entryOf, (reg.unnamed d inside id_zero).1]
    · have named_of : ∀ e ∈ entries lexer, idOf lexer e = id →
          ∃ d ∈ lexer.defar, entryOf d = e ∧ d.id = id := by
        intro e mem here
        obtain ⟨d, inside, rfl⟩ := List.mem_map.mp mem
        exact ⟨d, inside, rfl, (id_eq reg blank inside).trans here⟩
      by_cases keyword : ∃ k ∈ lexer.defar, k.keyword = true ∧ k.id = id
      · obtain ⟨k, in_k, is_keyword, id_k⟩ := keyword
        refine kinds.filter_eq (Or.inr (Or.inr rfl)) fun e mem here => ?_
        obtain ⟨d, inside, rfl, id_d⟩ := named_of e mem (of_decide_eq_true here)
        rw [isKeywordEntry_iff reg mem]
        by_contra plain
        have found := reg.named d inside (by omega)
        have found' := reg.named k in_k (by omega)
        rw [id_d, reg.number] at found
        rw [id_k, reg.number] at found'
        exact token_ne_keyword reg aligned inside in_k (by simpa [entryOf] using plain) is_keyword
          (numberIn_injective found found')
      · refine kinds.filter_eq (Or.inl rfl) fun e mem here => ?_
        obtain ⟨d, inside, rfl, id_d⟩ := named_of e mem (of_decide_eq_true here)
        have plain : d.keyword = false := by
          refine Bool.eq_false_iff.mpr fun is_keyword => keyword ⟨d, inside, is_keyword, id_d⟩
        have some_name : d.name ≠ "" := fun empty => zero (id_d ▸ blank d inside empty)
        simp [isToken, entryOf, plain, some_name]
  · rw [loaded.indent]
    cases defined : lexer.indentLexems.defined with
    | false => rfl
    | true => simpa [IndentLexems.defined] using defined
  · intro defined
    have opened : lexer.indentLexems.opening ≠ 0 := by simpa [IndentLexems.defined] using defined
    obtain ⟨closing, newLine, -⟩ := named.indent opened
    rw [loaded.indent, if_pos defined, ← closing, ← newLine]

end Sufficient

section Necessary

variable {patterns : PatternEngine} {lexer lexer' : Lexer} {classes : List String}

theorem printed_empty : printed "" = "" := rfl

theorem Reloaded.entry_cases (loaded : Reloaded patterns lexer classes lexer') {e : Entry}
    (mem : e ∈ lexer'.entries) :
    (∃ t ∈ lexer.entries, isToken t = true ∧ e = tokenEntry t) ∨
    (∃ i ∈ lexer.entries, isIgnored i = true ∧ e = ignoredEntry i) ∨
    ∃ k ∈ lexer.entries, isKeywordEntry k = true ∧ e = keywordEntry (printed k.name) := by
  rw [loaded.entries] at mem
  rcases List.mem_append.mp mem with first | last
  · obtain ⟨c, -, inside⟩ := List.mem_flatMap.mp first
    unfold loadedOf at inside
    split at inside
    · obtain ⟨t, member, rfl⟩ := List.mem_map.mp inside
      exact Or.inl ⟨t, (List.mem_filter.mp member).1, (List.mem_filter.mp member).2, rfl⟩
    · split at inside
      · obtain ⟨i, member, rfl⟩ := List.mem_map.mp inside
        exact Or.inr (Or.inl ⟨i, (List.mem_filter.mp member).1, (List.mem_filter.mp member).2, rfl⟩)
      · simp at inside
  · obtain ⟨k, member, rfl⟩ := List.mem_map.mp last
    exact Or.inr (Or.inr ⟨k, (List.mem_filter.mp member).1, (List.mem_filter.mp member).2, rfl⟩)

theorem Reloaded.exists_named (loaded : Reloaded patterns lexer classes lexer')
    (reg : Registered patterns lexer) (same : SameTerminals lexer lexer') {d : LexemDef}
    (mem : d ∈ lexer.defar) (number : d.id ≠ 0) :
    lexer'.nameidmap.find d.name = some d.id ∧
      ∃ d' ∈ lexer'.defar, d'.name = d.name ∧ d'.id ≠ 0 := by
  have ids := same.ids d.name
  have here : lexer.lexemId d.name = d.id := by simp [lexemId, reg.named d mem number]
  rw [here] at ids
  unfold lexemId at ids
  cases found : lexer'.nameidmap.find d.name with
  | none =>
    rw [found] at ids
    exact absurd ids.symm number
  | some id =>
    rw [found] at ids
    refine ⟨congrArg some ids, ?_⟩
    have member : d.name ∈ lexer'.definedNames :=
      loaded.inv.registered.mem_definedNames.mpr (by simp [found])
    obtain ⟨d', inside, name_eq⟩ := List.mem_map.mp member
    have kept := List.mem_filter.mp inside
    exact ⟨d', kept.1, name_eq, of_decide_eq_true kept.2⟩

theorem SameTerminals.exists_pattern (same : SameTerminals lexer lexer') {d : LexemDef}
    (mem : d ∈ lexer.defar) :
    ∃ d' ∈ lexer'.defar, d'.id = d.id ∧ d'.source = d.source ∧ d'.select = d.select ∧
      d'.keyword = d.keyword := by
  have pattern : (d.source, d.select, d.keyword) ∈ lexer.patternsOf d.id :=
    List.mem_map.mpr ⟨d, List.mem_filter.mpr ⟨mem, by simp⟩, rfl⟩
  rw [← same.patterns] at pattern
  obtain ⟨d', inside, eq⟩ := List.mem_map.mp pattern
  obtain ⟨in_defar, id_eq⟩ := List.mem_filter.mp inside
  obtain ⟨source, rest⟩ := Prod.mk.inj eq
  obtain ⟨select, keyword⟩ := Prod.mk.inj rest
  exact ⟨d', in_defar, of_decide_eq_true id_eq, source, select, keyword⟩

theorem names_whole (reg : Registered patterns lexer)
    (loaded : Reloaded patterns lexer classes lexer') (same : SameTerminals lexer lexer')
    {d : LexemDef} (mem : d ∈ lexer.defar) : printed d.name = d.name := by
  by_cases number : d.id = 0
  · rw [(reg.unnamed d mem number).1, printed_empty]
  · obtain ⟨-, d', inside, name_eq, -⟩ := loaded.exists_named reg same mem number
    rw [← name_eq]
    have member : entryOf d' ∈ entries lexer' := List.mem_map_of_mem inside
    rcases loaded.entry_cases member with ⟨t, -, -, eq⟩ | ⟨i, -, -, eq⟩ | ⟨k, -, -, eq⟩
    · have name : d'.name = printed t.name := congrArg Entry.name eq
      rw [name, printed_printed]
    · have name : d'.name = "" := congrArg Entry.name eq
      rw [name, printed_empty]
    · have name : d'.name = printed k.name := congrArg Entry.name eq
      rw [name, printed_printed]

theorem names_unnamed (reg : Registered patterns lexer)
    (loaded : Reloaded patterns lexer classes lexer') (same : SameTerminals lexer lexer')
    {d : LexemDef} (mem : d ∈ lexer.defar) (empty : d.name = "") : d.id = 0 ∧ d.select = 0 := by
  have zero : d.id = 0 := by
    by_contra number
    obtain ⟨-, d', inside, name_eq, number'⟩ := loaded.exists_named reg same mem number
    exact number' (loaded.inv.blank d' inside (name_eq.trans empty))
  refine ⟨zero, ?_⟩
  obtain ⟨d', inside, id_eq, -, select, -⟩ := same.exists_pattern mem
  have blank : d'.name = "" := (loaded.inv.registered.unnamed d' inside (id_eq.trans zero)).1
  have member : entryOf d' ∈ entries lexer' := List.mem_map_of_mem inside
  have cut : ∀ e ∈ entries lexer, e.name ≠ "" → printed e.name ≠ "" := by
    intro e mem_e some_name
    obtain ⟨x, in_x, rfl⟩ := List.mem_map.mp mem_e
    show printed x.name ≠ ""
    rwa [names_whole reg loaded same in_x]
  rw [← select]
  rcases loaded.entry_cases member with ⟨t, in_t, token, eq⟩ | ⟨i, -, -, eq⟩ | ⟨k, in_k, keyword, eq⟩
  · have name : d'.name = printed t.name := congrArg Entry.name eq
    rw [blank] at name
    have some_name : t.name ≠ "" := by
      intro no
      simp [isToken, no] at token
    exact absurd name.symm (cut t in_t some_name)
  · exact congrArg Entry.select eq
  · exact congrArg Entry.select eq

theorem sources_whole (loaded : Reloaded patterns lexer classes lexer')
    (same : SameTerminals lexer lexer') {d : LexemDef} (mem : d ∈ lexer.defar)
    (plain : d.keyword = false) : printed d.source = d.source := by
  obtain ⟨d', inside, -, source, -, keyword⟩ := same.exists_pattern mem
  rw [← source]
  have member : entryOf d' ∈ entries lexer' := List.mem_map_of_mem inside
  rcases loaded.entry_cases member with ⟨t, -, -, eq⟩ | ⟨i, -, -, eq⟩ | ⟨k, -, -, eq⟩
  · have text : d'.source = printed t.source := congrArg Entry.source eq
    rw [text, printed_printed]
  · have text : d'.source = printed i.source := congrArg Entry.source eq
    rw [text, printed_printed]
  · have text : d'.source = stringToRegex (printed k.name) := congrArg Entry.source eq
    have flag : d'.keyword = !(printed k.name).isEmpty := congrArg Entry.keyword eq
    rw [keyword, plain] at flag
    have empty : printed k.name = "" := by simpa using flag.symm
    rw [text, empty]
    rfl

theorem keyword_pattern (reg : Registered patterns lexer)
    (loaded : Reloaded patterns lexer classes lexer') (same : SameTerminals lexer lexer')
    {d : LexemDef} (mem : d ∈ lexer.defar) (is_keyword : d.keyword = true) :
    d.source = stringToRegex d.name := by
  obtain ⟨d', inside, id_eq, source, -, keyword⟩ := same.exists_pattern mem
  have number := reg.keyword_id mem is_keyword
  have found := (loaded.exists_named reg same mem number).1
  have found' := loaded.inv.registered.named d' inside (by omega)
  rw [id_eq, loaded.inv.registered.number] at found'
  rw [loaded.inv.registered.number] at found
  rw [← source, ← numberIn_injective found' found]
  have member : entryOf d' ∈ entries lexer' := List.mem_map_of_mem inside
  rcases loaded.entry_cases member with ⟨t, -, -, eq⟩ | ⟨i, -, -, eq⟩ | ⟨k, -, -, eq⟩
  · have flag : d'.keyword = false := congrArg Entry.keyword eq
    rw [keyword, is_keyword] at flag
    exact Bool.noConfusion flag
  · have flag : d'.keyword = false := congrArg Entry.keyword eq
    rw [keyword, is_keyword] at flag
    exact Bool.noConfusion flag
  · have text : d'.source = stringToRegex (printed k.name) := congrArg Entry.source eq
    have name : d'.name = printed k.name := congrArg Entry.name eq
    rw [text, name]

theorem tokens_before (all : classes.Perm (usedClasses lexer.getDefinitions))
    (reg : Registered patterns lexer) (loaded : Reloaded patterns lexer classes lexer')
    (same : SameTerminals lexer lexer') {t k : LexemDef} (mem_t : t ∈ lexer.defar)
    (mem_k : k ∈ lexer.defar) (named : t.name ≠ "") (plain : t.keyword = false)
    (is_keyword : k.keyword = true) : t.id < k.id := by
  have reg' := loaded.inv.registered
  have number_t : t.id ≠ 0 := fun zero => named (reg.unnamed t mem_t zero).1
  have found_t := (loaded.exists_named reg same mem_t number_t).1
  have found_k := (loaded.exists_named reg same mem_k (reg.keyword_id mem_k is_keyword)).1
  have keyword_name : k.name ≠ "" := (reg.keyword k mem_k is_keyword).1
  have whole_t : printed t.name = t.name := names_whole reg loaded same mem_t
  have whole_k : printed k.name = k.name := names_whole reg loaded same mem_k
  rw [reg'.number, definedNames_eq reg' loaded.inv.blank, loaded.entries, List.filter_append,
    List.map_append] at found_t found_k
  refine numberIn_lt ?_ ?_ found_t found_k
  · refine List.mem_map.mpr ⟨tokenEntry (entryOf t), List.mem_filter.mpr ⟨?_, ?_⟩, ?_⟩
    · have token : entryOf t ∈ (entries lexer).filter isToken :=
        List.mem_filter.mpr ⟨mem_entries mem_t, by simp [isToken, entryOf, named, plain]⟩
      have in_class : tokenEntry (entryOf t) ∈ loadedOf lexer "token" := by
        rw [loadedOf, if_pos rfl]
        exact List.mem_map_of_mem token
      refine List.mem_flatMap.mpr ⟨"token", all.mem_iff.mpr (mem_usedClasses.mpr ?_), in_class⟩
      have member : t.definition ∈ classOf lexer.getDefinitions "token" := by
        rw [classOf_token]
        exact List.mem_map_of_mem (List.mem_filter.mpr ⟨mem_t, (List.mem_filter.mp token).2⟩)
      exact ⟨t.definition, mem_classOf.mp member⟩
    · simp [isIgnored, tokenEntry, entryOf, whole_t, named]
    · simp [tokenEntry, entryOf, whole_t]
  · -- a keyword is not defined under a name that is known
    intro known
    obtain ⟨e, mem_e, name_eq⟩ := List.mem_map.mp known
    have fresh : (entries lexer').Pairwise fun d e => e.keyword = true → d.name ≠ e.name :=
      List.pairwise_map.mpr reg'.fresh
    rw [loaded.entries] at fresh
    have last : keywordEntry (printed k.name) ∈
        ((entries lexer).filter isKeywordEntry).map fun e => keywordEntry (printed e.name) :=
      List.mem_map.mpr ⟨entryOf k, List.mem_filter.mpr ⟨mem_entries mem_k,
        (isKeywordEntry_iff reg (mem_entries mem_k)).mpr is_keyword⟩, rfl⟩
    have other := (List.pairwise_append.mp fresh).2.2 e (List.mem_filter.mp mem_e).1 _ last
    refine other (by simp [keywordEntry, whole_k, keyword_name]) ?_
    rw [name_eq]
    exact whole_k.symm

theorem aligned_of_sameTerminals (all : classes.Perm (usedClasses lexer.getDefinitions))
    (reg : Registered patterns lexer)
    (readable : ∀ d ∈ lexer.getDefinitions, ∀ str ∈ d.texts, Readable str)
    (load : loadClasses patterns lexer.getDefinitions classes = .ok lexer')
    (same : SameTerminals lexer lexer') : Aligned lexer := by
  have loaded := reloaded_of_loadClasses all load
  obtain ⟨first, fold, -⟩ := bind_eq_ok.mp load
  have step : ∀ d ∈ classOf lexer.getDefinitions "comment", ∃ l l',
      loadDefinition patterns l d = .ok l' := by
    intro d mem
    refine foldlM_step fold (List.mem_flatMap.mpr ⟨"comment", ?_, mem⟩)
    exact all.mem_iff.mpr (mem_usedClasses.mpr ⟨d, mem_classOf.mp mem⟩)
  rw [classOf_comment] at step
  refine ⟨readable, fun d mem => ⟨names_whole reg loaded same mem, sources_whole loaded same mem⟩,
    ?_, ?_, fun d mem empty => names_unnamed reg loaded same mem empty,
    fun d mem keyword => keyword_pattern reg loaded same mem keyword,
    fun t mem_t k mem_k named plain keyword =>
      tokens_before all reg loaded same mem_t mem_k named plain keyword⟩
  · intro c mem empty
    obtain ⟨l, l', made⟩ := step _ (List.mem_append_right _ (List.mem_map_of_mem mem))
    simp [loadDefinition, Definition.start, defineEolnComment, empty] at made
  · intro c mem
    obtain ⟨l, l', made⟩ := step _ (List.mem_append_left _ (List.mem_map_of_mem mem))
    simp only [loadDefinition, Definition.start, Definition.stop, defineBracketComment,
      List.headD_cons, List.tail_cons] at made
    constructor
    · intro empty
      simp [empty] at made
    · intro empty
      simp [empty] at made

end Necessary

end Mewa.Lexer
