/- Module: Mewa/Lexer/Registry
   digest: The numbers and flags of the terminals of a lexer as they follow from its definitions. -/

import Mewa.Lexer.Defined
import Mewa.Lexer.Keywords
import Mewa.Lib.Numbering

set_option autoImplicit false
set_option relaxedAutoImplicit false

namespace Mewa.Lexer

open Mewa.Lib

/-- A pattern can be defined: it is a regular expression whose matches begin with some bytes. -/
structure Admits (patterns : PatternEngine) (pattern : String) (activate : List Nat) : Prop where
  compiles : patterns.compiles pattern = true
  activation : LexemDef.firstBytes pattern = .ok activate
  some_first : pattern ≠ "" → ∃ ch ∈ activate, ch < 256

/-- The lexer with another definition. -/
def push (d : LexemDef) (lexer : Lexer) : Lexer :=
  { lexer with
    defar := lexer.defar ++ [d]
    firstmap := lexer.firstmap ++
      ((List.range 256).filter fun ch => d.tries ch).map fun ch => (ch, (lexer.defar.length : Int)) }

/-- The lexer with another name for the next number. -/
def addName (name entry : String) (keyword : Bool) (lexer : Lexer) : Lexer :=
  let id := lexer.nameidmap.entries.length + 1
  let id2keyword := padKeywords lexer.id2keyword id
  { lexer with
    nameidmap := lexer.nameidmap.set name id
    namelist := lexer.namelist ++ [entry]
    id2keyword := if keyword then id2keyword.set id true else id2keyword }

/-- The three ways in which a pattern is defined: without a name, with a new one or with a known
    one. -/
inductive Adds (lexer : Lexer) (line : Int) (name pattern : String) (activate : List Nat)
    (select : Nat) (keyword : Bool) : Lexer → Nat → Prop
  | unnamed : name = "" → Adds lexer line name pattern activate select keyword
      (lexer.push ⟨line, "", pattern, activate, select, 0, false⟩) 0
  | fresh (entry : String) : name ≠ "" → lexer.nameidmap.find name = none →
      Adds lexer line name pattern activate select keyword
        ((lexer.addName name entry keyword).push ⟨line, name, pattern, activate, select,
          lexer.nameidmap.entries.length + 1, keyword⟩) (lexer.nameidmap.entries.length + 1)
  | known {id : Nat} : name ≠ "" → keyword = false → lexer.nameidmap.find name = some id →
      Adds lexer line name pattern activate select keyword
        (push ⟨line, name, pattern, activate, select, id, false⟩
          { lexer with id2keyword :=
            padKeywords lexer.id2keyword (lexer.nameidmap.entries.length + 1) }) id

/-- The names that have numbers, in the order of the definitions. -/
def definedNames (lexer : Lexer) : List String :=
  (lexer.defar.filter fun d => d.id ≠ 0).map LexemDef.name

/-- The numbers are given to the names in the order of their first definitions, and the flags of
    keywords follow from the definitions. -/
structure Registered (patterns : PatternEngine) (lexer : Lexer) : Prop where
  number : ∀ name, lexer.nameidmap.find name = numberIn lexer.definedNames name
  count : lexer.nameidmap.entries.length = lexer.definedNames.eraseDups.length
  named : ∀ d ∈ lexer.defar, d.id ≠ 0 → lexer.nameidmap.find d.name = some d.id
  unnamed : ∀ d ∈ lexer.defar, d.id = 0 → d.name = "" ∧ d.keyword = false
  keyword : ∀ d ∈ lexer.defar, d.keyword = true → d.name ≠ "" ∧ d.select = 0
  fresh : lexer.defar.Pairwise fun d e => e.keyword = true → d.name ≠ e.name
  covered : ∀ i, 0 < i → i ≤ lexer.nameidmap.entries.length → i < lexer.id2keyword.length
  flagged : ∀ i flag, lexer.id2keyword[i]? = some flag →
    (flag = true ↔ ∃ d ∈ lexer.defar, d.keyword = true ∧ d.id = i)
  admitted : ∀ d ∈ lexer.defar, d.source ≠ "" → Admits patterns d.source d.activate

variable {patterns : PatternEngine} {lexer lexer' : Lexer}

theorem pushDefinition_iff {line : Int} {name pattern : String} {id : Nat} {keyword : Bool}
    {select : Nat} :
    lexer.pushDefinition patterns line name pattern id keyword select = .ok lexer' ↔
      ∃ activate, Admits patterns pattern activate ∧
        lexer' = lexer.push ⟨line, name, pattern, activate, select, id, keyword⟩ := by
  have indexed : ∀ activate : List Nat, pattern ≠ "" →
      ((List.range 256).filter fun ch => LexemDef.tries
        ⟨line, name, pattern, activate, select, id, keyword⟩ ch) =
      (List.range 256).filter fun ch => decide (ch ∈ activate) := by
    intro activate some_pattern
    refine List.filter_congr fun ch mem => ?_
    simp [LexemDef.tries, some_pattern, List.mem_range.mp mem]
  unfold pushDefinition
  cases compiles : patterns.compiles pattern with
  | false =>
    constructor
    · intro h
      simp at h
    · rintro ⟨activate, admits, -⟩
      simp [admits.compiles] at compiles
  | true =>
    rw [if_pos rfl]
    cases activation : LexemDef.firstBytes pattern with
    | error e =>
      constructor
      · intro h
        simp [error_bind] at h
      · rintro ⟨activate, admits, -⟩
        simp [admits.activation] at activation
    | ok activate =>
      simp only [ok_bind]
      by_cases nothing : pattern = ""
      · subst nothing
        have no_text : "".isEmpty = true := rfl
        simp only [no_text, if_true]
        constructor
        · intro h
          refine ⟨activate, ⟨compiles, activation, by simp⟩, ?_⟩
          rw [← Except.ok.inj h]
          simp [push, LexemDef.tries]
        · rintro ⟨activate', admits, rfl⟩
          obtain rfl := Except.ok.inj (activation.symm.trans admits.activation)
          simp [push, LexemDef.tries]
      · have some_pattern : pattern.isEmpty = false := by simpa using nothing
        simp only [some_pattern, Bool.false_eq_true, if_false]
        by_cases first : ∃ ch ∈ activate, ch < 256
        · have some_first : ((List.range 256).filter fun ch => decide (ch ∈ activate)).isEmpty
              = false := by
            obtain ⟨ch, mem, small⟩ := first
            refine List.isEmpty_eq_false_iff_exists_mem.mpr ⟨ch, ?_⟩
            simp [mem, small]
          simp only [some_first, Bool.false_eq_true, if_false]
          constructor
          · intro h
            refine ⟨activate, ⟨compiles, activation, fun _ => first⟩, ?_⟩
            rw [← Except.ok.inj h, push, indexed activate nothing]
          · rintro ⟨activate', admits, rfl⟩
            obtain rfl := Except.ok.inj (activation.symm.trans admits.activation)
            rw [push, indexed activate nothing]
        · have no_first : ((List.range 256).filter fun ch => decide (ch ∈ activate)).isEmpty
              = true := by
            refine List.isEmpty_iff.mpr (List.filter_eq_nil_iff.mpr fun ch small mem => first ?_)
            exact ⟨ch, by simpa using mem, List.mem_range.mp small⟩
          simp only [no_first, if_true]
          constructor
          · intro h
            simp at h
          · rintro ⟨activate', admits, -⟩
            obtain rfl := Except.ok.inj (activation.symm.trans admits.activation)
            exact absurd (admits.some_first nothing) first

theorem defineLexem_adds {line : Int} {name pattern : String} {keyword : Bool}
    {select id : Nat}
    (h : lexer.defineLexem_ patterns line name pattern keyword select = .ok (lexer', id)) :
    ∃ activate, Admits patterns pattern activate ∧
      Adds lexer line name pattern activate select keyword lexer' id := by
  unfold defineLexem_ at h
  split at h
  · rename_i empty
    obtain ⟨pushed, hp, h⟩ := bind_eq_ok.mp h
    obtain ⟨rfl, rfl⟩ := Prod.mk.inj (Except.ok.inj h)
    obtain ⟨activate, admits, rfl⟩ := pushDefinition_iff.mp hp
    exact ⟨activate, admits, .unnamed (by simpa using empty)⟩
  · rename_i some_name
    have some_name : name ≠ "" := by simpa using some_name
    cases found : lexer.nameidmap.find name with
    | none =>
      simp only [SortedMap.insertNew_of_none found] at h
      obtain ⟨pushed, hp, h⟩ := bind_eq_ok.mp h
      obtain ⟨rfl, rfl⟩ := Prod.mk.inj (Except.ok.inj h)
      obtain ⟨activate, admits, rfl⟩ := pushDefinition_iff.mp hp
      exact ⟨activate, admits, .fresh _ some_name found⟩
    | some known =>
      simp only [SortedMap.insertNew_of_some found] at h
      split at h
      · simp at h
      · rename_i plain
        obtain rfl : keyword = false := by simpa using plain
        obtain ⟨pushed, hp, h⟩ := bind_eq_ok.mp h
        obtain ⟨rfl, rfl⟩ := Prod.mk.inj (Except.ok.inj h)
        obtain ⟨activate, admits, rfl⟩ := pushDefinition_iff.mp hp
        exact ⟨activate, admits, .known some_name rfl found⟩

/-- A pattern that is admitted can be defined, unless it is a keyword with a known name. -/
theorem defineLexem_ok (lexer : Lexer) (line : Int) (name : String) {pattern : String}
    (keyword : Bool) (select : Nat) {activate : List Nat}
    (admits : Admits patterns pattern activate)
    (new : keyword = true → lexer.nameidmap.find name = none) :
    ∃ lexer' id, lexer.defineLexem_ patterns line name pattern keyword select =
      .ok (lexer', id) := by
  have pushes : ∀ (l : Lexer) (name : String) (id : Nat) (keyword : Bool), ∃ l',
      l.pushDefinition patterns line name pattern id keyword select = .ok l' :=
    fun l name id keyword => ⟨_, pushDefinition_iff.mpr ⟨activate, admits, rfl⟩⟩
  unfold defineLexem_
  split
  · obtain ⟨l', pushed⟩ := pushes lexer "" 0 false
    exact ⟨l', 0, by rw [pushed, ok_bind]⟩
  · cases found : lexer.nameidmap.find name with
    | none =>
      simp only [SortedMap.insertNew_of_none found]
      obtain ⟨l', pushed⟩ := pushes { lexer with
        nameidmap := lexer.nameidmap.set name (lexer.nameidmap.entries.length + 1)
        namelist := lexer.namelist ++ [if keyword then nameString name else name]
        id2keyword := if keyword then
            (padKeywords lexer.id2keyword (lexer.nameidmap.entries.length + 1)).set
              (lexer.nameidmap.entries.length + 1) true
          else padKeywords lexer.id2keyword (lexer.nameidmap.entries.length + 1) }
        name (lexer.nameidmap.entries.length + 1) keyword
      exact ⟨l', _, by rw [pushed, ok_bind]⟩
    | some known =>
      simp only [SortedMap.insertNew_of_some found]
      cases keyword with
      | true => simp [new rfl] at found
      | false =>
        obtain ⟨l', pushed⟩ := pushes { lexer with
          id2keyword := padKeywords lexer.id2keyword (lexer.nameidmap.entries.length + 1) }
          name known false
        exact ⟨l', known, by rw [if_neg (by simp), pushed, ok_bind]⟩

theorem registered_empty : Registered patterns {} where
  number := by simp [definedNames, numberIn]
  count := by simp [definedNames, SortedMap.empty]
  named := by simp
  unnamed := by simp
  keyword := by simp
  fresh := by simp
  covered := by
    intro i positive bound
    simp [SortedMap.empty] at bound
    omega
  flagged := by simp
  admitted := by simp

theorem definedNames_push (d : LexemDef) (lexer : Lexer) :
    (lexer.push d).definedNames =
      lexer.definedNames ++ if d.id ≠ 0 then [d.name] else [] := by
  unfold definedNames push
  by_cases number : d.id = 0 <;> simp [number]

theorem getElem?_padKeywords {flags : List Bool} {id i : Nat} {flag : Bool}
    (h : (padKeywords flags id)[i]? = some flag) :
    flags[i]? = some flag ∨ flags.length ≤ i ∧ flag = false := by
  unfold padKeywords at h
  rw [List.getElem?_append] at h
  split at h
  · exact Or.inl h
  · rename_i outside
    refine Or.inr ⟨by omega, ?_⟩
    obtain ⟨bound, here⟩ := List.getElem?_eq_some_iff.mp h
    rw [← here, List.getElem_replicate]

namespace Registered

theorem id_le (h : Registered patterns lexer) {d : LexemDef} (mem : d ∈ lexer.defar) :
    d.id ≤ lexer.nameidmap.entries.length := by
  by_cases number : d.id = 0
  · omega
  · have found := h.named d mem number
    rw [h.number] at found
    rw [h.count]
    exact (numberIn_bound found).2

theorem id_lt (h : Registered patterns lexer) {d : LexemDef} (mem : d ∈ lexer.defar) :
    d.id < lexer.nameidmap.entries.length + 1 := Nat.lt_succ_of_le (h.id_le mem)

theorem keyword_id (h : Registered patterns lexer) {d : LexemDef} (mem : d ∈ lexer.defar)
    (keyword : d.keyword = true) : d.id ≠ 0 := by
  intro zero
  have plain := (h.unnamed d mem zero).2
  rw [keyword] at plain
  exact Bool.noConfusion plain

theorem mem_definedNames (h : Registered patterns lexer) {name : String} :
    name ∈ lexer.definedNames ↔ lexer.nameidmap.find name ≠ none := by
  rw [h.number]
  unfold numberIn
  split <;> simp [*]

theorem padded (h : Registered patterns lexer) {id i : Nat} {flag : Bool}
    (found : (padKeywords lexer.id2keyword id)[i]? = some flag) :
    flag = true ↔ ∃ d ∈ lexer.defar, d.keyword = true ∧ d.id = i := by
  rcases getElem?_padKeywords found with old | ⟨outside, rfl⟩
  · exact h.flagged i flag old
  · refine ⟨fun no => Bool.noConfusion no, ?_⟩
    rintro ⟨d, mem, keyword, rfl⟩
    have inside := h.covered d.id (Nat.pos_of_ne_zero (h.keyword_id mem keyword)) (h.id_le mem)
    omega

theorem push_fresh (h : Registered patterns lexer) {name : String} (entry : String)
    {d : LexemDef}
    (new : lexer.nameidmap.find name = none) (name_eq : d.name = name)
    (id_eq : d.id = lexer.nameidmap.entries.length + 1)
    (keyword : d.keyword = true → name ≠ "" ∧ d.select = 0)
    (admits : d.source ≠ "" → Admits patterns d.source d.activate) :
    Registered patterns ((lexer.addName name entry d.keyword).push d) := by
  subst name_eq
  have names : ((lexer.addName d.name entry d.keyword).push d).definedNames =
      lexer.definedNames ++ [d.name] := by
    rw [definedNames_push, if_pos (by omega)]
    rfl
  have absent : d.name ∉ lexer.definedNames := fun mem => h.mem_definedNames.mp mem new
  have defar : ((lexer.addName d.name entry d.keyword).push d).defar = lexer.defar ++ [d] := rfl
  have nameidmap : ((lexer.addName d.name entry d.keyword).push d).nameidmap =
      lexer.nameidmap.set d.name d.id := by
    rw [id_eq]
    rfl
  have length : (lexer.nameidmap.set d.name d.id).entries.length = d.id := by
    rw [SortedMap.length_set_of_none new, id_eq]
  refine ⟨?_, ?_, ?_, ?_, ?_, ?_, ?_, ?_, ?_⟩
  · intro other
    rw [names, nameidmap, numberIn_snoc, SortedMap.find_set, ← h.number, ← h.count, id_eq]
    by_cases same : d.name = other
    · subst same
      simp [absent]
    · simp [same, Ne.symm same]
  · rw [names, nameidmap, length, eraseDups_snoc, if_neg absent, List.length_append, ← h.count,
      id_eq]
    rfl
  · intro x mem number
    rw [defar] at mem
    rw [nameidmap, SortedMap.find_set]
    rcases List.mem_append.mp mem with old | same
    · have found := h.named x old number
      have other : d.name ≠ x.name := by
        intro same
        rw [← same, new] at found
        simp at found
      simp [other, found]
    · rw [List.mem_singleton.mp same]
      simp
  · intro x mem number
    rw [defar] at mem
    rcases List.mem_append.mp mem with old | same
    · exact h.unnamed x old number
    · rw [List.mem_singleton.mp same] at number
      omega
  · intro x mem is_keyword
    rw [defar] at mem
    rcases List.mem_append.mp mem with old | same
    · exact h.keyword x old is_keyword
    · rw [List.mem_singleton.mp same] at is_keyword ⊢
      exact keyword is_keyword
  · rw [defar]
    refine List.pairwise_append.mpr ⟨h.fresh, List.pairwise_singleton _ _, ?_⟩
    intro x mem y single _ same
    rw [List.mem_singleton.mp single] at same
    by_cases number : x.id = 0
    · have empty := (h.unnamed x mem number).1
      rw [List.mem_singleton.mp single] at *
      exact (keyword ‹_›).1 (same ▸ empty)
    · have found := h.named x mem number
      rw [same, new] at found
      simp at found
  · intro i positive bound
    rw [nameidmap, length, id_eq] at bound
    have longer := lt_length_padKeywords lexer.id2keyword
      (lexer.nameidmap.entries.length + 1)
    have whole : ((lexer.addName d.name entry d.keyword).push d).id2keyword.length =
        (padKeywords lexer.id2keyword (lexer.nameidmap.entries.length + 1)).length := by
      unfold push addName
      cases d.keyword <;> simp
    omega
  · intro i flag found
    rw [defar]
    have others : (∃ x ∈ lexer.defar ++ [d], x.keyword = true ∧ x.id = i) ↔
        (∃ x ∈ lexer.defar, x.keyword = true ∧ x.id = i) ∨ d.keyword = true ∧ d.id = i := by
      simp [or_and_right, exists_or]
    have none_yet : ¬ ∃ x ∈ lexer.defar, x.keyword = true ∧ x.id = d.id := by
      rintro ⟨x, mem, -, same⟩
      have := h.id_lt mem
      omega
    rw [others]
    cases is_keyword : d.keyword with
    | false =>
      have table : ((lexer.addName d.name entry d.keyword).push d).id2keyword =
          padKeywords lexer.id2keyword (lexer.nameidmap.entries.length + 1) := by
        unfold push addName
        simp [is_keyword]
      rw [is_keyword] at table
      rw [is_keyword, table] at found
      simpa using h.padded found
    | true =>
      have table : ((lexer.addName d.name entry d.keyword).push d).id2keyword =
          (padKeywords lexer.id2keyword (lexer.nameidmap.entries.length + 1)).set d.id true := by
        unfold push addName
        simp [is_keyword, id_eq]
      rw [is_keyword] at table
      rw [is_keyword, table, List.getElem?_set] at found
      split at found
      · rename_i same
        split at found
        · obtain rfl := Option.some.inj found
          simp [same]
        · simp at found
      · rename_i other
        simpa [other] using h.padded found
  · intro x mem some_pattern
    rw [defar] at mem
    rcases List.mem_append.mp mem with old | same
    · exact h.admitted x old some_pattern
    · rw [List.mem_singleton.mp same] at some_pattern ⊢
      exact admits some_pattern

theorem push_old (h : Registered patterns lexer) {d : LexemDef} {flags : List Bool}
    (number : d.id = 0 ∧ d.name = "" ∨ lexer.nameidmap.find d.name = some d.id)
    (plain : d.keyword = false)
    (table : flags = lexer.id2keyword ∨
      flags = padKeywords lexer.id2keyword (lexer.nameidmap.entries.length + 1))
    (admits : d.source ≠ "" → Admits patterns d.source d.activate) :
    Registered patterns (push d { lexer with id2keyword := flags }) := by
  have positive : lexer.nameidmap.find d.name = some d.id → d.id ≠ 0 := by
    intro found
    rw [h.number] at found
    have := (numberIn_bound found).1
    omega
  have names : (push d { lexer with id2keyword := flags }).definedNames.eraseDups =
      lexer.definedNames.eraseDups ∧
      ∀ name, numberIn (push d { lexer with id2keyword := flags }).definedNames name =
        numberIn lexer.definedNames name := by
    have same : (push d { lexer with id2keyword := flags }).definedNames =
        lexer.definedNames ++ if d.id ≠ 0 then [d.name] else [] :=
      definedNames_push d { lexer with id2keyword := flags }
    rw [same]
    by_cases zero : d.id = 0
    · simp [zero]
    · have known : lexer.nameidmap.find d.name = some d.id :=
        number.resolve_left fun unnamed => zero unnamed.1
      have mem : d.name ∈ lexer.definedNames := h.mem_definedNames.mpr (by simp [known])
      rw [if_pos zero]
      refine ⟨by rw [eraseDups_snoc, if_pos mem], fun name => ?_⟩
      rw [numberIn_snoc, if_neg fun both => both.2 mem]
  refine ⟨?_, ?_, ?_, ?_, ?_, ?_, ?_, ?_, ?_⟩
  · intro name
    rw [names.2]
    exact h.number name
  · rw [names.1]
    exact h.count
  · intro x mem zero
    rcases List.mem_append.mp mem with old | same
    · exact h.named x old zero
    · rw [List.mem_singleton.mp same] at zero ⊢
      exact number.resolve_left fun unnamed => zero unnamed.1
  · intro x mem zero
    rcases List.mem_append.mp mem with old | same
    · exact h.unnamed x old zero
    · rw [List.mem_singleton.mp same] at zero ⊢
      rcases number with unnamed | known
      · exact ⟨unnamed.2, plain⟩
      · exact absurd zero (positive known)
  · intro x mem keyword
    rcases List.mem_append.mp mem with old | same
    · exact h.keyword x old keyword
    · rw [List.mem_singleton.mp same, plain] at keyword
      exact Bool.noConfusion keyword
  · refine List.pairwise_append.mpr ⟨h.fresh, List.pairwise_singleton _ _, ?_⟩
    intro x mem y single keyword
    rw [List.mem_singleton.mp single, plain] at keyword
    exact Bool.noConfusion keyword
  · intro i positive bound
    have inside := h.covered i positive bound
    have longer := lt_length_padKeywords lexer.id2keyword (lexer.nameidmap.entries.length + 1)
    show i < flags.length
    rcases table with rfl | rfl
    · exact inside
    · omega
  · intro i flag found
    have old : flag = true ↔ ∃ x ∈ lexer.defar, x.keyword = true ∧ x.id = i := by
      rcases table with rfl | rfl
      · exact h.flagged i flag found
      · exact h.padded found
    rw [old]
    constructor
    · rintro ⟨x, mem, keyword, id_eq⟩
      exact ⟨x, List.mem_append_left _ mem, keyword, id_eq⟩
    · rintro ⟨x, mem, keyword, id_eq⟩
      rcases List.mem_append.mp mem with old | same
      · exact ⟨x, old, keyword, id_eq⟩
      · rw [List.mem_singleton.mp same, plain] at keyword
        exact Bool.noConfusion keyword
  · intro x mem some_pattern
    rcases List.mem_append.mp mem with old | same
    · exact h.admitted x old some_pattern
    · rw [List.mem_singleton.mp same] at some_pattern ⊢
      exact admits some_pattern

theorem adds (h : Registered patterns lexer) {line : Int} {name pattern : String}
    {activate : List Nat} {select id : Nat} {keyword : Bool}
    (admits : Admits patterns pattern activate) (whole : keyword = true → select = 0)
    (step : Adds lexer line name pattern activate select keyword lexer' id) :
    Registered patterns lexer' := by
  cases step with
  | unnamed empty => exact h.push_old (Or.inl ⟨rfl, rfl⟩) rfl (Or.inl rfl) fun _ => admits
  | fresh entry some_name new =>
    exact h.push_fresh (d := ⟨line, name, pattern, activate, select, _, keyword⟩) entry new rfl rfl
      (fun is_keyword => ⟨some_name, whole is_keyword⟩) fun _ => admits
  | known some_name plain found => exact h.push_old (Or.inr found) rfl (Or.inr rfl) fun _ => admits

theorem defineLexem_ {line : Int} {name pattern : String} {keyword : Bool} {select id : Nat}
    (h : Registered patterns lexer) (whole : keyword = true → select = 0)
    (call : lexer.defineLexem_ patterns line name pattern keyword select = .ok (lexer', id)) :
    Registered patterns lexer' := by
  obtain ⟨activate, admits, step⟩ := defineLexem_adds call
  exact h.adds admits whole step

theorem defineLexemId {name : String} {id : Nat} (h : Registered patterns lexer)
    (call : lexer.defineLexemId name = .ok (lexer', id)) : Registered patterns lexer' := by
  obtain ⟨d, entry, name_eq, id_eq, source, plain, new, number, rfl⟩ := defineLexemId_spec call
  have step := h.push_fresh entry new name_eq (id_eq.trans number) (by simp [plain])
    fun some_pattern => absurd source some_pattern
  have same : (lexer.addName name entry d.keyword).push d = { lexer with
      nameidmap := lexer.nameidmap.set name id
      namelist := lexer.namelist ++ [entry]
      id2keyword := padKeywords lexer.id2keyword id
      defar := lexer.defar ++ [d] } := by
    unfold push addName
    simp [plain, number, tries_of_source source]
  rwa [same] at step

end Registered

theorem Defined.registered (defined : Defined patterns lexer) : Registered patterns lexer := by
  induction defined with
  | empty => exact registered_empty
  | badLexem line name _ ih => exact ⟨ih.number, ih.count, ih.named, ih.unnamed, ih.keyword,
      ih.fresh, ih.covered, ih.flagged, ih.admitted⟩
  | lexem _ h ih =>
    obtain ⟨⟨l, id⟩, call, eq⟩ := bind_eq_ok.mp h
    obtain rfl := Except.ok.inj eq
    exact ih.defineLexem_ (fun no => Bool.noConfusion no) call
  | keyword _ h ih =>
    obtain ⟨⟨l, id⟩, call, eq⟩ := bind_eq_ok.mp h
    obtain rfl := Except.ok.inj eq
    exact ih.defineLexem_ (fun _ => rfl) call
  | ignore _ h ih =>
    obtain ⟨⟨l, id⟩, call, eq⟩ := bind_eq_ok.mp h
    obtain rfl := Except.ok.inj eq
    exact ih.defineLexem_ (fun _ => rfl) call
  | eolnComment _ h ih =>
    unfold defineEolnComment at h
    split at h
    · simp at h
    · obtain rfl := Except.ok.inj h
      exact ⟨ih.number, ih.count, ih.named, ih.unnamed, ih.keyword, ih.fresh, ih.covered,
        ih.flagged, ih.admitted⟩
  | bracketComment _ h ih =>
    unfold defineBracketComment at h
    split at h
    · simp at h
    · obtain rfl := Except.ok.inj h
      exact ⟨ih.number, ih.count, ih.named, ih.unnamed, ih.keyword, ih.fresh, ih.covered,
        ih.flagged, ih.admitted⟩
  | indentLexems _ h ih =>
    unfold defineIndentLexems at h
    split at h
    · simp at h
    obtain ⟨⟨opened, openid⟩, hopen, h⟩ := bind_eq_ok.mp h
    obtain ⟨⟨closed, closeid⟩, hclose, h⟩ := bind_eq_ok.mp h
    obtain ⟨⟨lined, newlineid⟩, hline, h⟩ := bind_eq_ok.mp h
    have last := ((ih.defineLexemId hopen).defineLexemId hclose).defineLexemId hline
    obtain rfl := Except.ok.inj h
    exact ⟨last.number, last.count, last.named, last.unnamed, last.keyword, last.fresh,
      last.covered, last.flagged, last.admitted⟩

end Mewa.Lexer
