/- Module: Mewa/Generated/Loading
   digest: The loading of a printed lexer makes its definitions again, the keywords at the end. -/

import Mewa.Generated.Reading
import Mathlib.Data.List.TakeWhile

set_option autoImplicit false
set_option relaxedAutoImplicit false

namespace Mewa.Lexer

open Mewa.Lib

/-- A definition is made as it is printed and read. The keywords are left for the end. -/
def loadDefinition (patterns : PatternEngine) (lexer : Lexer) (d : Definition) :
    Except Failure Lexer :=
  match d.type with
  | .BadLexem => .ok (lexer.defineBadLexem 0 (printed d.bad))
  | .NamedPatternLexem =>
    lexer.defineLexem patterns 0 (printed d.name) (printed d.pattern) d.select.toNat
  | .KeywordLexem => .ok lexer
  | .IgnoreLexem => lexer.defineIgnore patterns 0 (printed d.ignore)
  | .EolnComment => lexer.defineEolnComment 0 (printed d.start)
  | .BracketComment => lexer.defineBracketComment 0 (printed d.start) (printed d.stop)
  | .IndentLexems =>
    .ok { lexer with indentLexems :=
      ⟨0, d.openind.toNat, d.openind.toNat + 1, d.openind.toNat + 2, d.tabsize⟩ }

def keywordNames (ds : List Definition) : List String :=
  (classOf ds "keyword").map fun d => printed d.name

/-- The definitions of some classes in their order, and then the keywords. -/
def loadClasses (patterns : PatternEngine) (ds : List Definition) (classes : List String) :
    Except Failure Lexer := do
  let lexer ← (classes.flatMap (classOf ds)).foldlM (loadDefinition patterns) {}
  (keywordNames ds).foldlM (fun lexer keyword => lexer.defineKeyword patterns keyword "") lexer

/-- What the loader relies on: selections are not negative and indentation is defined once. -/
structure Regular (ds : List Definition) : Prop where
  select : ∀ d ∈ ds, d.type = .NamedPatternLexem → 0 ≤ d.select
  indent : (classOf ds "indentl").length ≤ 1

variable {patterns : PatternEngine} {ds : List Definition}

theorem foldlM_zipIdx_map {ε α β σ : Type} {f : α → β} {g : σ → β × Nat → Except ε σ}
    {h : σ → α → Except ε σ} {l : List α} (same : ∀ s, ∀ a ∈ l, ∀ n, g s (f a, n) = h s a)
    (s : σ) (k : Nat) : ((l.map f).zipIdx k).foldlM g s = l.foldlM h s := by
  induction l generalizing s k with
  | nil => rfl
  | cons a l ih =>
    rw [List.map_cons, List.zipIdx_cons, List.foldlM_cons, List.foldlM_cons,
      same s a List.mem_cons_self]
    congr 1
    funext t
    exact ih (fun s b mem => same s b (List.mem_cons_of_mem a mem)) t _

theorem foldlM_map_eq {ε α β σ : Type} {f : α → β} {g : σ → β → Except ε σ}
    {h : σ → α → Except ε σ} {l : List α} (same : ∀ s, ∀ a ∈ l, g s (f a) = h s a) (s : σ) :
    (l.map f).foldlM g s = l.foldlM h s := by
  induction l generalizing s with
  | nil => rfl
  | cons a l ih =>
    rw [List.map_cons, List.foldlM_cons, List.foldlM_cons, same s a List.mem_cons_self]
    congr 1
    funext t
    exact ih (fun s b mem => same s b (List.mem_cons_of_mem a mem)) t

theorem parseStringArray_eq {α : Type} (tableName : String) (l : List α) {f : α → LuaElement}
    {g : α → String} (values : ∀ a ∈ l, (f a).tolstring = some (g a)) :
    parseStringArray tableName (l.map f) = .ok (l.map g) := by
  unfold parseStringArray
  generalize 1 = k
  induction l generalizing k with
  | nil => rfl
  | cons a l ih =>
    rw [List.map_cons, List.zipIdx_cons, List.mapM_cons,
      ih (fun b mem => values b (List.mem_cons_of_mem a mem))]
    simp only [values a List.mem_cons_self]
    rfl

theorem printed_printed (str : String) : printed (printed str) = printed str := by
  unfold printed cstr
  rw [String.toList_ofList, List.takeWhile_idem]

theorem mem_classOf {d : Definition} {c : String} :
    d ∈ classOf ds c ↔ d ∈ ds ∧ d.type.typeName = c := by
  simp [classOf]

/-- The elements of a class whose definitions have one element each. -/
theorem values_eq_map (ds : List Definition) (c : String) {f : Definition → LuaElement}
    (single : ∀ d ∈ classOf ds c, d.values = [f d]) :
    (rowOf ds c).elements = (classOf ds c).map f := by
  unfold rowOf
  simp only
  generalize classOf ds c = l at single
  induction l with
  | nil => rfl
  | cons d l ih =>
    rw [List.flatMap_cons, single d List.mem_cons_self,
      ih fun e mem => single e (List.mem_cons_of_mem d mem)]
    rfl

theorem string2int_toString (n : Nat) : string2int (toString (n : Int)) = .ok (n : Int) := by
  have digits : (toString (n : Int)).toList = Nat.toDigits 10 n := by
    show (Nat.repr n).toList = _
    exact Nat.toList_repr
  have all : ∀ ch ∈ Nat.toDigits 10 n, isNumeral ch = true ∧ ch ≠ '\x00' := by
    intro ch mem
    have digit := Nat.isDigit_of_mem_toDigits (by omega) (by omega) mem
    simp only [Char.isDigit, ge_iff_le, Bool.and_eq_true, decide_eq_true_eq] at digit
    refine ⟨decide_eq_true (p := '0' ≤ ch ∧ ch ≤ '9') digit, ?_⟩
    rintro rfl
    exact absurd digit.1 (by decide)
  have whole : cstr (Nat.toDigits 10 n) = Nat.toDigits 10 n :=
    List.takeWhile_eq_self_iff.mpr fun ch mem => by simpa using (all ch mem).2
  have numerals : (Nat.toDigits 10 n).dropWhile isNumeral = [] :=
    List.dropWhile_eq_nil_iff.mpr fun ch mem => (all ch mem).1
  have value : ∀ (l : List Char) (init : Nat),
      l.foldl (fun (rt : Int) ch => rt * 10 + (ch.toNat - '0'.toNat : Nat)) (init : Int) =
        (Nat.ofDigitChars 10 l init : Nat) := by
    intro l
    induction l with
    | nil => intro init; rfl
    | cons ch l ih =>
      intro init
      rw [List.foldl_cons, Nat.ofDigitChars_cons, ← ih]
      have step : (init : Int) * 10 + (ch.toNat - '0'.toNat : Nat) =
          ((10 * init + (ch.toNat - '0'.toNat) : Nat) : Int) := by omega
      rw [step]
  unfold string2int
  simp only [digits, whole, numerals, List.isEmpty_nil, if_true]
  have zero := value (Nat.toDigits 10 n) 0
  rw [Nat.ofDigitChars_ten_toDigits] at zero
  exact congrArg Except.ok zero

section Rows

variable (patterns ds) (tableName : String) (n : Nat) (lexer : Lexer) (keywords : List String)

theorem parseRow_comment : parseRow patterns tableName ⟨lexer, keywords⟩ (rowOf ds "comment", n) =
    (classOf ds "comment").foldlM (loadDefinition patterns) lexer >>=
      fun rt => .ok ⟨rt, keywords⟩ := by
  have kind : ∀ d ∈ classOf ds "comment", d.type = .EolnComment ∨ d.type = .BracketComment := by
    intro d mem
    have name := (mem_classOf.mp mem).2
    cases type : d.type <;> simp [type, DefinitionType.typeName] at name ⊢
  have elements := values_eq_map ds "comment"
    (f := fun d => if d.type = .EolnComment then .field (.string (printed d.start))
      else .table [.string (printed d.start), .string (printed d.stop)])
    fun d mem => by
      rcases kind d mem with eoln | bracket
      · simp [Definition.values, eoln]
      · simp [Definition.values, bracket]
  unfold parseRow
  rw [if_pos (show (rowOf ds "comment").key = "comment" from rfl), elements]
  dsimp only
  rw [foldlM_zipIdx_map]
  intro lexer d mem k
  rcases kind d mem with eoln | bracket
  · simp [parseComment, loadDefinition, eoln, printed_printed]
  · have fields := parseStringArray_eq (tableName ++ "/" ++ (rowOf ds "comment").key)
      [printed d.start, printed d.stop] (f := fun str => .field (.string str)) (g := id)
      fun a _ => rfl
    simp only [List.map_cons, List.map_nil, id] at fields
    simp [parseComment, loadDefinition, bracket, fields]

theorem parseRow_keyword : parseRow patterns tableName ⟨lexer, keywords⟩ (rowOf ds "keyword", n) =
    .ok ⟨lexer, keywordNames ds⟩ := by
  have elements := values_eq_map ds "keyword"
    (f := fun d => .field (.string (printed d.name)))
    fun d mem => by
      have name := (mem_classOf.mp mem).2
      cases type : d.type <;> simp [type, DefinitionType.typeName] at name
      simp [Definition.values, type]
  have names := parseStringArray_eq (tableName ++ "/" ++ "keyword") (classOf ds "keyword")
    (f := fun d => .field (.string (printed d.name))) (g := fun d => printed d.name) fun a _ => rfl
  unfold parseRow
  rw [if_neg (show (rowOf ds "keyword").key ≠ "comment" by simp [rowOf]),
    if_pos (show (rowOf ds "keyword").key = "keyword" from rfl), elements]
  dsimp only [rowOf]
  rw [names]
  rfl

theorem parseRow_token (regular : Regular ds) :
    parseRow patterns tableName ⟨lexer, keywords⟩ (rowOf ds "token", n) =
    (classOf ds "token").foldlM (loadDefinition patterns) lexer >>=
      fun rt => .ok ⟨rt, keywords⟩ := by
  have kind : ∀ d ∈ classOf ds "token", d.type = .NamedPatternLexem := by
    intro d mem
    have name := (mem_classOf.mp mem).2
    cases type : d.type <;> simp [type, DefinitionType.typeName] at name ⊢
  have elements := values_eq_map ds "token"
    (f := fun d => .table ([.string (printed d.name), .string (printed d.pattern)] ++
      if d.select ≠ 0 then [.integer d.select] else []))
    fun d mem => by simp [Definition.values, kind d mem]
  unfold parseRow
  rw [if_neg (show (rowOf ds "token").key ≠ "comment" by simp [rowOf]),
    if_neg (show (rowOf ds "token").key ≠ "keyword" by simp [rowOf]),
    if_pos (show (rowOf ds "token").key = "token" from rfl), elements]
  dsimp only
  rw [foldlM_map_eq]
  intro lexer d mem
  obtain ⟨select, select_eq⟩ := Int.eq_ofNat_of_zero_le
    (regular.select d (mem_classOf.mp mem).1 (kind d mem))
  by_cases zero : d.select = 0
  · have fields := parseStringArray_eq (tableName ++ "/" ++ (rowOf ds "token").key)
      [printed d.name, printed d.pattern] (f := fun str => .field (.string str)) (g := id)
      fun a _ => rfl
    simp only [List.map_cons, List.map_nil, id] at fields
    simp [parseToken, loadDefinition, kind d mem, zero, fields]
  · have fields := parseStringArray_eq (tableName ++ "/" ++ (rowOf ds "token").key)
      [LuaElement.field (.string (printed d.name)), .field (.string (printed d.pattern)),
        .field (.integer d.select)] (f := id) (g := fun e => e.tolstring.getD "")
      fun a mem => by
        simp only [List.mem_cons, List.not_mem_nil, or_false] at mem
        rcases mem with rfl | rfl | rfl <;> rfl
    simp only [List.map_cons, List.map_nil, id, LuaElement.tolstring, Option.getD_some] at fields
    have number : string2int d.select.repr = .ok d.select := by
      have same := string2int_toString select
      rwa [← select_eq] at same
    simp [parseToken, loadDefinition, kind d mem, zero, fields, number]

theorem parseRow_bad : parseRow patterns tableName ⟨lexer, keywords⟩ (rowOf ds "bad", n) =
    (classOf ds "bad").foldlM (loadDefinition patterns) lexer >>=
      fun rt => .ok ⟨rt, keywords⟩ := by
  have kind : ∀ d ∈ classOf ds "bad", d.type = .BadLexem := by
    intro d mem
    have name := (mem_classOf.mp mem).2
    cases type : d.type <;> simp [type, DefinitionType.typeName] at name ⊢
  have elements := values_eq_map ds "bad"
    (f := fun d => .field (.string (printed d.bad)))
    fun d mem => by simp [Definition.values, kind d mem]
  have names := parseStringArray_eq (tableName ++ "/" ++ (rowOf ds "bad").key) (classOf ds "bad")
    (f := fun d => .field (.string (printed d.bad))) (g := fun d => printed d.bad) fun a _ => rfl
  have fold : (classOf ds "bad").foldlM (loadDefinition patterns) lexer =
      .ok (((classOf ds "bad").map fun d => printed d.bad).foldl
        (fun rt bad => rt.defineBadLexem 0 bad) lexer) := by
    generalize classOf ds "bad" = l at kind
    induction l generalizing lexer with
    | nil => rfl
    | cons d l ih =>
      have first : loadDefinition patterns lexer d = .ok (lexer.defineBadLexem 0 (printed d.bad)) := by
        simp [loadDefinition, kind d List.mem_cons_self]
      rw [List.foldlM_cons, first, ok_bind, ih _ fun e mem => kind e (List.mem_cons_of_mem d mem)]
      rfl
  unfold parseRow
  rw [if_neg (show (rowOf ds "bad").key ≠ "comment" by simp [rowOf]),
    if_neg (show (rowOf ds "bad").key ≠ "keyword" by simp [rowOf]),
    if_neg (show (rowOf ds "bad").key ≠ "token" by simp [rowOf]),
    if_pos (show (rowOf ds "bad").key = "bad" from rfl), elements]
  dsimp only
  rw [names, fold]
  rfl

theorem parseRow_ignore : parseRow patterns tableName ⟨lexer, keywords⟩ (rowOf ds "ignore", n) =
    (classOf ds "ignore").foldlM (loadDefinition patterns) lexer >>=
      fun rt => .ok ⟨rt, keywords⟩ := by
  have kind : ∀ d ∈ classOf ds "ignore", d.type = .IgnoreLexem := by
    intro d mem
    have name := (mem_classOf.mp mem).2
    cases type : d.type <;> simp [type, DefinitionType.typeName] at name ⊢
  have elements := values_eq_map ds "ignore"
    (f := fun d => .field (.string (printed d.ignore)))
    fun d mem => by simp [Definition.values, kind d mem]
  have names := parseStringArray_eq (tableName ++ "/" ++ (rowOf ds "ignore").key)
    (classOf ds "ignore") (f := fun d => .field (.string (printed d.ignore)))
    (g := fun d => printed d.ignore) fun a _ => rfl
  have fold : ((classOf ds "ignore").map fun d => printed d.ignore).foldlM
      (fun rt ignore => rt.defineIgnore patterns 0 ignore) lexer =
      (classOf ds "ignore").foldlM (loadDefinition patterns) lexer :=
    foldlM_map_eq (fun lexer d mem => by simp [loadDefinition, kind d mem]) lexer
  unfold parseRow
  rw [if_neg (show (rowOf ds "ignore").key ≠ "comment" by simp [rowOf]),
    if_neg (show (rowOf ds "ignore").key ≠ "keyword" by simp [rowOf]),
    if_neg (show (rowOf ds "ignore").key ≠ "token" by simp [rowOf]),
    if_neg (show (rowOf ds "ignore").key ≠ "bad" by simp [rowOf]),
    if_pos (show (rowOf ds "ignore").key = "ignore" from rfl), elements]
  dsimp only
  rw [names, ok_bind, fold]

theorem parseRow_indentl (regular : Regular ds) (used : classOf ds "indentl" ≠ []) :
    parseRow patterns tableName ⟨lexer, keywords⟩ (rowOf ds "indentl", n) =
    (classOf ds "indentl").foldlM (loadDefinition patterns) lexer >>=
      fun rt => .ok ⟨rt, keywords⟩ := by
  obtain ⟨d, only⟩ : ∃ d, classOf ds "indentl" = [d] := by
    have one := regular.indent
    cases whole : classOf ds "indentl" with
    | nil => exact absurd whole used
    | cons d rest =>
      rw [whole, List.length_cons] at one
      have empty : rest = [] := List.length_eq_zero_iff.mp (by omega)
      exact ⟨d, by rw [empty]⟩
  have name := (mem_classOf.mp (only ▸ List.mem_singleton_self d)).2
  have kind : d.type = .IndentLexems := by
    cases type : d.type <;> simp [type, DefinitionType.typeName] at name ⊢
  have elements : (rowOf ds "indentl").elements =
      [.field (.integer d.openind), .field (.integer d.tabsize)] := by
    simp [rowOf, only, Definition.values, kind]
  unfold parseRow
  rw [if_neg (show (rowOf ds "indentl").key ≠ "comment" by simp [rowOf]),
    if_neg (show (rowOf ds "indentl").key ≠ "keyword" by simp [rowOf]),
    if_neg (show (rowOf ds "indentl").key ≠ "token" by simp [rowOf]),
    if_neg (show (rowOf ds "indentl").key ≠ "bad" by simp [rowOf]),
    if_neg (show (rowOf ds "indentl").key ≠ "ignore" by simp [rowOf]),
    if_pos (show (rowOf ds "indentl").key = "indentl" from rfl), elements, only]
  simp only [List.foldlM_cons, List.foldlM_nil, loadDefinition, kind]
  rfl

theorem parseRow_eq (regular : Regular ds) {c : String} (used : c ∈ usedClasses ds) :
    parseRow patterns tableName ⟨lexer, keywords⟩ (rowOf ds c, n) =
      (classOf ds c).foldlM (loadDefinition patterns) lexer >>=
        fun rt => .ok ⟨rt, if c = "keyword" then keywordNames ds else keywords⟩ := by
  obtain ⟨d, mem, rfl⟩ := mem_usedClasses.mp used
  have inside : classOf ds d.type.typeName ≠ [] :=
    List.ne_nil_of_mem (mem_classOf.mpr ⟨mem, rfl⟩)
  cases type : d.type with
  | BadLexem => exact parseRow_bad patterns ds tableName n lexer keywords
  | NamedPatternLexem => exact parseRow_token patterns ds tableName n lexer keywords regular
  | IgnoreLexem => exact parseRow_ignore patterns ds tableName n lexer keywords
  | EolnComment => exact parseRow_comment patterns ds tableName n lexer keywords
  | BracketComment => exact parseRow_comment patterns ds tableName n lexer keywords
  | IndentLexems =>
    rw [type] at inside
    exact parseRow_indentl patterns ds tableName n lexer keywords regular inside
  | KeywordLexem =>
    have nothing : (classOf ds "keyword").foldlM (loadDefinition patterns) lexer = .ok lexer := by
      have kind : ∀ d ∈ classOf ds "keyword", d.type = .KeywordLexem := by
        intro d mem
        have name := (mem_classOf.mp mem).2
        cases type : d.type <;> simp [type, DefinitionType.typeName] at name ⊢
      generalize classOf ds "keyword" = l at kind
      induction l with
      | nil => rfl
      | cons d l ih =>
        have first : loadDefinition patterns lexer d = .ok lexer := by
          simp [loadDefinition, kind d List.mem_cons_self]
        rw [List.foldlM_cons, first, ok_bind, ih fun e mem => kind e (List.mem_cons_of_mem d mem)]
    have name : DefinitionType.KeywordLexem.typeName = "keyword" := rfl
    rw [name, parseRow_keyword, nothing, ok_bind, if_pos rfl]

theorem foldlM_parseRow (regular : Regular ds) {classes : List String}
    (used : ∀ c ∈ classes, c ∈ usedClasses ds) :
    ((classes.map (rowOf ds)).zipIdx n).foldlM (parseRow patterns tableName) ⟨lexer, keywords⟩ =
      (classes.flatMap (classOf ds)).foldlM (loadDefinition patterns) lexer >>=
        fun rt => .ok ⟨rt, if "keyword" ∈ classes then keywordNames ds else keywords⟩ := by
  induction classes generalizing n lexer keywords with
  | nil => rfl
  | cons c classes ih =>
    rw [List.map_cons, List.zipIdx_cons, List.foldlM_cons,
      parseRow_eq patterns ds tableName n lexer keywords regular (used c List.mem_cons_self),
      List.flatMap_cons, List.foldlM_append, bind_assoc, bind_assoc]
    congr 1
    funext next
    rw [ok_bind, ih (n + 1) next _ fun c' mem => used c' (List.mem_cons_of_mem c mem)]
    congr 1
    funext rt
    by_cases here : c = "keyword"
    · simp [here]
    · have other : "keyword" ≠ c := fun same => here same.symm
      simp [here, other]

theorem parseLexerDefinitions_eq (regular : Regular ds) {classes : List String}
    (all : classes.Perm (usedClasses ds)) :
    parseLexerDefinitions patterns tableName (classes.map (rowOf ds)) =
      loadClasses patterns ds classes := by
  have keywords_eq : (if "keyword" ∈ classes then keywordNames ds else []) = keywordNames ds := by
    split
    · rfl
    · rename_i unused
      have empty : classOf ds "keyword" = [] := by
        refine List.eq_nil_iff_forall_not_mem.mpr fun d mem => unused (all.mem_iff.mpr ?_)
        exact mem_usedClasses.mpr ⟨d, mem_classOf.mp mem⟩
      simp [keywordNames, empty]
  unfold parseLexerDefinitions loadClasses
  have fold := foldlM_parseRow patterns ds tableName 1 {} [] regular fun c mem => all.mem_iff.mp mem
  rw [keywords_eq] at fold
  have start : ({} : LexerDefinitions) = ⟨{}, []⟩ := rfl
  rw [start, fold, bind_assoc]
  rfl

theorem exists_classes {rows : List LuaRow} {classes : List String}
    (h : rows.Perm (classes.map (rowOf ds))) :
    ∃ classes' : List String, classes'.Perm classes ∧ rows = classes'.map (rowOf ds) := by
  have keys : (classes.map (rowOf ds)).map LuaRow.key = classes := by
    rw [List.map_map]
    exact List.map_id classes
  refine ⟨rows.map LuaRow.key, keys ▸ h.map LuaRow.key, ?_⟩
  rw [List.map_map]
  have same : ∀ row ∈ rows, (rowOf ds ∘ LuaRow.key) row = row := by
    intro row mem
    obtain ⟨c, -, rfl⟩ := List.mem_map.mp (h.mem_iff.mp mem)
    rfl
  exact ((List.map_congr_left same).trans (List.map_id rows)).symm

end Rows

end Mewa.Lexer
