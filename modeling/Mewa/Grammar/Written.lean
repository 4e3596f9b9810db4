/- Module: Mewa/Grammar/Written
   digest: The comments of a grammar with the tokens behind them, and the decorators written there. -/

import Mewa.Grammar.Decorators
import Mewa.Lexer.Progress

set_option autoImplicit false
set_option relaxedAutoImplicit false

namespace Mewa.Grammar

open Mewa.Lib

/-- A comment as it stands in a grammar: what is written between its delimiters, and the source
    behind it. -/
structure WrittenComment where
  kind : Comment
  text : List Char
  after : List Char

/-- The comments between a position and the next token or the end. -/
inductive Commented (lexer : Lexer) :
    List Char → List WrittenComment → List Char → List Char → Prop
  | blanks (text : List Char) :
      Commented lexer text [] (text.takeWhile isBlank) (text.dropWhile isBlank)
  | comment {text gap rest : List Char} {c : Comment} {length : Nat}
      {comments : List WrittenComment} :
      lexer.commentAt (text.dropWhile isBlank) = some c →
      c.length (text.dropWhile isBlank) = some length → 0 < length →
      Commented lexer ((text.dropWhile isBlank).drop length) comments gap rest →
      Commented lexer text
        (⟨c, ((text.dropWhile isBlank).take (length - c.closing.length)).drop c.opening.length,
          (text.dropWhile isBlank).drop length⟩ :: comments)
        (text.takeWhile isBlank ++ ((text.dropWhile isBlank).take length ++ gap)) rest

/-- A token with the comments before it. -/
structure Item where
  comments : List WrittenComment
  lexem : Lexem

/-- The tokens that the lexer reads from a source one after the other. -/
inductive Lexed (engine : PatternSearch) (lexer : Lexer) : Scanner → List Item → Scanner → Prop
  | nil (s : Scanner) : Lexed engine lexer s [] s
  | cons {s s' s'' : Scanner} {comments : List WrittenComment} {gap rest : List Char}
      {lexem : Lexem} {items : List Item} :
      Commented lexer s.rest comments gap rest → Lexer.AtToken lexer rest →
      Lexer.Calls engine lexer s lexem s' → lexem.id ≠ 0 → Lexed engine lexer s' items s'' →
      Lexed engine lexer s (⟨comments, lexem⟩ :: items) s''

/-! Lines of comments. -/

def trim (line : List Char) : List Char := trimRight (skipSpaces line)

/-- The name of the attribute written at the begin of a line, if there is one, and the text of the
    line, without the attribute and the spaces around it. -/
def writtenLine (line : List Char) : List Char × List Char :=
  match skipSpaces line with
  | '@' :: rest =>
    let start := skipSpaces rest
    let name := start.takeWhile isAttributeChar
    if name = [] then ([], trim line) else (name, trim (start.dropWhile isAttributeChar))
  | _ => ([], trim line)

/-- The lines of a comment. Empty lines at its end do not count. -/
def WrittenComment.lines (c : WrittenComment) : List (List Char) :=
  match c.kind with
  | .eoln _ => [c.text]
  | .bracket _ => (c.text.splitOn '\n').rdropWhile fun line => (trim line).isEmpty

/-- A line with a name begins a decorator, and other lines belong to the decorator before them. -/
def addLine (res : List LanguageDecorator) (dd : List Char × List Char) : List LanguageDecorator :=
  if dd.1 = [] then
    match res.getLast? with
    | none => res
    | some last =>
      res.dropLast ++ [{ last with content := last.content ++ [String.ofList dd.2] }]
  else res ++ [⟨String.ofList dd.1, [String.ofList dd.2]⟩]

def written (comments : List WrittenComment) : List LanguageDecorator :=
  ((comments.flatMap WrittenComment.lines).map writtenLine).foldl addLine []

/-- The line of a comment that the scan takes: with the blanks that follow it, but without the last
    of these. -/
def WrittenComment.taken (c : WrittenComment) : List Char :=
  (c.text ++ '\n' :: c.after.takeWhile isBlank).dropLast

/-- The scan keeps the line of a comment as it is written: no blank follows the end of the line, the
    text does not end with spaces, and a name follows an '@' at its begin. -/
structure Kept (c : WrittenComment) : Prop where
  follows : ∀ ch ∈ c.after.head?, isBlank ch = false
  tight : trimRight (splitDecoratorDef c.text).2 = (splitDecoratorDef c.text).2
  named : (skipSpaces c.text).head? = some '@' → (splitDecoratorDef c.text).1 ≠ []

/-- From the first attribute on all lines are kept. -/
def AllKept (comments : List WrittenComment) : Prop :=
  ∀ before c after, comments = before ++ c :: after → written (before ++ [c]) ≠ [] → Kept c

/-! Declarations. -/

/-- A token is the first one of a declaration: the one before it ends another declaration. -/
def Declares (items before : List Item) (it : Item) : Prop :=
  (∃ after, items = before ++ it :: after) ∧ ∀ last ∈ before.getLast?, last.lexem.name = ";"

def ReservedWritten (items : List Item) : Prop :=
  ∃ it ∈ items, ∃ dc ∈ written it.comments,
    LanguageDecorator.isReservedAttribute dc.name = true

/-- The decorators of a grammar are read, and those of the line where a declaration begins are the
    ones written in the comments directly before it, or a reserved name is reported. -/
def DecoratorsAttached (engine : PatternSearch) (lexer : Lexer) (src : List Char)
    (items : List Item) : Prop :=
  ReservedWritten items ∧ (∃ fuel, parseLanguageDecoratorMap engine lexer fuel src =
    throw .UsingReservedAttributeNameInGrammarDef) ∨
  ∃ fuel map, parseLanguageDecoratorMap engine lexer fuel src = .ok map ∧
    ∀ before it, Declares items before it → map.get it.lexem.line = .ok (written it.comments)

def lexemType (id : Int) : LexemType :=
  match ([.NONE, .IDENT, .NUMBER, .PRIORITY, .DQSTRING, .SQSTRING, .PERCENT, .SLASH, .EQUAL, .ARROW,
    .DDOT, .SEMICOLON, .EPSILON, .CALL, .OPENCURLYBRK, .CLOSECURLYBRK, .COMMA, .OPENBRK, .CLOSEBRK,
    .OR, .STEP, .SCOPE] : List LexemType)[id.toNat]? with
  | some type => if id < 0 then .ERROR else type
  | none => .ERROR

/-- The lexems of a grammar, with the texts that follow them in the source. -/
def grammarLexems (items : List Item) (tails : List String) : List GrammarLexem :=
  List.zipWith (fun it tail => ⟨lexemType it.lexem.id, it.lexem.value, tail, it.lexem.line⟩)
    items tails

/-- A source is read as a grammar that is accepted: its tokens with the comments before them, the
    comments at its end, and what stands behind these. -/
structure Accepted (patterns : PatternEngine) (engine : PatternSearch) (lexer : Lexer)
    (src : List Char) (items : List Item) (trailing : List WrittenComment) (rest : List Char) :
    Prop where
  lexed : ∃ last gap, Lexed engine lexer (.ofSource src) items last ∧
    Commented lexer last.rest trailing gap rest ∧ Lexer.Stop lexer rest ∧
    ∃ lexem s', Lexer.Calls engine lexer last lexem s' ∧ lexem.id = 0
  parsed : ∃ tails lastline langdef, tails.length = items.length ∧
    parseLanguageDef patterns ⟨grammarLexems items tails, lastline⟩ = .ok langdef

def LineComments (items : List Item) (trailing : List WrittenComment) : Prop :=
  ∀ c ∈ items.flatMap Item.comments ++ trailing, ∃ d, c.kind = .eoln d

/-- The last comment has an end, the lines of decorators before a declaration are kept, and a
    declaration that does not begin its line has no decorators before the tokens of the line. -/
structure Attachable (items : List Item) (rest : List Char) : Prop where
  closed : Lexer.atEnd rest = true
  kept : ∀ before it, Declares items before it → AllKept it.comments
  own : ∀ before it, Declares items before it → ∀ jt ∈ before,
    jt.lexem.line = it.lexem.line → written jt.comments = []

section Lines

variable {line extra : List Char} {res res' : List LanguageDecorator}
  {a b : List Char × List Char}

theorem dropWhile_stop {p : Char → Bool} (stop : ∀ ch ∈ extra.head?, p ch = false) :
    (line ++ extra).dropWhile p = line.dropWhile p ++ extra := by
  have kept : extra.dropWhile p = extra := by
    cases extra with
    | nil => rfl
    | cons ch extra => exact List.dropWhile_cons_of_neg (by simp [stop ch rfl])
  rw [List.dropWhile_append]
  split
  · rename_i empty
    rw [List.isEmpty_iff.mp empty, kept, List.nil_append]
  · rfl

theorem takeWhile_stop {p : Char → Bool} (stop : ∀ ch ∈ extra.head?, p ch = false) :
    (line ++ extra).takeWhile p = line.takeWhile p := by
  have none : extra.takeWhile p = [] := by
    cases extra with
    | nil => rfl
    | cons ch extra => exact List.takeWhile_cons_of_neg (by simp [stop ch rfl])
  rw [List.takeWhile_append]
  split
  · rename_i whole
    rw [none, List.append_nil]
    exact (List.takeWhile_prefix p).eq_of_length whole |>.symm
  · rfl

theorem split_attribute {rest : List Char} (split : skipSpaces line = '@' :: rest) :
    splitDecoratorDef line = ((skipSpaces rest).takeWhile isAttributeChar,
      cstr (skipSpaces ((skipSpaces rest).dropWhile isAttributeChar))) := by
  unfold splitDecoratorDef
  rw [split]
  rfl

theorem split_text (other : (skipSpaces line).head? ≠ some '@') :
    splitDecoratorDef line = ([], cstr (skipSpaces line)) := by
  unfold splitDecoratorDef
  split
  · rename_i split
    rw [split] at other
    exact absurd rfl other
  · rfl

theorem mem_skipSpaces {ch : Char} (mem : ch ∈ skipSpaces line) : ch ∈ line :=
  (List.dropWhile_suffix isSpace).subset mem

theorem attribute_or_text (line : List Char) :
    (∃ rest, skipSpaces line = '@' :: rest) ∨ (skipSpaces line).head? ≠ some '@' := by
  by_cases other : (skipSpaces line).head? = some '@'
  · obtain ⟨rest, split⟩ := List.head?_eq_some_iff.mp other
    exact Or.inl ⟨rest, split⟩
  · exact Or.inr other

theorem mem_of_mem_split {ch : Char} (mem : ch ∈ (splitDecoratorDef line).2) : ch ∈ line := by
  have short : ∀ {l : List Char}, ch ∈ cstr l → ch ∈ l := fun mem =>
    (List.takeWhile_prefix _).subset mem
  rcases attribute_or_text line with ⟨rest, split⟩ | other
  · rw [split_attribute split] at mem
    have behind := mem_skipSpaces (short mem)
    have inside := mem_skipSpaces ((List.dropWhile_suffix isAttributeChar).subset behind)
    exact mem_skipSpaces (split ▸ List.mem_cons_of_mem _ inside)
  · rw [split_text other] at mem
    exact mem_skipSpaces (short mem)

theorem splitDecoratorDef_append (plain : '\x00' ∉ line) (plain' : '\x00' ∉ extra)
    (stop : ∀ ch ∈ extra.head?, ch = '\n') :
    splitDecoratorDef (line ++ extra) =
      ((splitDecoratorDef line).1, (splitDecoratorDef line).2 ++ extra) := by
  have space : ∀ ch ∈ extra.head?, isSpace ch = false := fun ch mem => by
    rw [stop ch mem]
    rfl
  have unnamed : ∀ ch ∈ extra.head?, isAttributeChar ch = false := fun ch mem => by
    rw [stop ch mem]
    decide
  have whole : skipSpaces (line ++ extra) = skipSpaces line ++ extra := dropWhile_stop space
  have both : ∀ {l : List Char}, (∀ ch ∈ l, ch ∈ line) → cstr (l ++ extra) = cstr l ++ extra := by
    intro l part
    have none : '\x00' ∉ l := fun mem => plain (part _ mem)
    rw [cstr_plain none, cstr_plain]
    simp [none, plain']
  rcases attribute_or_text line with ⟨rest, split⟩ | other
  · have split' : skipSpaces (line ++ extra) = '@' :: (rest ++ extra) := by
      rw [whole, split]
      rfl
    rw [split_attribute split, split_attribute split']
    have start : skipSpaces (rest ++ extra) = skipSpaces rest ++ extra := dropWhile_stop space
    rw [start, takeWhile_stop unnamed, dropWhile_stop unnamed]
    have content : skipSpaces ((skipSpaces rest).dropWhile isAttributeChar ++ extra) =
        skipSpaces ((skipSpaces rest).dropWhile isAttributeChar) ++ extra := dropWhile_stop space
    rw [content, both]
    intro ch mem
    have inside := mem_skipSpaces ((List.dropWhile_suffix isAttributeChar).subset
      (mem_skipSpaces mem))
    exact mem_skipSpaces (split ▸ List.mem_cons_of_mem _ inside)
  · rw [split_text other, split_text, whole, both fun ch mem => mem_skipSpaces mem]
    rw [whole]
    cases head : skipSpaces line with
    | nil =>
      intro first
      have := stop '@' (by simpa using first)
      simp at this
    | cons ch rest =>
      rw [head] at other
      simpa using other

theorem writtenLine_named (plain : '\x00' ∉ line) (named : (splitDecoratorDef line).1 ≠ []) :
    writtenLine line = ((splitDecoratorDef line).1, trimRight (splitDecoratorDef line).2) := by
  rcases attribute_or_text line with ⟨rest, split⟩ | other
  · rw [split_attribute split] at named ⊢
    have inside : '\x00' ∉ skipSpaces ((skipSpaces rest).dropWhile isAttributeChar) := fun mem =>
      plain (mem_skipSpaces (split ▸ List.mem_cons_of_mem _ (mem_skipSpaces
        ((List.dropWhile_suffix isAttributeChar).subset (mem_skipSpaces mem)))))
    unfold writtenLine
    rw [split]
    simp only [if_neg named, cstr_plain inside]
    rfl
  · rw [split_text other] at named
    exact absurd rfl named

theorem writtenLine_text (none : (splitDecoratorDef line).1 = []) :
    writtenLine line = ([], trim line) := by
  unfold writtenLine
  rcases attribute_or_text line with ⟨rest, split⟩ | other
  · rw [split_attribute split] at none
    simp only [split, if_pos none]
  · split
    · rename_i split
      rw [split] at other
      exact absurd rfl other
    · rfl

theorem writtenLine_fst (plain : '\x00' ∉ line) :
    (writtenLine line).1 = (splitDecoratorDef line).1 := by
  by_cases none : (splitDecoratorDef line).1 = []
  · rw [writtenLine_text none, none]
  · rw [writtenLine_named plain none]

theorem ne_trim_cons (rest : List Char) : skipSpaces rest ≠ trimRight ('@' :: rest) := by
  intro same
  have some_char : trimRight ('@' :: rest) ≠ [] := by
    intro empty
    have := List.rdropWhile_eq_nil_iff.mp empty '@' List.mem_cons_self
    simp at this
  -- the text ends with the last character of the line, thus nothing was cut off
  have tight : trimRight ('@' :: rest) = '@' :: rest := by
    refine List.rdropWhile_eq_self_iff.mpr fun _ => ?_
    have last := List.rdropWhile_last_not (fun ch : Char => decide (ch.toNat ≤ 32)) _ some_char
    obtain ⟨spaces, split⟩ := List.dropWhile_suffix (l := rest) isSpace
    have whole : '@' :: rest = ('@' :: spaces) ++ trimRight ('@' :: rest) := by
      rw [← same, List.cons_append, skipSpaces, split]
    have ends : ('@' :: rest).getLast (by simp) = (trimRight ('@' :: rest)).getLast some_char := by
      rw [List.getLast_congr _ (by simp) whole, List.getLast_append_of_ne_nil _ some_char]
    rw [ends]
    exact last
  have shorter : (skipSpaces rest).length ≤ rest.length :=
    (List.dropWhile_suffix isSpace).length_le
  rw [same, tight, List.length_cons] at shorter
  omega

theorem taken_eq (c : WrittenComment) : ∃ extra, c.taken = c.text ++ extra ∧
    (∀ ch ∈ extra.head?, ch = '\n') ∧ '\x00' ∉ extra ∧
    (extra = [] ↔ ∀ ch ∈ c.after.head?, isBlank ch = false) := by
  refine ⟨('\n' :: c.after.takeWhile isBlank).dropLast,
    List.dropLast_append_of_ne_nil (by simp), ?_, ?_, ?_⟩
  · cases c.after.takeWhile isBlank <;> simp
  · intro mem
    rcases List.mem_cons.mp ((List.dropLast_prefix _).subset mem) with same | blank
    · simp at same
    · have := List.mem_takeWhile_imp blank
      simp [isBlank] at this
  · cases after : c.after with
    | nil => simp
    | cons ch rest =>
      cases blank : isBlank ch <;> simp [blank]

theorem kept_iff {c : WrittenComment} (plain : '\x00' ∉ c.text) (single : '\n' ∉ c.text) :
    splitDecoratorDef c.taken = writtenLine c.text ↔ Kept c := by
  obtain ⟨extra, taken, stop, none, some_extra⟩ := taken_eq c
  rw [taken, splitDecoratorDef_append plain none stop, Prod.ext_iff]
  have no_extra : ∀ {l : List Char}, '\n' ∉ l → (splitDecoratorDef c.text).2 ++ extra = l →
      extra = [] := by
    intro l single same
    cases first : extra with
    | nil => rfl
    | cons ch rest =>
      have newline := stop ch (by simp [first])
      have inside : '\n' ∈ l := by
        rw [← same, first, newline]
        simp
      exact absurd inside single
  have spaces : ∀ {ch : Char}, ch ∈ trim c.text → ch ∈ c.text := fun mem =>
    mem_skipSpaces ((List.rdropWhile_prefix _ _).subset mem)
  by_cases unnamed : (splitDecoratorDef c.text).1 = []
  · rw [writtenLine_text unnamed]
    constructor
    · rintro ⟨-, same⟩
      have empty := no_extra (fun mem => single (spaces mem)) same
      rw [empty, List.append_nil] at same
      rcases attribute_or_text c.text with ⟨rest, split⟩ | other
      · -- the text behind an '@' without a name is shorter than the line
        have unnamed : (skipSpaces rest).takeWhile isAttributeChar = [] := by
          rwa [split_attribute split] at unnamed
        have start : (skipSpaces rest).dropWhile isAttributeChar = skipSpaces rest := by
          have := List.takeWhile_append_dropWhile (p := isAttributeChar) (l := skipSpaces rest)
          rwa [unnamed, List.nil_append] at this
        have inside : '\x00' ∉ skipSpaces (skipSpaces rest) := fun mem =>
          plain (mem_skipSpaces (split ▸ List.mem_cons_of_mem _
            (mem_skipSpaces (mem_skipSpaces mem))))
        rw [split_attribute split, start, cstr_plain inside, trim, split] at same
        rw [skipSpaces, skipSpaces, List.dropWhile_idempotent] at same
        exact absurd same (ne_trim_cons rest)
      · refine ⟨some_extra.mp empty, ?_, fun first => absurd first other⟩
        rw [same]
        exact List.rdropWhile_idempotent _ _
    · intro kept
      have empty := some_extra.mpr kept.follows
      have other : (skipSpaces c.text).head? ≠ some '@' := fun first => kept.named first unnamed
      have inside : '\x00' ∉ skipSpaces c.text := fun mem => plain (mem_skipSpaces mem)
      refine ⟨unnamed, ?_⟩
      have tight := kept.tight
      rw [split_text other, cstr_plain inside] at tight ⊢
      rw [empty, List.append_nil]
      exact tight.symm
  · rw [writtenLine_named plain unnamed]
    have content : '\n' ∉ (splitDecoratorDef c.text).2 := fun mem => single (mem_of_mem_split mem)
    constructor
    · rintro ⟨-, same⟩
      have empty := no_extra (fun mem => content ((List.rdropWhile_prefix _ _).subset mem)) same
      rw [empty, List.append_nil] at same
      exact ⟨some_extra.mp empty, same.symm, fun _ => unnamed⟩
    · intro kept
      rw [some_extra.mpr kept.follows, List.append_nil]
      exact ⟨rfl, kept.tight.symm⟩

theorem addLine_ne_nil (res : List LanguageDecorator) {dd : List Char × List Char}
    (named : dd.1 ≠ []) : addLine res dd ≠ [] := by
  simp [addLine, named]

theorem addLine_eq_iff (names : a.1 = b.1) (empty : res = [] ↔ res' = []) :
    addLine res a = addLine res' b ↔ res = res' ∧ (addLine res' b ≠ [] → a = b) := by
  have strings : String.ofList a.2 = String.ofList b.2 ↔ a = b := by
    rw [Prod.ext_iff, and_iff_right names]
    exact ⟨fun same => by simpa using congrArg String.toList same, congrArg _⟩
  by_cases unnamed : b.1 = []
  · have first : addLine res a = match res.getLast? with
        | none => res
        | some last => res.dropLast ++
          [{ last with content := last.content ++ [String.ofList a.2] }] := if_pos (names.trans unnamed)
    have second : addLine res' b = match res'.getLast? with
        | none => res'
        | some last => res'.dropLast ++
          [{ last with content := last.content ++ [String.ofList b.2] }] := if_pos unnamed
    rw [first, second]
    rcases List.eq_nil_or_concat res with rfl | ⟨before, d, rfl⟩
    · rw [empty.mp rfl]
      simp
    · rcases List.eq_nil_or_concat res' with rfl | ⟨before', d', rfl⟩
      · simp at empty
      · simp only [List.concat_eq_append, List.getLast?_concat, List.dropLast_concat]
        rw [List.append_singleton_inj, List.append_singleton_inj]
        have contents : (LanguageDecorator.mk d.name (d.content ++ [String.ofList a.2]) =
            LanguageDecorator.mk d'.name (d'.content ++ [String.ofList b.2])) ↔ d = d' ∧ a = b := by
          rw [LanguageDecorator.mk.injEq, List.append_singleton_inj, strings, ← and_assoc]
          cases d
          cases d'
          simp
        rw [contents, ← and_assoc]
        refine and_congr_right fun _ => ⟨fun same _ => same, fun same => same (by simp)⟩
  · rw [addLine, addLine, if_neg unnamed, if_neg (names ▸ unnamed),
      List.append_singleton_inj]
    refine and_congr_right fun _ => ?_
    rw [LanguageDecorator.mk.injEq, names, List.singleton_inj, strings]
    exact ⟨fun same _ => same.2, fun same => ⟨rfl, same (by simp)⟩⟩

theorem addLine_eq_nil_iff (names : a.1 = b.1) (empty : res = [] ↔ res' = []) :
    addLine res a = [] ↔ addLine res' b = [] := by
  by_cases unnamed : b.1 = []
  · rcases List.eq_nil_or_concat res with rfl | ⟨before, d, rfl⟩
    · rw [empty.mp rfl]
      simp [addLine, unnamed, names.trans unnamed]
    · rcases List.eq_nil_or_concat res' with rfl | ⟨before', d', rfl⟩
      · simp at empty
      · simp [addLine, unnamed, names.trans unnamed]
  · exact iff_of_false (addLine_ne_nil res (names ▸ unnamed)) (addLine_ne_nil res' unnamed)

theorem names_addLine (res : List LanguageDecorator) (dd : List Char × List Char) :
    (addLine res dd).map LanguageDecorator.name =
      res.map LanguageDecorator.name ++ if dd.1 = [] then [] else [String.ofList dd.1] := by
  by_cases unnamed : dd.1 = []
  · rcases List.eq_nil_or_concat res with rfl | ⟨before, d, rfl⟩ <;> simp [addLine, unnamed]
  · simp [addLine, unnamed]

theorem names_foldl_addLine {ι : Type} (f g : ι → List Char × List Char) (l : List ι)
    (names : ∀ x ∈ l, (f x).1 = (g x).1) :
    ((l.map f).foldl addLine []).map LanguageDecorator.name =
      ((l.map g).foldl addLine []).map LanguageDecorator.name := by
  induction l using List.reverseRecOn with
  | nil => rfl
  | append_singleton l y ih =>
    have same := ih fun x mem => names x (List.mem_append_left _ mem)
    simp only [List.map_append, List.map_cons, List.map_nil, List.foldl_append, List.foldl_cons,
      List.foldl_nil, names_addLine, same, names y (by simp)]

theorem foldl_addLine_eq_iff {ι : Type} (f g : ι → List Char × List Char) (l : List ι)
    (names : ∀ x ∈ l, (f x).1 = (g x).1) :
    ((l.map f).foldl addLine [] = (l.map g).foldl addLine [] ↔
      ∀ before x after, l = before ++ x :: after →
        ((before ++ [x]).map g).foldl addLine [] ≠ [] → f x = g x) ∧
    ((l.map f).foldl addLine [] = [] ↔ (l.map g).foldl addLine [] = []) := by
  induction l using List.reverseRecOn with
  | nil => simp
  | append_singleton l y ih =>
    obtain ⟨same, empty⟩ := ih fun x mem => names x (List.mem_append_left _ mem)
    have last := names y (by simp)
    simp only [List.map_append, List.map_cons, List.map_nil, List.foldl_append, List.foldl_cons,
      List.foldl_nil] at same ⊢
    refine ⟨?_, addLine_eq_nil_iff last empty⟩
    rw [addLine_eq_iff last empty, same]
    constructor
    · rintro ⟨inside, here⟩ before x after split some_line
      rcases List.eq_nil_or_concat after with rfl | ⟨after', z, rfl⟩
      · obtain ⟨rfl, same_last⟩ := List.append_singleton_inj.mp split
        exact same_last ▸ here (same_last ▸ some_line)
      · rw [List.concat_eq_append, ← List.cons_append, ← List.append_assoc] at split
        exact inside before x after' (List.append_singleton_inj.mp split).1 some_line
    · intro all
      refine ⟨fun before x after split => all before x (after ++ [y]) (by simp [split]), ?_⟩
      exact all l y [] rfl

structure LineText (c : WrittenComment) : Prop where
  kind : ∃ d, c.kind = .eoln d
  plain : '\x00' ∉ c.text
  single : '\n' ∉ c.text

def takenDecorators (comments : List WrittenComment) : List LanguageDecorator :=
  (comments.map fun c => splitDecoratorDef c.taken).foldl addLine []

theorem LineText.names {c : WrittenComment} (line : LineText c) :
    (splitDecoratorDef c.taken).1 = (writtenLine c.text).1 := by
  obtain ⟨extra, taken, stop, none, -⟩ := taken_eq c
  rw [taken, splitDecoratorDef_append line.plain none stop, writtenLine_fst line.plain]

theorem written_lines {comments : List WrittenComment} (lines : ∀ c ∈ comments, LineText c) :
    written comments = (comments.map fun c => writtenLine c.text).foldl addLine [] := by
  have each : comments.flatMap WrittenComment.lines = comments.map WrittenComment.text := by
    rw [← List.flatMap_singleton' comments, List.map_flatMap, List.flatMap_singleton']
    refine List.flatMap_congr fun c mem => ?_
    obtain ⟨d, kind⟩ := (lines c mem).kind
    simp [WrittenComment.lines, kind]
  rw [written, each, List.map_map]
  rfl

theorem takenDecorators_eq_iff {comments : List WrittenComment}
    (lines : ∀ c ∈ comments, LineText c) :
    takenDecorators comments = written comments ↔ AllKept comments := by
  rw [takenDecorators, written_lines lines, (foldl_addLine_eq_iff _ _ _ fun c mem =>
    (lines c mem).names).1]
  refine forall_congr' fun before => forall_congr' fun c => forall_congr' fun after => ?_
  refine forall_congr' fun split => ?_
  have part : ∀ c' ∈ before ++ [c], LineText c' := fun c' mem => lines c' (by
    rw [split]
    rcases List.mem_append.mp mem with old | last
    · exact List.mem_append_left _ old
    · rw [List.mem_singleton.mp last]
      simp)
  rw [written_lines part]
  have here := part c (by simp)
  exact imp_congr_right fun _ => kept_iff here.plain here.single

theorem takenDecorators_names {comments : List WrittenComment}
    (lines : ∀ c ∈ comments, LineText c) :
    (takenDecorators comments).map LanguageDecorator.name =
      (written comments).map LanguageDecorator.name := by
  rw [takenDecorators, written_lines lines]
  exact names_foldl_addLine _ _ _ fun c mem => (lines c mem).names

theorem takenDecorators_eq_nil_iff {comments : List WrittenComment}
    (lines : ∀ c ∈ comments, LineText c) : takenDecorators comments = [] ↔ written comments = [] := by
  rw [takenDecorators, written_lines lines]
  exact (foldl_addLine_eq_iff _ _ _ fun c mem => (lines c mem).names).2

end Lines

end Mewa.Grammar
