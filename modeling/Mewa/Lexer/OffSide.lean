/- Module: Mewa/Lexer/OffSide
   digest: The lexems of the indentation before the first lexem of a line, and before any other. -/

import Mathlib.Algebra.Order.BigOperators.Group.List
import Mewa.Lexer.Indent
import Mewa.Lexer.Munch
import Mewa.Lib.Nesting

set_option autoImplicit false
set_option relaxedAutoImplicit false

namespace Mewa.Lexer

open Mewa.Lib

/-! The white space before a position in its line. -/

def lineBlank (ch : Char) : Bool := ch ≠ '\n' && ch.toNat ≤ 32

/-- There is only white space before in the line. The nearest character comes first. -/
def FirstOnLine (passed : List Char) : Prop :=
  ∀ ch ∈ (passed.dropWhile lineBlank).head?, ch = '\n'

/-- The width of the white space before, with tabs counted as so many characters. -/
def width (tabSize : Int) (passed : List Char) : Int :=
  ((passed.takeWhile lineBlank).map fun ch => if ch = '\t' then tabSize else 1).sum

theorem width_nonneg {tabSize : Int} (tabs : 0 ≤ tabSize) (passed : List Char) :
    0 ≤ width tabSize passed := by
  apply List.sum_nonneg
  intro n mem
  obtain ⟨ch, -, rfl⟩ := List.mem_map.mp mem
  split
  · exact tabs
  · omega

theorem width_le (tabSize : Int) (passed : List Char) :
    width tabSize passed ≤ passed.length * max tabSize 1 := by
  have each : ∀ text : List Char,
      (text.map fun ch => if ch = '\t' then tabSize else 1).sum ≤ text.length * max tabSize 1 := by
    intro text
    induction text with
    | nil => simp
    | cons ch text ih =>
      have here : (if ch = '\t' then tabSize else 1) ≤ max tabSize 1 := by split <;> omega
      rw [List.map_cons, List.sum_cons, List.length_cons, Nat.cast_succ, add_mul, one_mul]
      omega
  have shorter := (List.takeWhile_prefix (l := passed) lineBlank).length_le
  calc width tabSize passed
      ≤ (passed.takeWhile lineBlank).length * max tabSize 1 := each _
    _ ≤ passed.length * max tabSize 1 := by gcongr

/-- The greatest integer of 32 bits. -/
def maxWidth : Int := 2147483647

theorem countIndent_eq (tabSize : Int) (passed : List Char) :
    ∀ count : Int, count.bmod (2 ^ 32) = count → (FirstOnLine passed →
      Scanner.countIndent tabSize passed count = (count + width tabSize passed).bmod (2 ^ 32)) ∧
      (¬ FirstOnLine passed → Scanner.countIndent tabSize passed count = -1) := by
  induction passed with
  | nil =>
    intro count fits
    refine ⟨fun _ => ?_, fun inner => absurd ?_ inner⟩
    · simpa [Scanner.countIndent, width] using fits.symm
    · simp [FirstOnLine]
  | cons ch passed ih =>
    intro count fits
    by_cases line : ch = '\n'
    · subst line
      refine ⟨fun _ => ?_, fun inner => absurd ?_ inner⟩
      · simpa [Scanner.countIndent, width, lineBlank] using fits.symm
      · simp [FirstOnLine, lineBlank]
    by_cases blank : ch.toNat ≤ 32
    · have here : lineBlank ch = true := by simp [lineBlank, line, blank]
      obtain ⟨first, inner⟩ := ih ((count + if ch = '\t' then tabSize else 1).bmod (2 ^ 32))
        Int.bmod_bmod
      have drop : (ch :: passed).dropWhile lineBlank = passed.dropWhile lineBlank :=
        List.dropWhile_cons_of_pos here
      have take : (ch :: passed).takeWhile lineBlank = ch :: passed.takeWhile lineBlank :=
        List.takeWhile_cons_of_pos here
      rw [FirstOnLine, drop, Scanner.countIndent, if_neg line, if_pos blank]
      refine ⟨fun starts => ?_, inner⟩
      rw [first starts, Int.bmod_add_bmod, width, width, take, List.map_cons, List.sum_cons,
        Int.add_assoc]
    · have here : lineBlank ch = false := by simp [lineBlank, blank]
      have drop : (ch :: passed).dropWhile lineBlank = ch :: passed :=
        List.dropWhile_cons_of_neg (by simp [here])
      rw [FirstOnLine, drop, Scanner.countIndent, if_neg line, if_neg blank]
      exact ⟨fun starts => absurd (starts ch rfl) line, fun _ => rfl⟩

/-- The indentation that is counted for a position, if it is the first one of its line. -/
def counted (tabSize : Int) (passed : List Char) : Int := Scanner.countIndent tabSize passed 0

theorem counted_first {tabSize : Int} {passed : List Char} (first : FirstOnLine passed) :
    counted tabSize passed = (width tabSize passed).bmod (2 ^ 32) := by
  have count := (countIndent_eq tabSize passed 0 rfl).1 first
  rwa [Int.zero_add] at count

theorem counted_inner {tabSize : Int} {passed : List Char} (inner : ¬ FirstOnLine passed) :
    counted tabSize passed = -1 := (countIndent_eq tabSize passed 0 rfl).2 inner

theorem counted_le {tabSize : Int} (passed : List Char) : counted tabSize passed ≤ maxWidth := by
  unfold maxWidth
  by_cases first : FirstOnLine passed
  · rw [counted_first first]
    have := @Int.bmod_lt (width tabSize passed) (2 ^ 32) (by decide)
    omega
  · rw [counted_inner first]
    decide

theorem counted_fits {tabSize : Int} {passed : List Char} (tabs : 0 ≤ tabSize)
    (first : FirstOnLine passed) (fits : width tabSize passed ≤ maxWidth) :
    counted tabSize passed = width tabSize passed := by
  have low := width_nonneg tabs passed
  unfold maxWidth at fits
  rw [counted_first first]
  exact Int.bmod_eq_of_le (by omega) (by omega)

/-! What the calls deliver. -/

/-- What is delivered by a call: a lexem of the indentation, the text of a definition with the
    characters before it, or the end or an error. -/
inductive Delivery
  | indent (token : IndentToken)
  | text (passed : List Char)
  | other
  deriving DecidableEq

def Delivery.isIndent : Delivery → Bool
  | .indent _ => true
  | _ => false

/-- How a call comes to its lexem. -/
inductive Delivers (engine : PatternSearch) (lexer : Lexer) (s : Scanner) :
    Delivery → Lexem → Scanner → Prop
  | indent {gap rest : List Char} {length : Nat} {d : LexemDef} {token : IndentToken}
      {s' : Scanner} (name : String) : Gap lexer s.rest gap rest → AtToken lexer rest →
      ChosenAt engine lexer rest (length, some d) → d.id ≠ 0 →
      lexer.indentAt (s.advance gap.length) = (token, s') → token ≠ .IndentNone →
      Delivers engine lexer s (.indent token)
        ⟨name, lexer.indentId token, "", (s.advance gap.length).line⟩ s'
  | closing {gap rest : List Char} {back : Int} {stk : List Int} (name : String) :
      Gap lexer s.rest gap rest → atEnd rest = true → s.indentstk = back :: stk →
      Delivers engine lexer s (.indent .IndentClose)
        ⟨name, lexer.indentId .IndentClose, "", (s.advance gap.length).line⟩
        { s.advance gap.length with indentstk := stk }
  | text {gap rest : List Char} {length : Nat} {d : LexemDef} {s' : Scanner} :
      Gap lexer s.rest gap rest → AtToken lexer rest →
      ChosenAt engine lexer rest (length, some d) → d.id ≠ 0 →
      lexer.indentAt (s.advance gap.length) = (.IndentNone, s') →
      Delivers engine lexer s (.text (s.advance gap.length).passed)
        ⟨d.name, d.id, String.ofList (d.matchAt engine rest).1, (s.advance gap.length).line⟩
        (s'.advance length).skipBlanks
  | other {gap rest : List Char} {lexem : Lexem} {s' : Scanner} : Gap lexer s.rest gap rest →
      Reads engine lexer (s.advance gap.length) lexem s' → lexem.id ≤ 0 →
      Delivers engine lexer s .other lexem s'

/-- The deliveries of the calls from a state on. -/
inductive Deliveries (engine : PatternSearch) (lexer : Lexer) (start : Scanner) :
    List (Delivery × Lexem) → Scanner → Prop
  | start : Deliveries engine lexer start [] start
  | call {ds : List (Delivery × Lexem)} {s s' : Scanner} {delivery : Delivery} {lexem : Lexem} :
      Deliveries engine lexer start ds s → Calls engine lexer s lexem s' →
      Delivers engine lexer s delivery lexem s' →
      Deliveries engine lexer start (ds ++ [(delivery, lexem)]) s'

variable {engine : PatternSearch} {lexer : Lexer} {s s' : Scanner} {lexem : Lexem}

theorem Calls.delivers (named : Named lexer) (indexed : Indexed lexer)
    (call : Calls engine lexer s lexem s') : ∃ delivery, Delivers engine lexer s delivery lexem s' := by
  obtain ⟨gap, rest, skipped, -, reads⟩ := calls_spec named indexed call
  have here := advance_gap_rest skipped
  obtain ⟨stk, -⟩ := Scanner.advance_indent (s := s) gap.length
  by_cases plain : lexem.id ≤ 0
  · exact ⟨.other, .other skipped reads plain⟩
  cases reads with
  | ended => exact absurd le_rfl plain
  | unindented name ended _ split =>
    rw [here] at ended
    rw [stk] at split
    exact ⟨_, .closing name skipped ended split⟩
  | unclosed c => cases c <;> simp [Comment.unclosed, Lexem.atEnd] at plain
  | bad => simp at plain
  | indented name token chosen number _ read some_token =>
    rw [here] at token chosen
    exact ⟨_, .indent name skipped token chosen number read some_token⟩
  | token token chosen number read =>
    rw [here] at token chosen ⊢
    exact ⟨_, .text skipped token chosen number read⟩

theorem Reads.plain (named : Named lexer) (h : Reads engine lexer s lexem s')
    (plain : lexem.id ≤ 0) :
    s'.indentstk = s.indentstk ∧ s'.indentConsumed = s.indentConsumed ∧
      (AtToken lexer s.rest → ∀ length d, ¬ ChosenAt engine lexer s.rest (length, some d)) ∧
      (atEnd s.rest = true → atEnd s'.rest = true) := by
  cases h with
  | ended ended _ => exact ⟨rfl, rfl, fun token => by simp [token.some_char] at ended, id⟩
  | unindented name _ defined _ =>
    have positive := named.indent_pos (isIndent_indentId .IndentClose defined (by simp))
    exact absurd positive (not_lt.mpr plain)
  | unclosed c comment _ =>
    obtain ⟨stk, consumed⟩ := Scanner.advance_indent (s := s) c.opening.length
    refine ⟨stk, consumed, fun token => ?_, fun ended => ?_⟩
    · simp [token.no_comment] at comment
    · simp [commentAt, ended] at comment
  | bad token chosen =>
    obtain ⟨stk, consumed⟩ := Scanner.advance_indent (s := s) (parseChar s.rest).length
    refine ⟨?_, ?_, fun _ length d chosen' => ?_, fun ended => ?_⟩
    · rw [skipBlanks_stk, stk]
    · rw [Scanner.skipBlanks, (Scanner.advance_indent _).2, consumed]
    · obtain ⟨-, none⟩ := chosen.of_none
      rcases chosen'.of_some with ⟨-, mem, favoured, -⟩ | ⟨-, preferred⟩
      · simp [(none d mem).2] at favoured
      · exact absurd (none d preferred.mem).1 preferred.positive.ne'
    · simp [token.some_char] at ended
  | indented name _ _ _ defined _ some_token =>
    have positive := named.indent_pos (isIndent_indentId _ defined some_token)
    exact absurd positive (not_lt.mpr plain)
  | token _ _ number _ =>
    dsimp only at plain
    omega

theorem Lexes.deliveries (named : Named lexer) (indexed : Indexed lexer) {start : Scanner}
    {lexems : List Lexem} (lexes : Lexes engine lexer start lexems s) :
    ∃ ds, Deliveries engine lexer start ds s ∧ ds.map Prod.snd = lexems := by
  induction lexes with
  | start => exact ⟨[], .start, rfl⟩
  | call _ _ call ih =>
    obtain ⟨ds, run, same⟩ := ih
    obtain ⟨delivery, delivers⟩ := call.delivers named indexed
    exact ⟨_, run.call call delivers, by rw [List.map_append, same]; rfl⟩

/-! What holds between two calls. -/

def Settled (ds : List Delivery) : Prop := ∀ d ∈ ds.getLast?, d.isIndent = false

/-- The scanner stands before a text that begins its line. -/
structure AtText (engine : PatternSearch) (lexer : Lexer) (s : Scanner) : Prop where
  head : ∀ ch ∈ s.rest.head?, isBlank ch = false
  token : AtToken lexer s.rest
  chosen : ∃ length d, ChosenAt engine lexer s.rest (length, some d)
  begins : counted lexer.indentLexems.tabSize s.passed ≠ -1

/-- The lexems of the indentation that were delivered last, and where the scanner stands with them. -/
inductive Pending (engine : PatternSearch) (lexer : Lexer) (s : Scanner) : List Delivery → Prop
  | closing {front : List Delivery} (n : Nat) : s.indentConsumed = false →
      (n ≠ 0 → AtText engine lexer s) → Settled front →
      Pending engine lexer s (front ++ List.replicate n (.indent .IndentClose))
  | opened {front : List Delivery} (n : Nat) : s.indentConsumed = false →
      AtText engine lexer s → s.indentstk.headD 0 = counted lexer.indentLexems.tabSize s.passed →
      Settled front →
      Pending engine lexer s
        (front ++ (List.replicate n (.indent .IndentClose) ++ [.indent .IndentOpen]))
  | lined {front opens : List Delivery} (n : Nat) : s.indentConsumed = true →
      AtText engine lexer s → s.indentstk.headD 0 = counted lexer.indentLexems.tabSize s.passed →
      (opens = [] ∨ opens = [.indent .IndentOpen]) → Settled front →
      Pending engine lexer s
        (front ++ (List.replicate n (.indent .IndentClose) ++ opens ++ [.indent .IndentNewLine]))
  | ended {ds : List Delivery} : atEnd s.rest = true → Pending engine lexer s ds

/-- The indentation of the line that a text begins. -/
def Delivery.count (tabSize : Int) : Delivery → Option Int
  | .text passed => if counted tabSize passed = -1 then none else some (counted tabSize passed)
  | _ => none

/-- The indentations of the lines that begin with a text. -/
def countsOf (tabSize : Int) (ds : List Delivery) : List Int :=
  ds.filterMap (Delivery.count tabSize)

theorem countsOf_snoc {tabSize : Int} (ds : List Delivery) (d : Delivery) :
    countsOf tabSize (ds ++ [d]) = countsOf tabSize ds ++ (d.count tabSize).toList := by
  unfold countsOf
  rw [List.filterMap_append]
  cases same : d.count tabSize <;> simp [same]

/-- The stack has the open indentations of the lines so far, or is on the way to those of the line
    that is begun. -/
inductive Tracks (engine : PatternSearch) (lexer : Lexer) (s : Scanner) (counts : List Int) : Prop
  | settled : s.indentstk = nested 0 counts → Tracks engine lexer s counts
  | beginning : AtText engine lexer s →
      nest 0 s.indentstk (counted lexer.indentLexems.tabSize s.passed) =
        nest 0 (nested 0 counts) (counted lexer.indentLexems.tabSize s.passed) →
      Tracks engine lexer s counts
  | ended : atEnd s.rest = true → Tracks engine lexer s counts

theorem indentAt_cases (opened : lexer.indentLexems.opening ≠ 0) {token : IndentToken}
    (read : lexer.indentAt s = (token, s')) :
    (s.indentConsumed = true ∧ token = .IndentNone ∧ s' = { s with indentConsumed := false }) ∨
    (s.indentConsumed = false ∧ counted lexer.indentLexems.tabSize s.passed = -1 ∧
      token = .IndentNone ∧ s' = s) ∨
    (s.indentConsumed = false ∧ counted lexer.indentLexems.tabSize s.passed ≠ -1 ∧
      token ≠ .IndentNone ∧
      Scanner.Indents s (counted lexer.indentLexems.tabSize s.passed) token s') := by
  have defined : lexer.indentLexems.defined = true := by simpa [IndentLexems.defined] using opened
  rw [indentAt, if_pos defined] at read
  cases consumed : s.indentConsumed with
  | true =>
    rw [Scanner.getIndentToken, if_pos consumed] at read
    obtain ⟨rfl, rfl⟩ := Prod.mk.inj read
    exact Or.inl ⟨rfl, rfl, rfl⟩
  | false =>
    by_cases inside : counted lexer.indentLexems.tabSize s.passed = -1
    · rw [Scanner.getIndentToken, if_neg (by simp [consumed])] at read
      dsimp only at read
      have count : Scanner.indentCount lexer.indentLexems.tabSize s = -1 := inside
      rw [if_pos count] at read
      obtain ⟨rfl, rfl⟩ := Prod.mk.inj read
      exact Or.inr (Or.inl ⟨rfl, inside, rfl, rfl⟩)
    · have indents : Scanner.Indents s (counted lexer.indentLexems.tabSize s.passed) token s' :=
        Scanner.getIndentToken_spec read
      refine Or.inr (Or.inr ⟨rfl, inside, ?_, indents⟩)
      cases indents with
      | consumed again => simp [consumed] at again
      | inside _ same => exact absurd same inside
      | newLine => simp
      | opened => simp
      | closed => simp

theorem nest_indents {count : Int} {token : IndentToken} (indents : Scanner.Indents s count token s') :
    nest 0 s'.indentstk count = nest 0 s.indentstk count := by
  cases indents with
  | consumed => rfl
  | inside => rfl
  | newLine => rfl
  | opened _ ne above => rw [nest_of_above ne above]; exact nest_of_headD rfl
  | closed _ split less => rw [split, nest_of_less less]

theorem AtText.gap (text : AtText engine lexer s) {gap rest : List Char}
    (skipped : Gap lexer s.rest gap rest) (stop : Stop lexer rest) :
    rest = s.rest ∧ s.advance gap.length = s := by
  obtain ⟨rfl, same⟩ := skipped.unique (gap_of_head text.head) stop text.token.stop
  exact ⟨same, rfl⟩

theorem settled_snoc {ds : List Delivery} {d : Delivery} (plain : d.isIndent = false) :
    Settled (ds ++ [d]) := by
  intro last mem
  rw [List.getLast?_concat] at mem
  rwa [← Option.some.inj mem]

theorem Pending.plain {ds : List Delivery} {d : Delivery} (fresh : s.indentConsumed = false)
    (plain : d.isIndent = false) : Pending engine lexer s (ds ++ [d]) := by
  have pending : Pending engine lexer s ((ds ++ [d]) ++ List.replicate 0 (.indent .IndentClose)) :=
    .closing 0 fresh (fun ne => absurd rfl ne) (settled_snoc plain)
  rwa [List.replicate_zero, List.append_nil] at pending

theorem Pending.cases_text {ds : List Delivery} (pending : Pending engine lexer s ds) :
    atEnd s.rest = true ∨ AtText engine lexer s ∨ (s.indentConsumed = false ∧ Settled ds) := by
  cases pending with
  | @closing front n fresh text settled =>
    rcases Nat.eq_zero_or_pos n with rfl | positive
    · rw [List.replicate_zero, List.append_nil]
      exact Or.inr (Or.inr ⟨fresh, settled⟩)
    · exact Or.inr (Or.inl (text positive.ne'))
  | opened _ _ text _ _ => exact Or.inr (Or.inl text)
  | lined _ _ text _ _ _ => exact Or.inr (Or.inl text)
  | ended ended => exact Or.inl ended

theorem stop_of_atEnd {rest : List Char} (ended : atEnd rest = true) : Stop lexer rest := by
  intro c length here
  simp [commentAt, ended] at here

theorem gap_of_atEnd (ended : atEnd s.rest = true) {gap rest : List Char}
    (skipped : Gap lexer s.rest gap rest) (stop : Stop lexer rest) :
    rest = s.rest ∧ s.advance gap.length = s := by
  have head : ∀ ch ∈ s.rest.head?, isBlank ch = false := by
    intro ch mem
    have null : s.rest.headD '\x00' = '\x00' := of_decide_eq_true ended
    rw [List.headD_eq_head?_getD, Option.mem_def.mp mem] at null
    rw [show ch = '\x00' from null]
    rfl
  obtain ⟨rfl, same⟩ := skipped.unique (gap_of_head head) stop (stop_of_atEnd ended)
  exact ⟨same, rfl⟩

theorem atText_of_indent (opened : lexer.indentLexems.opening ≠ 0)
    (head : ∀ ch ∈ s.rest.head?, isBlank ch = false) (at_token : AtToken lexer s.rest)
    (chosen : ∃ length d, ChosenAt engine lexer s.rest (length, some d)) {token : IndentToken}
    (read : lexer.indentAt s = (token, s')) (some_token : token ≠ .IndentNone) :
    AtText engine lexer s' := by
  obtain ⟨rest, passed⟩ := indentAt_rest lexer s
  rw [read] at rest passed
  rcases indentAt_cases opened read with ⟨-, none, -⟩ | ⟨-, -, none, -⟩ | ⟨-, begins, -, -⟩
  · exact absurd none some_token
  · exact absurd none some_token
  · refine ⟨?_, ?_, ?_, ?_⟩
    · rwa [rest]
    · rwa [rest]
    · rwa [rest]
    · rwa [passed]

theorem Pending.indent {ds : List Delivery} (opened : lexer.indentLexems.opening ≠ 0)
    (pending : Pending engine lexer s ds)
    (head : ∀ ch ∈ s.rest.head?, isBlank ch = false) (at_token : AtToken lexer s.rest)
    (chosen : ∃ length d, ChosenAt engine lexer s.rest (length, some d)) {token : IndentToken}
    (read : lexer.indentAt s = (token, s')) (some_token : token ≠ .IndentNone) :
    Pending engine lexer s' (ds ++ [.indent token]) := by
  have text := atText_of_indent opened head at_token chosen read some_token
  rcases indentAt_cases opened read with ⟨-, none, -⟩ | ⟨-, -, none, -⟩ | ⟨fresh, begins, -, indents⟩
  · exact absurd none some_token
  · exact absurd none some_token
  cases pending with
  | @closing front n _ _ settled =>
    cases indents with
    | consumed => exact absurd rfl some_token
    | inside => exact absurd rfl some_token
    | newLine _ top =>
      have lined := @Pending.lined _ _ _ front [] n rfl text top (Or.inl rfl) settled
      rwa [List.append_nil, ← List.append_assoc] at lined
    | opened _ _ _ =>
      have opened := Pending.opened (s := { s with
        indentstk := counted lexer.indentLexems.tabSize s.passed :: s.indentstk }) n fresh text rfl
        settled
      rwa [← List.append_assoc] at opened
    | @closed back stk _ _ _ =>
      have closing := Pending.closing (s := { s with indentstk := stk }) (n + 1) fresh
        (fun _ => text) settled
      rwa [List.replicate_succ', ← List.append_assoc] at closing
  | @opened front n _ _ top settled =>
    cases indents with
    | consumed => exact absurd rfl some_token
    | inside => exact absurd rfl some_token
    | newLine _ top =>
      have lined := Pending.lined n rfl text top (Or.inr rfl) settled
      rwa [← List.append_assoc] at lined
    | opened _ ne _ => exact absurd top ne
    | closed _ split less =>
      rw [split] at top
      exact absurd top less.ne'
  | lined _ consumed => simp [fresh] at consumed
  | ended ended => simp [at_token.some_char] at ended

/-- The lexems of the indentation that stand before a text in its line. -/
structure Begins (tabSize : Int) (ds : List Delivery) (passed : List Char) : Prop where
  first : counted tabSize passed ≠ -1 → ∃ front n opens, ds = front ++
      (List.replicate n (.indent .IndentClose) ++ opens ++ [.indent .IndentNewLine]) ∧
    (opens = [] ∨ opens = [.indent .IndentOpen]) ∧ Settled front
  inner : counted tabSize passed = -1 → Settled ds

theorem Pending.text {ds : List Delivery} (opened : lexer.indentLexems.opening ≠ 0)
    (pending : Pending engine lexer s ds)
    (tracks : Tracks engine lexer s (countsOf lexer.indentLexems.tabSize ds))
    (at_token : AtToken lexer s.rest) (read : lexer.indentAt s = (.IndentNone, s')) :
    s'.indentConsumed = false ∧
      s'.indentstk = nested 0 (countsOf lexer.indentLexems.tabSize (ds ++ [.text s.passed])) ∧
      Begins lexer.indentLexems.tabSize ds s.passed := by
  rw [countsOf_snoc, Delivery.count]
  rcases indentAt_cases opened read with ⟨consumed, -, rfl⟩ | ⟨fresh, inner, -, rfl⟩ |
    ⟨-, -, none, -⟩
  · cases pending with
    | closing _ fresh => simp [consumed] at fresh
    | opened _ fresh => simp [consumed] at fresh
    | @lined front opens n _ text top cases settled =>
      refine ⟨rfl, ?_, fun _ => ⟨front, n, opens, rfl, cases, settled⟩,
        fun inner => absurd inner text.begins⟩
      rw [if_neg text.begins, Option.toList_some, nested_snoc]
      have kept := nest_of_headD top
      cases tracks with
      | settled same => rw [← same, kept]
      | beginning _ same => rw [← same, kept]
      | ended ended => simp [at_token.some_char] at ended
    | ended ended => simp [at_token.some_char] at ended
  · refine ⟨fresh, ?_, fun begins => absurd inner begins, fun _ => ?_⟩
    · rw [if_pos inner, Option.toList_none, List.append_nil]
      cases tracks with
      | settled same => exact same
      | beginning text _ => exact absurd inner text.begins
      | ended ended => simp [at_token.some_char] at ended
    · rcases pending.cases_text with ended | text | ⟨-, settled⟩
      · simp [at_token.some_char] at ended
      · exact absurd inner text.begins
      · exact settled
  · exact absurd rfl none

theorem Pending.skip {ds : List Delivery} (pending : Pending engine lexer s ds)
    {gap rest : List Char} (skipped : Gap lexer s.rest gap rest) (stop : Stop lexer rest) :
    Pending engine lexer (s.advance gap.length) ds := by
  rcases pending.cases_text with ended | text | ⟨fresh, settled⟩
  · rwa [(gap_of_atEnd ended skipped stop).2]
  · rwa [(text.gap skipped stop).2]
  · have closing : Pending engine lexer (s.advance gap.length)
        (ds ++ List.replicate 0 (.indent .IndentClose)) :=
      .closing 0 ((Scanner.advance_indent _).2.trans fresh) (fun ne => absurd rfl ne) settled
    rwa [List.replicate_zero, List.append_nil] at closing

theorem Tracks.skip {counts : List Int} (tracks : Tracks engine lexer s counts)
    {gap rest : List Char} (skipped : Gap lexer s.rest gap rest) (stop : Stop lexer rest) :
    Tracks engine lexer (s.advance gap.length) counts := by
  cases tracks with
  | settled same => exact .settled ((Scanner.advance_indent _).1.trans same)
  | beginning text same =>
    rw [(text.gap skipped stop).2]
    exact .beginning text same
  | ended ended =>
    rw [(gap_of_atEnd ended skipped stop).2]
    exact .ended ended

theorem Tracks.indent {counts : List Int} (opened : lexer.indentLexems.opening ≠ 0)
    (tracks : Tracks engine lexer s counts) (at_token : AtToken lexer s.rest) {token : IndentToken}
    (read : lexer.indentAt s = (token, s')) (some_token : token ≠ .IndentNone)
    (text : AtText engine lexer s') : Tracks engine lexer s' counts := by
  have passed := (indentAt_rest lexer s).2
  rw [read] at passed
  rcases indentAt_cases opened read with ⟨-, none, -⟩ | ⟨-, -, none, -⟩ | ⟨-, -, -, indents⟩
  · exact absurd none some_token
  · exact absurd none some_token
  refine .beginning text ?_
  rw [passed, nest_indents indents]
  cases tracks with
  | settled same => rw [same]
  | beginning _ same => exact same
  | ended ended => simp [at_token.some_char] at ended

/-- What holds of the scanner after some deliveries. -/
structure Indented (engine : PatternSearch) (lexer : Lexer) (s : Scanner) (ds : List Delivery) :
    Prop where
  pending : Pending engine lexer s ds
  tracks : Tracks engine lexer s (countsOf lexer.indentLexems.tabSize ds)

theorem countsOf_other {tabSize : Int} (ds : List Delivery) {d : Delivery}
    (none : d.count tabSize = none) : countsOf tabSize (ds ++ [d]) = countsOf tabSize ds := by
  rw [countsOf_snoc, none, Option.toList_none, List.append_nil]

theorem Delivers.step (named : Named lexer) (opened : lexer.indentLexems.opening ≠ 0)
    {ds : List Delivery} {delivery : Delivery}
    (delivers : Delivers engine lexer s delivery lexem s') (indented : Indented engine lexer s ds) :
    Indented engine lexer s' (ds ++ [delivery]) ∧
      ∀ passed, delivery = .text passed →
        s'.indentstk = nested 0 (countsOf lexer.indentLexems.tabSize (ds ++ [.text passed])) ∧
        Begins lexer.indentLexems.tabSize ds passed := by
  obtain ⟨pending, tracks⟩ := indented
  cases delivers with
  | @indent gap rest length d token _ name skipped at_token chosen number read some_token =>
    have here := advance_gap_rest skipped
    have pending := pending.skip skipped at_token.stop
    have tracks := tracks.skip skipped at_token.stop
    have later := pending.indent opened (here ▸ skipped.head) (here.symm ▸ at_token)
      ⟨length, d, here.symm ▸ chosen⟩ read some_token
    have text := atText_of_indent opened (here ▸ skipped.head) (here.symm ▸ at_token)
      ⟨length, d, here.symm ▸ chosen⟩ read some_token
    refine ⟨⟨later, ?_⟩, by simp⟩
    rw [countsOf_other _ rfl]
    exact tracks.indent opened (here.symm ▸ at_token) read some_token text
  | @closing gap rest back stk name skipped ended split =>
    have here : atEnd (s.advance gap.length).rest = true := (advance_gap_rest skipped).symm ▸ ended
    exact ⟨⟨.ended here, .ended here⟩, by simp⟩
  | @text gap rest length d after skipped at_token chosen number read =>
    have here := advance_gap_rest skipped
    obtain ⟨fresh, stk, begins⟩ := (pending.skip skipped at_token.stop).text opened
      (tracks.skip skipped at_token.stop) (here.symm ▸ at_token) read
    have same : (after.advance length).skipBlanks.indentstk = after.indentstk := by
      rw [skipBlanks_stk, (Scanner.advance_indent _).1]
    refine ⟨⟨.plain ?_ rfl, .settled (same.trans stk)⟩, fun passed eq => ?_⟩
    · rw [Scanner.skipBlanks, (Scanner.advance_indent _).2, (Scanner.advance_indent _).2, fresh]
    · rw [← Delivery.text.inj eq, same]
      exact ⟨stk, begins⟩
  | @other gap rest _ _ skipped reads plain =>
    have here := advance_gap_rest skipped
    have stop := reads.stop
    rw [here] at stop
    obtain ⟨stk, consumed, unchosen, ends⟩ := reads.plain named plain
    have no_text : ¬ AtText engine lexer (s.advance gap.length) := fun text => by
      obtain ⟨length, d, chosen⟩ := text.chosen
      exact unchosen text.token length d chosen
    refine ⟨⟨?_, ?_⟩, by simp⟩
    · rcases (pending.skip skipped stop).cases_text with ended | text | ⟨fresh, -⟩
      · exact .ended (ends ended)
      · exact absurd text no_text
      · exact .plain (consumed.trans fresh) rfl
    · rw [countsOf_other _ rfl]
      cases tracks.skip skipped stop with
      | settled same => exact .settled (stk.trans same)
      | beginning text _ => exact absurd text no_text
      | ended ended => exact .ended (ends ended)

/-- After any deliveries of a source the stack is that of the lines begun so far, unless one is
    being begun. -/
theorem Deliveries.indented (named : Named lexer) (opened : lexer.indentLexems.opening ≠ 0)
    {src : List Char} {ds : List (Delivery × Lexem)}
    (run : Deliveries engine lexer (.ofSource src) ds s) :
    Indented engine lexer s (ds.map Prod.fst) := by
  induction run with
  | start =>
    have pending : Pending engine lexer (.ofSource src)
        ([] ++ List.replicate 0 (.indent .IndentClose)) :=
      .closing 0 rfl (fun ne => absurd rfl ne) (by simp [Settled])
    exact ⟨pending, .settled rfl⟩
  | call _ _ delivers ih =>
    rw [List.map_append]
    exact (delivers.step named opened ih).1

/-! The rule and its condition. -/

/-- The lexems of the indentation that stand before a text in its line, and the stack after it. -/
structure OffSide (tabSize : Int) (ds : List Delivery) (passed : List Char) (stk : List Int) :
    Prop where
  first : FirstOnLine passed → ∃ front n opens, ds = front ++
      (List.replicate n (.indent .IndentClose) ++ opens ++ [.indent .IndentNewLine]) ∧
    (opens = [] ∨ opens = [.indent .IndentOpen]) ∧ Settled front
  stack : FirstOnLine passed → stk.Pairwise (· > ·) ∧
    (width tabSize passed = 0 → stk = []) ∧
    (width tabSize passed ≠ 0 → stk.head? = some (width tabSize passed))
  inner : ¬ FirstOnLine passed → Settled ds

/-- A text that a run of the calls delivers, with what was delivered before and the stack after it. -/
def TextAt (engine : PatternSearch) (lexer : Lexer) (src : List Char) (ds : List Delivery)
    (passed : List Char) (stk : List Int) : Prop :=
  ∃ run s lexem s', ds = run.map Prod.fst ∧ Deliveries engine lexer (.ofSource src) run s ∧
    Calls engine lexer s lexem s' ∧ Delivers engine lexer s (.text passed) lexem s' ∧
    stk = s'.indentstk

section Rule

variable {src : List Char} {ds : List Delivery} {passed : List Char} {stk : List Int}

theorem Deliveries.texts {run : List (Delivery × Lexem)}
    (deliveries : Deliveries engine lexer (.ofSource src) run s) (passed : List Char)
    (mem : .text passed ∈ run.map Prod.fst) : ∃ ds stk, TextAt engine lexer src ds passed stk := by
  induction deliveries with
  | start => simp at mem
  | @call ds s s' delivery lexem before call delivers ih =>
    rw [List.map_append] at mem
    rcases List.mem_append.mp mem with old | last
    · exact ih old
    · obtain rfl : .text passed = delivery := List.mem_singleton.mp last
      exact ⟨_, _, ds, s, lexem, s', rfl, before, call, delivers, rfl⟩

theorem TextAt.offSide (named : Named lexer) (opened : lexer.indentLexems.opening ≠ 0)
    (tabs : 0 ≤ lexer.indentLexems.tabSize) (text : TextAt engine lexer src ds passed stk)
    (fits : ∀ ds passed stk, TextAt engine lexer src ds passed stk → FirstOnLine passed →
      width lexer.indentLexems.tabSize passed ≤ maxWidth) :
    OffSide lexer.indentLexems.tabSize ds passed stk := by
  obtain ⟨run, s, lexem, s', rfl, deliveries, call, delivers, rfl⟩ := text
  have count {ds passed stk} (text : TextAt engine lexer src ds passed stk)
      (first : FirstOnLine passed) := counted_fits tabs first (fits ds passed stk text first)
  have here (first : FirstOnLine passed) :=
    count ⟨run, s, lexem, s', rfl, deliveries, call, delivers, rfl⟩ first
  obtain ⟨-, rule⟩ := delivers.step named opened (deliveries.indented named opened)
  obtain ⟨stk, begins⟩ := rule passed rfl
  have nonneg := fun passed => @width_nonneg lexer.indentLexems.tabSize tabs passed
  refine ⟨fun first => ?_, fun first => ?_, fun inner => begins.inner (counted_inner inner)⟩
  · refine begins.first ?_
    have := nonneg passed
    rw [here first]
    omega
  · have low : ∀ level ∈ countsOf lexer.indentLexems.tabSize (run.map Prod.fst ++ [.text passed]),
        0 ≤ level := by
      intro level mem
      obtain ⟨d, mem, count'⟩ := List.mem_filterMap.mp mem
      cases d with
      | indent token => simp [Delivery.count] at count'
      | other => simp [Delivery.count] at count'
      | text passed' =>
        have delivered : ∃ ds stk, TextAt engine lexer src ds passed' stk := by
          rcases List.mem_append.mp mem with old | last
          · exact deliveries.texts passed' old
          · obtain rfl := Delivery.text.inj (List.mem_singleton.mp last)
            exact ⟨_, _, run, s, lexem, s', rfl, deliveries, call, delivers, rfl⟩
        obtain ⟨ds, stk, text⟩ := delivered
        rw [Delivery.count, Option.ite_none_left_eq_some] at count'
        obtain ⟨begins', rfl⟩ := And.imp_right Option.some.inj count'
        have first' : FirstOnLine passed' := by
          by_contra inner
          exact begins' (counted_inner inner)
        rw [count text first']
        exact nonneg passed'
    have top : s'.indentstk.headD 0 = width lexer.indentLexems.tabSize passed := by
      have begins' : counted lexer.indentLexems.tabSize passed ≠ -1 := by
        have := nonneg passed
        rw [here first]
        omega
      rw [stk, countsOf_snoc, Delivery.count, if_neg begins', Option.toList_some, nested_snoc,
        headD_nest, here first]
    have above := base_lt_nested low
    rw [← stk] at above
    refine ⟨stk ▸ pairwise_nested, fun zero => ?_, fun positive => ?_⟩
    · cases split : s'.indentstk with
      | nil => rfl
      | cons n rest =>
        rw [split] at top above
        have := above n List.mem_cons_self
        exact absurd (top.trans zero) this.ne'
    · cases split : s'.indentstk with
      | nil =>
        rw [split] at top
        exact absurd top.symm positive
      | cons n rest =>
        rw [split] at top
        exact congrArg some top

theorem TextAt.stack_le (named : Named lexer) (opened : lexer.indentLexems.opening ≠ 0)
    (text : TextAt engine lexer src ds passed stk) : ∀ n ∈ stk, n ≤ maxWidth := by
  obtain ⟨run, s, lexem, s', rfl, deliveries, call, delivers, rfl⟩ := text
  obtain ⟨-, rule⟩ := delivers.step named opened (deliveries.indented named opened)
  intro n mem
  rw [(rule passed rfl).1] at mem
  obtain ⟨d, -, count⟩ := List.mem_filterMap.mp (mem_nested mem)
  cases d with
  | indent token => simp [Delivery.count] at count
  | other => simp [Delivery.count] at count
  | text passed' =>
    rw [Delivery.count, Option.ite_none_left_eq_some] at count
    rw [← Option.some.inj count.2]
    exact counted_le passed'

theorem Deliveries.total (named : Named lexer) (indexed : Indexed lexer)
    {run : List (Delivery × Lexem)} (deliveries : Deliveries engine lexer (.ofSource src) run s) :
    s.passed.length + s.rest.length = src.length := by
  induction deliveries with
  | start => exact Nat.zero_add _
  | call _ call _ ih =>
    obtain ⟨gap, rest, -, -, reads⟩ := calls_spec named indexed call
    rw [reads.total, advance_total, ih]

theorem TextAt.length_le (named : Named lexer) (indexed : Indexed lexer)
    (text : TextAt engine lexer src ds passed stk) : passed.length ≤ src.length := by
  obtain ⟨run, s, lexem, s', rfl, deliveries, -, delivers, rfl⟩ := text
  have whole := deliveries.total named indexed
  cases delivers with
  | @text gap _ _ _ _ _ _ _ _ _ =>
    have := @advance_total s gap.length
    omega

theorem TextAt.width_le (named : Named lexer) (indexed : Indexed lexer)
    (text : TextAt engine lexer src ds passed stk)
    (short : src.length * max lexer.indentLexems.tabSize 1 ≤ maxWidth) :
    width lexer.indentLexems.tabSize passed ≤ maxWidth := by
  have inside := text.length_le named indexed
  calc width lexer.indentLexems.tabSize passed
      ≤ passed.length * max lexer.indentLexems.tabSize 1 := Lexer.width_le _ _
    _ ≤ src.length * max lexer.indentLexems.tabSize 1 := by gcongr
    _ ≤ maxWidth := short

/-- Off-side rule: before the first lexem of a line any number of indentations are closed, then at
    most one is opened, and a line is begun. No indentation is delivered before another lexem. It
    holds for a source exactly if the width of every such line is an integer of 32 bits. -/
theorem offSide_rule_iff {patterns : PatternEngine} (defined : Defined patterns lexer)
    (opened : lexer.indentLexems.opening ≠ 0) (tabs : 0 ≤ lexer.indentLexems.tabSize)
    (src : List Char) :
    (∀ lexems s, Lexes engine lexer (.ofSource src) lexems s →
      ∃ ds, Deliveries engine lexer (.ofSource src) ds s ∧ ds.map Prod.snd = lexems) ∧
    ((∀ ds passed stk, TextAt engine lexer src ds passed stk →
        OffSide lexer.indentLexems.tabSize ds passed stk) ↔
      ∀ ds passed stk, TextAt engine lexer src ds passed stk → FirstOnLine passed →
        width lexer.indentLexems.tabSize passed ≤ maxWidth) := by
  obtain ⟨named, indexed⟩ := defined.invariants
  refine ⟨fun lexems s lexes => lexes.deliveries named indexed, fun rule ds passed stk text first =>
    ?_, fun fits ds passed stk text => text.offSide named opened tabs fits⟩
  obtain ⟨-, zero, top⟩ := (rule ds passed stk text).stack first
  by_cases flat : width lexer.indentLexems.tabSize passed = 0
  · rw [flat]
    decide
  · exact text.stack_le named opened _ (List.mem_of_mem_head? (top flat))

end Rule

/-- The third line stands at a width that was not opened before. -/
theorem offSide_rule_iff_dedent : ∃ lexer lexems s, indentLexer = .ok lexer ∧
    Lexes Plain.engine lexer (.ofSource "a\n  a\n a".toList) lexems s ∧
    lexems.map Lexem.id = [4, 1, 2, 4, 1, 3, 2, 4, 1, 3] ∧
    (∃ ds, Deliveries Plain.engine lexer (.ofSource "a\n  a\n a".toList) ds s ∧
      ds.map Prod.snd = lexems) ∧
    ∀ ds passed stk, TextAt Plain.engine lexer "a\n  a\n a".toList ds passed stk →
      OffSide 4 ds passed stk := by
  have shape : (indentLexer.toOption.bind fun lexer => do
      let run ← (lexToEnd Plain.engine lexer 5 12 (.ofSource "a\n  a\n a".toList)).toOption
      some (lexer.indentLexems.opening != 0 && lexer.indentLexems.tabSize == 4 &&
        run.1.map Lexem.id == [4, 1, 2, 4, 1, 3, 2, 4, 1, 3])) = some true := by decide +kernel
  obtain ⟨lexer, built, shape⟩ := Option.bind_eq_some_iff.mp shape
  obtain ⟨⟨lexems, s⟩, run, holds⟩ := Option.bind_eq_some_iff.mp shape
  have built := toOption_eq_some.mp built
  obtain ⟨lexes, -⟩ := lexes_of_lexToEnd (toOption_eq_some.mp run)
  simp only [Option.some.injEq, Bool.and_eq_true, bne_iff_ne, beq_iff_eq] at holds
  obtain ⟨⟨opened, tabSize⟩, ids⟩ := holds
  have defined := defined_indentLexer built
  obtain ⟨named, indexed⟩ := defined.invariants
  obtain ⟨delivered, rule⟩ := @offSide_rule_iff Plain.engine lexer Plain.patterns defined opened
    (by omega) "a\n  a\n a".toList
  refine ⟨lexer, lexems, s, built, lexes, ids, delivered lexems s lexes, ?_⟩
  rw [← tabSize]
  exact rule.mpr fun ds passed stk text _ =>
    text.width_le named indexed (by rw [tabSize]; decide)

/-- With the greatest tab size the width of two tabs does not fit. -/
theorem tabs_overflow : ∃ lexer, (do
      let lexer ← defineKeyword Plain.patterns "a" "" {}
      lexer.defineIndentLexems 1 "open" "close" "nl" 2147483647) = .ok lexer ∧
    Defined Plain.patterns lexer ∧ ∃ ds,
      TextAt Plain.engine lexer "\t\ta".toList ds ['\t', '\t'] [-2] ∧
      width 2147483647 ['\t', '\t'] = 4294967294 ∧ ¬ OffSide 2147483647 ds ['\t', '\t'] [-2] := by
  have shape : ((do
      let lexer ← defineKeyword Plain.patterns "a" "" {}
      lexer.defineIndentLexems 1 "open" "close" "nl" 2147483647).toOption.bind fun lexer => do
      let opened ← (next Plain.engine lexer 1 (.ofSource "\t\ta".toList)).toOption
      let lined ← (next Plain.engine lexer 1 opened.2).toOption
      let text ← (next Plain.engine lexer 1 lined.2).toOption
      some (opened.1.id == 2 && lined.1.id == 4 && text.1.id == 1 &&
        lined.2.rest == ['a'] && lined.2.passed == ['\t', '\t'] && text.2.indentstk == [-2] &&
        lexer.indentLexems.opening == 2 && lexer.indentLexems.closing == 3 &&
        lexer.indentLexems.newLine == 4 && (lexer.commentAt ['a']).isNone)) =
      some true := by decide +kernel
  obtain ⟨lexer, built, shape⟩ := Option.bind_eq_some_iff.mp shape
  have built := toOption_eq_some.mp built
  obtain ⟨⟨opens, opened⟩, first, shape⟩ := Option.bind_eq_some_iff.mp shape
  obtain ⟨⟨lines, lined⟩, second, shape⟩ := Option.bind_eq_some_iff.mp shape
  obtain ⟨⟨text, after⟩, third, holds⟩ := Option.bind_eq_some_iff.mp shape
  simp only [Option.some.injEq, Bool.and_eq_true, beq_iff_eq, Option.isNone_iff_eq_none] at holds
  obtain ⟨⟨⟨⟨⟨⟨⟨⟨⟨-, -⟩, number⟩, rest⟩, passed⟩, stk⟩, opening⟩, closing⟩, newLine⟩, comment⟩ :=
    holds
  obtain ⟨keyword, first_built, second_built⟩ := bind_eq_ok.mp built
  have defined : Defined Plain.patterns lexer :=
    .indentLexems (.keyword .empty first_built) second_built
  obtain ⟨named, indexed⟩ := defined.invariants
  have calls {s s' lexem} (call : (next Plain.engine lexer 1 s).toOption = some (lexem, s')) :
      Calls Plain.engine lexer s lexem s' := ⟨1, toOption_eq_some.mp call⟩
  obtain ⟨begun, delivers⟩ := (calls first).delivers named indexed
  obtain ⟨line, delivers'⟩ := (calls second).delivers named indexed
  obtain ⟨delivery, delivers''⟩ := (calls third).delivers named indexed
  have same : delivery = .text ['\t', '\t'] := by
    cases delivers'' with
    | @indent _ _ _ _ token _ _ _ _ _ _ _ some_token =>
      cases token <;> simp_all [indentId]
    | closing => simp_all [indentId]
    | @text gap rest' _ _ _ skipped token _ _ _ =>
      have here : Gap lexer ['a'] [] ['a'] := gap_of_head fun ch mem => by
        rw [← Option.some.inj mem]
        rfl
      rw [rest] at skipped
      obtain ⟨rfl, -⟩ := skipped.unique here token.stop fun c length begins => by
        simp [comment] at begins
      exact congrArg Delivery.text passed
    | other _ _ plain => omega
  subst same
  have begins : Deliveries Plain.engine lexer (.ofSource "\t\ta".toList) []
      (.ofSource "\t\ta".toList) := .start
  have run := (begins.call (calls first) delivers).call (calls second) delivers'
  refine ⟨lexer, built, defined, _, ⟨_, lined, text, after, rfl, run, calls third, delivers'',
    stk.symm⟩, by decide, fun rule => ?_⟩
  have first_on_line : FirstOnLine ['\t', '\t'] := by simp [FirstOnLine, lineBlank]
  have top := (rule.stack first_on_line).2.2 (by decide)
  exact absurd top (by decide)

end Mewa.Lexer
