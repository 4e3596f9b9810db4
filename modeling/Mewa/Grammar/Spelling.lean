/- Module: Mewa/Grammar/Spelling
   digest: Which productions are printed alike, from their names, strings and priorities. -/

import Mewa.Grammar.Productions
import Mewa.Lib.Decimal

set_option autoImplicit false
set_option relaxedAutoImplicit false

namespace Mewa

open Mewa.Lib

/-- A character of an identifier, of the pattern of the grammar lexer for names. -/
def isNameChar (ch : Char) : Bool := ch.isAlphanum || ch = '_'

def GrammarSource.Identifiers (source : GrammarSource) : Prop :=
  ∀ lexem ∈ source.lexems, lexem.type = .IDENT →
    lexem.value ≠ "" ∧ ∀ ch ∈ lexem.value.toList, isNameChar ch = true

namespace Grammar

namespace WrittenProduction

/-- The same left side and the same names and strings on the right side, however they are written. -/
def Same (p q : WrittenProduction) : Prop :=
  p.left = q.left ∧ p.right.map QuotedWord.text = q.right.map QuotedWord.text

/-- The same left side, priority and right side as they are written. -/
def SpelledAlike (p q : WrittenProduction) : Prop :=
  p.left = q.left ∧ p.priority = q.priority ∧ p.right = q.right

/-- Right sides that are not spelled alike but printed alike: a string has a double quote and a blank
    in it, which look like its end. -/
def ConfusedWith (p q : WrittenProduction) : Prop :=
  p.left = q.left ∧ p.priority = q.priority ∧ QuotedWord.Confused '"' ' ' p.right q.right

instance (p q : WrittenProduction) : Decidable (Same p q) := inferInstanceAs (Decidable (_ ∧ _))

instance (p q : WrittenProduction) : Decidable (SpelledAlike p q) :=
  inferInstanceAs (Decidable (_ ∧ _))

instance (p q : WrittenProduction) : Decidable (ConfusedWith p q) :=
  inferInstanceAs (Decidable (_ ∧ _))

/-- The name of the rule and those of the right side are identifiers. -/
structure Plain (p : WrittenProduction) : Prop where
  left : ∀ ch ∈ p.left.toList, isNameChar ch = true
  right : ∀ w ∈ p.right, w.Readable '"' ' '

end WrittenProduction

open WrittenProduction

theorem not_confused {ps : List WrittenProduction}
    (apart : ∀ p ∈ ps, ∀ w ∈ p.right, w.quoted = true → ¬ Separated '"' ' ' w.text) :
    ¬ Twice ConfusedWith ps := by
  refine not_not_intro (List.pairwise_of_forall_mem_list fun p mem q mem' confused => ?_)
  obtain ⟨w, here, quoted, separated⟩ := confused.2.2.separated
  rcases List.mem_append.mp here with here | here
  · exact apart p mem w here quoted separated
  · exact apart q mem' w here quoted separated

theorem readable_identifier {name : List Char} (some_char : name ≠ [])
    (plain : ∀ ch ∈ name, isNameChar ch = true) :
    QuotedWord.Readable '"' ' ' ⟨name, false⟩ :=
  fun _ => ⟨some_char, fun mem => absurd (plain _ mem) (by decide),
    fun mem => absurd (plain _ mem) (by decide)⟩

theorem plain_of_identifiers {source : GrammarSource} (identifiers : source.Identifiers) :
    ∀ p ∈ productions source, p.Plain := by
  have run (lexems : List GrammarLexem) (scan : ProductionScan)
      (names : ∀ lexem ∈ lexems, lexem.type = .IDENT →
        lexem.value ≠ "" ∧ ∀ ch ∈ lexem.value.toList, isNameChar ch = true)
      (left : ∀ ch ∈ scan.left.toList, isNameChar ch = true)
      (plain : ∀ p ∈ scan.productions, p.Plain) :
      ∀ p ∈ (lexems.foldl ProductionScan.next scan).productions, p.Plain := by
    induction lexems generalizing scan with
    | nil => exact plain
    | cons lexem lexems ih =>
      obtain ⟨name, names⟩ := List.forall_mem_cons.mp names
      have begun : ∀ p ∈ scan.begin.productions, p.Plain := by
        refine List.forall_mem_append.mpr ⟨plain, ?_⟩
        rintro p mem
        obtain rfl := List.mem_singleton.mp mem
        exact ⟨left, by simp⟩
      have pushed (w : QuotedWord Char) (readable : w.Readable '"' ' ') :
          ∀ p ∈ (scan.push w).productions, p.Plain := by
        refine List.forall_mem_append.mpr ⟨fun p mem => plain p (List.dropLast_subset _ mem), ?_⟩
        intro p mem
        obtain ⟨p, last, rfl⟩ := List.mem_map.mp mem
        have before := plain p (List.mem_of_getLast? (Option.mem_toList.mp last))
        refine ⟨before.left, List.forall_mem_append.mpr ⟨before.right, ?_⟩⟩
        intro w' mem
        obtain rfl := List.mem_singleton.mp mem
        exact readable
      rw [List.foldl_cons]
      unfold ProductionScan.next
      split
      case h_2 kind => exact ih _ names (name kind).2 plain
      case h_5 | h_6 | h_7 | h_8 => exact ih _ names left begun
      case h_9 kind =>
        refine ih _ names left (pushed _ (readable_identifier ?_ (name kind).2))
        simpa using (name kind).1
      case h_10 | h_11 => exact ih _ names left (pushed _ (by simp [QuotedWord.Readable]))
      all_goals exact ih _ names left plain
  exact run source.lexems {} identifiers (by simp) (by simp)

end Grammar

section Printed

theorem ProductionNodeDef.toList_tostring (nd : ProductionNodeDef) :
    nd.tostring.toList = nd.word.written '"' := by
  unfold tostring word QuotedWord.written
  cases nd.symbol <;> simp

theorem ProductionDef.toList_element_range (nodes : List ProductionNodeDef) :
    (element_range_tostring nodes).toList =
      QuotedWord.line '"' ' ' (nodes.map ProductionNodeDef.word) := by
  rw [element_range_tostring, String.toList_intercalate, QuotedWord.line_eq_intercalate,
    List.map_map, List.map_map]
  congr 1
  exact List.map_congr_left fun nd _ => nd.toList_tostring

theorem Priority.defined_eq_false {p : Priority} : p.defined = false ↔ p = {} := by
  obtain ⟨value, assoziativity⟩ := p
  simp [defined]

theorem Priority.toList_tostring (p : Priority) : p.tostring.toList =
    (match p.assoziativity with | .Undefined => [] | .Left => ['L'] | .Right => ['R']) ++
      (toString p.value).toList := by
  obtain ⟨value, assoziativity⟩ := p
  cases assoziativity <;> simp [tostring]

theorem Priority.tostring_injective {p p' : Priority}
    (same : p.tostring.toList = p'.tostring.toList) : p = p' := by
  have no_letter {n : Int} {ch : Char} {rest : List Char} (letter : ch = 'L' ∨ ch = 'R') :
      (toString n).toList ≠ ch :: rest := by
    intro equal
    have none_there : ch ∉ (toString n).toList := by
      rcases letter with rfl | rfl
      · exact not_mem_number (by decide) (by decide)
      · exact not_mem_number (by decide) (by decide)
    rw [equal] at none_there
    exact none_there List.mem_cons_self
  obtain ⟨value, assoziativity⟩ := p
  obtain ⟨value', assoziativity'⟩ := p'
  rw [toList_tostring, toList_tostring] at same
  cases assoziativity <;> cases assoziativity' <;>
    simp only [List.nil_append, List.singleton_append, List.cons.injEq] at same
  case Undefined.Undefined => rw [number_injective same]
  case Left.Left => rw [number_injective same.2]
  case Right.Right => rw [number_injective same.2]
  case Undefined.Left => exact absurd same (no_letter (Or.inl rfl))
  case Undefined.Right => exact absurd same (no_letter (Or.inr rfl))
  case Left.Undefined => exact absurd same.symm (no_letter (Or.inl rfl))
  case Right.Undefined => exact absurd same.symm (no_letter (Or.inr rfl))
  all_goals exact absurd same.1 (by decide)

theorem Priority.blank_notMem (p : Priority) : ' ' ∉ p.tostring.toList := by
  rw [toList_tostring, List.mem_append, not_or]
  refine ⟨?_, not_mem_number (by decide) (by decide)⟩
  cases p.assoziativity <;> decide

variable {prod prod' : ProductionDef}

theorem ProductionDef.toList_head (prod : ProductionDef) : prod.head_tostring.toList =
    prod.left.name.toList ++
      if prod.priority.defined then '/' :: prod.priority.tostring.toList else [] := by
  unfold head_tostring
  cases prod.priority.defined <;> simp

theorem ProductionDef.head_tostring_iff (plain : '/' ∉ prod.left.name.toList)
    (plain' : '/' ∉ prod'.left.name.toList) :
    prod.head_tostring.toList = prod'.head_tostring.toList ↔
      prod.left.name = prod'.left.name ∧ prod.priority = prod'.priority := by
  constructor
  · intro same
    rw [toList_head, toList_head] at same
    cases defined : prod.priority.defined <;> cases defined' : prod'.priority.defined <;>
      simp only [defined, defined', Bool.false_eq_true, if_true, if_false, List.append_nil] at same
    case false.false =>
      rw [Priority.defined_eq_false.mp defined, Priority.defined_eq_false.mp defined']
      exact ⟨String.toList_inj.mp same, rfl⟩
    case true.true =>
      obtain ⟨names, priorities⟩ := (QuotedWord.append_cons_iff plain plain').mp same
      exact ⟨String.toList_inj.mp names, Priority.tostring_injective priorities⟩
    case false.true => exact absurd (by rw [same]; simp) plain
    case true.false => exact absurd (by rw [← same]; simp) plain'
  · rintro ⟨names, priorities⟩
    rw [toList_head, toList_head, names, priorities]

theorem ProductionDef.toList_prodstring (prod : ProductionDef) : prod.prodstring.toList =
    prod.head_tostring.toList ++ ' ' :: '=' :: ' ' ::
      QuotedWord.line '"' ' ' (prod.right.map ProductionNodeDef.word) := by
  rw [prodstring, String.toList_append, String.toList_append, toList_element_range]
  simp

open Grammar in
theorem Grammar.prodstring_eq_iff {p q : WrittenProduction} (plain : p.Plain) (plain' : q.Plain)
    (reads : Reads p prod) (reads' : Reads q prod') :
    prod.prodstring = prod'.prodstring ↔ p.SpelledAlike q ∨ p.ConfusedWith q := by
  have apart {p : WrittenProduction} {prod : ProductionDef} (plain : p.Plain) (reads : Reads p prod)
      {ch : Char} (other : isNameChar ch = false) : ch ∉ prod.left.name.toList := by
    intro mem
    rw [← reads.left] at mem
    rw [plain.left ch mem] at other
    cases other
  have no_blank {p : WrittenProduction} {prod : ProductionDef} (plain : p.Plain)
      (reads : Reads p prod) : ' ' ∉ prod.head_tostring.toList := by
    rw [ProductionDef.toList_head, List.mem_append, not_or]
    refine ⟨apart plain reads (by decide), ?_⟩
    split
    · simpa using prod.priority.blank_notMem
    · simp
  rw [← String.toList_inj, ProductionDef.toList_prodstring, ProductionDef.toList_prodstring,
    QuotedWord.append_cons_iff (no_blank plain reads) (no_blank plain' reads'),
    ProductionDef.head_tostring_iff (apart plain reads (by decide)) (apart plain' reads' (by decide)),
    List.cons_inj_right, List.cons_inj_right, ← reads.right, ← reads'.right,
    QuotedWord.line_eq_iff (by decide) plain.right plain'.right, ← reads.left, ← reads'.left,
    ← reads.priority, ← reads'.priority, and_or_left, and_assoc, and_assoc]
  rfl

end Printed

end Mewa
