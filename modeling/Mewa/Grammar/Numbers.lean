/- Module: Mewa/Grammar/Numbers
   digest: The numbers of a grammar, and when a number is read exactly or refused. -/

import Mathlib.Data.List.Induction
import Mewa.Automaton.Table

set_option autoImplicit false
set_option relaxedAutoImplicit false

namespace Mewa.Grammar

open Mewa.Lib

def IsDigits (text : List Char) : Prop := ∀ ch ∈ text, '0' ≤ ch ∧ ch ≤ '9'

/-- The number written with digits. -/
def number (text : List Char) : Nat :=
  text.foldl (fun n ch => n * 10 + (ch.toNat - '0'.toNat)) 0

/-- A beginning of the text is read as a negative number. -/
def Overflows (text : List Char) : Prop := ∃ front, front <+: text ∧ 2 ^ 31 ≤ number front % 2 ^ 32

/-- The ways to write a priority with a number. -/
def priorityTexts (digits : String) : List String :=
  [digits, "L" ++ digits, "R" ++ digits, digits ++ "L", digits ++ "R"]

/-- A selection index or the size of a tabulator is the number that is written. -/
def ValueExact (digits : String) : Prop :=
  ∀ value, convertStringToInt digits = .ok value → value = number digits.toList

/-- A priority of a grammar that can be built is the number that is written. -/
def PriorityExact (digits : String) : Prop :=
  ∀ text ∈ priorityTexts digits, ∀ prio, convertStringToPriority text = .ok prio →
    ∀ langdef, checkComplexity langdef = .ok () → (∃ prod ∈ langdef.prodlist, prod.priority = prio) →
      prio.value = number digits.toList

theorem number_snoc (text : List Char) (ch : Char) :
    number (text ++ [ch]) = number text * 10 + (ch.toNat - '0'.toNat) := by
  rw [number, List.foldl_append]
  rfl

theorem overflows_snoc {text : List Char} {ch : Char} :
    Overflows (text ++ [ch]) ↔ Overflows text ∨ 2 ^ 31 ≤ number (text ++ [ch]) % 2 ^ 32 := by
  constructor
  · rintro ⟨front, before, large⟩
    rcases List.prefix_concat_iff.mp before with rfl | before
    · exact Or.inr large
    · exact Or.inl ⟨front, before, large⟩
  · rintro (⟨front, before, large⟩ | large)
    · exact ⟨front, before.trans (List.prefix_append _ _), large⟩
    · exact ⟨_, List.prefix_rfl, large⟩

theorem wrapInt_cases (value : Nat) :
    2 ^ 31 ≤ value % 2 ^ 32 ∧ wrapInt value < 0 ∨
    value % 2 ^ 32 < 2 ^ 31 ∧ wrapInt value = (value % 2 ^ 32 : Nat) := by
  unfold wrapInt
  omega

def readDigit (str : String) (rt : Int) (ch : Char) : Except Failure Int :=
  if '0' ≤ ch ∧ ch ≤ '9' then
    let value := wrapInt (rt * 10 + (ch.toNat - '0'.toNat : Nat))
    if value < 0 then throw .ValueOutOfRangeInGrammarDef str else .ok value
  else throw .UnexpectedTokenInGrammarDef str

theorem readDigit_cases (str : String) {text : List Char} {ch : Char} (digit : '0' ≤ ch ∧ ch ≤ '9') :
    2 ^ 31 ≤ number (text ++ [ch]) % 2 ^ 32 ∧
      readDigit str (number text % 2 ^ 32 : Nat) ch = throw .ValueOutOfRangeInGrammarDef str ∨
    number (text ++ [ch]) % 2 ^ 32 < 2 ^ 31 ∧
      readDigit str (number text % 2 ^ 32 : Nat) ch = .ok (number (text ++ [ch]) % 2 ^ 32 : Nat) := by
  have same : (number text % 2 ^ 32 * 10 + (ch.toNat - '0'.toNat)) % 2 ^ 32 =
      number (text ++ [ch]) % 2 ^ 32 := by
    rw [number_snoc]
    omega
  have cast : ((number text % 2 ^ 32 : Nat) : Int) * 10 + (ch.toNat - '0'.toNat : Nat) =
      (number text % 2 ^ 32 * 10 + (ch.toNat - '0'.toNat) : Nat) := by
    omega
  have step := wrapInt_cases (number text % 2 ^ 32 * 10 + (ch.toNat - '0'.toNat))
  rw [same] at step
  rw [readDigit, if_pos digit, cast]
  rcases step with ⟨large, negative⟩ | ⟨small, value⟩
  · exact Or.inl ⟨large, if_pos negative⟩
  · refine Or.inr ⟨small, ?_⟩
    have nonneg : ¬ wrapInt (number text % 2 ^ 32 * 10 + (ch.toNat - '0'.toNat) : Nat) < 0 := by
      omega
    show (if _ then _ else _) = _
    rw [if_neg nonneg, value]

theorem readDigits_cases (str : String) {text : List Char} (digits : IsDigits text) :
    Overflows text ∧ text.foldlM (readDigit str) 0 = throw .ValueOutOfRangeInGrammarDef str ∨
    ¬ Overflows text ∧ text.foldlM (readDigit str) 0 = .ok (number text % 2 ^ 32 : Nat) := by
  induction text using List.reverseRecOn with
  | nil =>
    refine Or.inr ⟨?_, rfl⟩
    rintro ⟨front, before, large⟩
    rw [List.prefix_nil.mp before] at large
    simp [number] at large
  | append_singleton text ch ih =>
    have digit := digits ch (by simp)
    rw [overflows_snoc, List.foldlM_append]
    rcases ih fun c mem => digits c (List.mem_append_left _ mem) with ⟨before, failed⟩ | ⟨none, read⟩
    · rw [failed]
      exact Or.inl ⟨Or.inl before, rfl⟩
    · rw [read, ok_bind, List.foldlM_cons]
      rcases @readDigit_cases str text ch digit with ⟨large, failed⟩ | ⟨small, value⟩
      · rw [failed]
        exact Or.inl ⟨Or.inr large, rfl⟩
      · rw [value]
        refine Or.inr ⟨?_, rfl⟩
        rintro (before | large)
        · exact none before
        · omega

theorem convertStringToInt_cases {str : String} (digits : IsDigits str.toList)
    (some_digit : str ≠ "") :
    Overflows str.toList ∧
      convertStringToInt str = throw .ValueOutOfRangeInGrammarDef str ∨
    ¬ Overflows str.toList ∧
      convertStringToInt str = .ok (number str.toList % 2 ^ 32 : Nat) := by
  have nonempty : ¬ str.isEmpty = true := by simpa using some_digit
  rw [convertStringToInt, if_neg nonempty]
  exact readDigits_cases str digits

theorem number_lt_of_not_overflows {text : List Char} (none : ¬ Overflows text) :
    number text % 2 ^ 32 < 2 ^ 31 := by
  by_contra large
  exact none ⟨text, List.prefix_rfl, by omega⟩

theorem valueExact_iff {digits : String} (all : IsDigits digits.toList) :
    ValueExact digits ↔ Overflows digits.toList ∨ number digits.toList < 2 ^ 31 := by
  by_cases empty : digits = ""
  · subst empty
    refine iff_of_true (fun value read => ?_) (Or.inr (by decide))
    simp [convertStringToInt, throw] at read
  rcases convertStringToInt_cases all empty with ⟨overflow, failed⟩ | ⟨none, read⟩
  · refine iff_of_true (fun value read => ?_) (Or.inl overflow)
    rw [failed] at read
    simp [throw] at read
  · have small := number_lt_of_not_overflows none
    constructor
    · intro exact_
      have same := exact_ _ read
      exact Or.inr (by omega)
    · rintro (overflow | less) value value_read
      · exact absurd overflow none
      · rw [read] at value_read
        rw [← Except.ok.inj value_read]
        omega

theorem wrapShort_cases (value : Nat) :
    value % 2 ^ 16 < 32 ∧ wrapShort value = (value % 2 ^ 16 : Nat) ∨
    32 ≤ value % 2 ^ 16 ∧ (wrapShort value < 0 ∨ 32 ≤ wrapShort value) := by
  unfold wrapShort
  omega

def checkPriority (text : String) (prio : Priority) : Except Failure Priority :=
  if prio.value ≥ Limits.MaxPriority then throw .ComplexityMaxProductionPriorityInGrammarDef text
  else .ok prio

theorem not_letter_of_digit {ch : Char} (digit : '0' ≤ ch ∧ ch ≤ '9') : ¬ (ch = 'L' ∨ ch = 'R') := by
  rintro (rfl | rfl)
  · exact absurd digit.2 (by decide)
  · exact absurd digit.2 (by decide)

theorem convertStringToPriority_eq {digits text : String} (all : IsDigits digits.toList)
    (some_digit : digits ≠ "") (form : text ∈ priorityTexts digits) :
    ∃ assoziativity, convertStringToPriority text = (do
      checkPriority text ⟨wrapShort (← convertStringToInt digits), assoziativity⟩) := by
  obtain ⟨first, rest, chars⟩ : ∃ first rest, digits.toList = first :: rest :=
    List.exists_cons_of_ne_nil fun nil => some_digit (String.toList_eq_nil_iff.mp nil)
  have front : (digits.toList).head? = some first := by rw [chars]; rfl
  obtain ⟨last, back⟩ : ∃ last, (digits.toList).getLast? = some last :=
    ⟨_, List.getLast?_eq_some_getLast (by rw [chars]; simp)⟩
  have no_letter := not_letter_of_digit (all first (List.mem_of_mem_head? front))
  have no_letter' := not_letter_of_digit (all last (List.mem_of_getLast? back))
  have before (letter : Char) (some_letter : letter = 'L' ∨ letter = 'R') (text : String)
      (made : text.toList = letter :: digits.toList) :
      convertStringToPriority text = (do
        checkPriority text ⟨wrapShort (← convertStringToInt digits), assoziativityOf letter⟩) := by
    have long : ¬ (letter :: digits.toList).length = 1 := by simp [chars]
    obtain ⟨last', ends⟩ : ∃ last', (letter :: digits.toList).getLast? = some last' :=
      ⟨_, List.getLast?_eq_some_getLast (by simp)⟩
    simp only [convertStringToPriority, made, List.head?_cons, ends, if_pos some_letter, if_neg long,
      List.tail_cons, String.ofList_toList]
    cases convertStringToInt digits <;> rfl
  have behind (letter : Char) (some_letter : letter = 'L' ∨ letter = 'R') (text : String)
      (made : text.toList = digits.toList ++ [letter]) :
      convertStringToPriority text = (do
        checkPriority text ⟨wrapShort (← convertStringToInt digits), assoziativityOf letter⟩) := by
    have head : (digits.toList ++ [letter]).head? = some first := by rw [chars]; rfl
    simp only [convertStringToPriority, made, head, List.getLast?_concat, if_neg no_letter,
      if_pos some_letter, List.dropLast_concat, String.ofList_toList]
    cases convertStringToInt digits <;> rfl
  simp only [priorityTexts, List.mem_cons, List.not_mem_nil, or_false] at form
  rcases form with rfl | rfl | rfl | rfl | rfl
  · refine ⟨.Undefined, ?_⟩
    simp only [convertStringToPriority, front, back, if_neg no_letter, if_neg no_letter']
    cases convertStringToInt text <;> rfl
  · exact ⟨_, before 'L' (Or.inl rfl) _ (by rw [String.toList_append]; rfl)⟩
  · exact ⟨_, before 'R' (Or.inr rfl) _ (by rw [String.toList_append]; rfl)⟩
  · exact ⟨_, behind 'L' (Or.inl rfl) _ (by rw [String.toList_append]; rfl)⟩
  · exact ⟨_, behind 'R' (Or.inr rfl) _ (by rw [String.toList_append]; rfl)⟩

theorem forM_eq_ok {α : Type} {f : α → Except Failure Unit} {l : List α} (h : l.forM f = .ok ()) :
    ∀ a ∈ l, f a = .ok () := by
  induction l with
  | nil => simp
  | cons a l ih =>
    obtain ⟨u, here, rest⟩ := bind_eq_ok.mp h
    exact List.forall_mem_cons.mpr ⟨here, ih rest⟩

theorem priority_of_checkComplexity {langdef : LanguageDef} (passed : checkComplexity langdef = .ok ())
    {prod : ProductionDef} (mem : prod ∈ langdef.prodlist) :
    0 ≤ prod.priority.value ∧ prod.priority.value < 32 := by
  have limit : ((Limits.MaxPriority : Nat) : Int) = 32 := rfl
  rw [checkComplexity] at passed
  split at passed
  · simp [throw] at passed
  split at passed
  · simp [throw] at passed
  have checked := forM_eq_ok passed prod mem
  dsimp only at checked
  split at checked
  · simp [throw] at checked
  split at checked
  · simp [throw] at checked
  · omega

/-- A grammar of one production that passes the checks. -/
def priorityGrammar (prio : Priority) : LanguageDef where
  prodlist := [⟨⟨{}, "S", true⟩, [], prio, 0, .NoScope, 1⟩]

theorem priorityGrammar_passes {prio : Priority} (inside : 0 ≤ prio.value ∧ prio.value < 32) :
    checkComplexity (priorityGrammar prio) = .ok () := by
  have limit : ((Limits.MaxPriority : Nat) : Int) = 32 := rfl
  have in_range : ¬ (prio.value < 0 ∨ prio.value ≥ Limits.MaxPriority) := by omega
  simp [checkComplexity, priorityGrammar, in_range, Limits.MaxNofProductions, Limits.ShiftNofProductions,
    Limits.MaxTerminal, Limits.ShiftTerminal, Limits.MaxProductionLength,
    Limits.ShiftProductionLength, Lexer.nofTerminals, pure, Except.pure]

theorem priorityExact_iff {digits : String} (all : IsDigits digits.toList) :
    PriorityExact digits ↔ Overflows digits.toList ∨ number digits.toList < 32 ∨
      32 ≤ number digits.toList % 2 ^ 16 := by
  have limit : ((Limits.MaxPriority : Nat) : Int) = 32 := rfl
  by_cases empty : digits = ""
  · subst empty
    refine iff_of_true (fun text form prio read _ _ _ => ?_) (Or.inr (Or.inl (by decide)))
    simp only [priorityTexts, List.mem_cons, List.not_mem_nil, or_false] at form
    rcases form with rfl | rfl | rfl | rfl | rfl
    · simp [convertStringToPriority, throw] at read
    · obtain rfl := Except.ok.inj read
      rfl
    · obtain rfl := Except.ok.inj read
      rfl
    · obtain rfl := Except.ok.inj read
      rfl
    · obtain rfl := Except.ok.inj read
      rfl
  rcases convertStringToInt_cases all empty with ⟨overflow, failed⟩ | ⟨none, value⟩
  · refine iff_of_true (fun text form prio read _ _ _ => ?_) (Or.inl overflow)
    obtain ⟨_, eq⟩ := convertStringToPriority_eq all empty form
    rw [eq, failed] at read
    simp [throw] at read
  have short := wrapShort_cases (number digits.toList % 2 ^ 32)
  have same : number digits.toList % 2 ^ 32 % 2 ^ 16 = number digits.toList % 2 ^ 16 := by omega
  rw [same] at short
  constructor
  · intro exact_
    by_contra wrong
    push Not at wrong
    obtain ⟨-, large, residue⟩ := wrong
    have read_short : wrapShort (number digits.toList % 2 ^ 32 : Nat) =
        (number digits.toList % 2 ^ 16 : Nat) := by omega
    obtain ⟨assoziativity, eq⟩ := convertStringToPriority_eq all empty (by simp [priorityTexts] :
      digits ∈ priorityTexts digits)
    have below : ¬ (number digits.toList % 2 ^ 16 : Nat) ≥ ((Limits.MaxPriority : Nat) : Int) := by
      omega
    rw [value, ok_bind, read_short, checkPriority, if_neg below] at eq
    have used := exact_ digits (by simp [priorityTexts]) _ eq (priorityGrammar _)
      (priorityGrammar_passes (by simp only; omega)) ⟨_, List.mem_singleton_self _, rfl⟩
    simp only at used
    omega
  · rintro (overflow | exact_) text form prio read langdef passed ⟨prod, mem, rfl⟩
    · exact absurd overflow none
    · obtain ⟨assoziativity, eq⟩ := convertStringToPriority_eq all empty form
      have inside := priority_of_checkComplexity passed mem
      rw [eq, value, ok_bind, checkPriority] at read
      split at read
      · simp [throw] at read
      · have result := congrArg Priority.value (Except.ok.inj read)
        simp only at result
        have bound : number digits.toList < 32 → number digits.toList % 2 ^ 16 =
          number digits.toList := fun less => by omega
        omega

/-- The numbers of a grammar are read exactly or refused, unless a number leaves the range of an
    integer without becoming negative, or that of a short integer. -/
theorem numbers_exact_iff {digits : String} (all : IsDigits digits.toList) :
    (ValueExact digits ↔ Overflows digits.toList ∨ number digits.toList < 2 ^ 31) ∧
    (PriorityExact digits ↔ Overflows digits.toList ∨ number digits.toList < 32 ∨
      32 ≤ number digits.toList % 2 ^ 16) :=
  ⟨valueExact_iff all, priorityExact_iff all⟩

theorem numbers_exact_iff_short : ¬ PriorityExact "65541" ∧ ValueExact "65541" := by
  have digits : IsDigits "65541".toList := by
    have all : ("65541".toList.all fun ch => '0' ≤ ch ∧ ch ≤ '9') = true := by decide
    intro ch mem
    simpa using List.all_eq_true.mp all ch mem
  obtain ⟨value, priority⟩ := numbers_exact_iff digits
  have written : number "65541".toList = 65541 := by decide
  have none : ¬ Overflows "65541".toList := by
    have read : (convertStringToInt "65541").toOption = some 65541 := by decide
    rcases convertStringToInt_cases digits (by decide) with ⟨-, failed⟩ | ⟨none, -⟩
    · rw [failed] at read
      simp [throw, Except.toOption] at read
    · exact none
  rw [written] at value priority
  refine ⟨fun exact_ => ?_, value.mpr (Or.inr (by decide))⟩
  rcases priority.mp exact_ with overflow | small | large
  · exact none overflow
  · exact absurd small (by decide)
  · exact absurd large (by decide)

/-- A selection index is reduced modulo the size of an integer, and a priority of a grammar that can
    be built modulo that of a short integer. -/
theorem numbers_reduced :
    (convertStringToInt "4294967297").toOption = some 1 ∧ ¬ ValueExact "4294967297" ∧
    (convertStringToPriority "L65541").toOption = some ⟨5, .Left⟩ ∧
    checkComplexity (priorityGrammar ⟨5, .Left⟩) = .ok () ∧ ¬ PriorityExact "65541" := by
  have value : (convertStringToInt "4294967297").toOption = some 1 := by decide
  have prio : (convertStringToPriority "L65541").toOption = some ⟨5, .Left⟩ := by decide
  have passes := @priorityGrammar_passes ⟨5, .Left⟩ (by decide)
  refine ⟨value, fun exact_ => ?_, prio, passes, fun exact_ => ?_⟩
  · have same := exact_ 1 (toOption_eq_some.mp value)
    exact absurd same (by decide)
  · have same := exact_ "L65541" (by simp [priorityTexts]) _ (toOption_eq_some.mp prio) _ passes
      ⟨_, List.mem_singleton_self _, rfl⟩
    exact absurd same (by decide)

end Mewa.Grammar
