/- Module: Mewa/Lexer/KeywordText
   digest: When the definition made for a keyword matches exactly the text of the keyword. -/

import Mathlib.Data.List.TakeWhile
import Mewa.Lexer.Registry
import Mewa.Lib.LiteralPattern

set_option autoImplicit false
set_option relaxedAutoImplicit false

namespace Mewa

open Mewa.Lib

/-- What regular expressions without alternatives and repetitions match. An end is asserted by
    `ends`, never before another character of a line. -/
structure ReadsAtoms (ends : List Char → Bool) (engine : PatternSearch) : Prop where
  inLine : ∀ ch text, ch ≠ '\n' → ch ≠ '\r' → ends (ch :: text) = false
  search : ∀ atoms : List PatternAtom, (∀ a ∈ atoms, a.Valid) → ∀ text,
    engine.search (String.ofList (atoms.flatMap PatternAtom.render)) text =
      match PatternAtom.matchAt ends atoms text with
      | some (n + 1) => some ⟨n + 1, []⟩
      | _ => none

namespace Lexer

/-- The element of a regular expression a character of a keyword is turned into. -/
def atomOf (ch : Char) : PatternAtom :=
  if ch ∈ escapeChars then .letter ch true else if ch = '$' then .lineEnd else .letter ch false

theorem stringToRegex_eq (text : String) :
    stringToRegex text =
      String.ofList (((cstr text.toList).map atomOf).flatMap PatternAtom.render) := by
  have each : ∀ ch : Char, (if ch ∈ escapeChars then ['\\', ch] else [ch]) =
      (atomOf ch).render := by
    intro ch
    rw [atomOf]
    split
    · rfl
    · split
      · rename_i same
        rw [same]
        rfl
      · rfl
  rw [stringToRegex, List.flatMap_map]
  congr 1
  exact List.flatMap_congr fun ch _ => each ch

theorem escapeChars_escaped : ∀ ch ∈ escapeChars, PatternAtom.isWordCharacter ch = false := by
  have all : (escapeChars.all fun ch => !PatternAtom.isWordCharacter ch) = true := by decide
  intro ch mem
  simpa using List.all_eq_true.mp all ch mem

theorem syntaxCharacters_escaped :
    ∀ ch ∈ PatternAtom.syntaxCharacters, ch ∈ escapeChars ∨ ch = '$' := by
  have all : (PatternAtom.syntaxCharacters.all fun ch => ch ∈ escapeChars || ch = '$') = true := by
    decide
  intro ch mem
  simpa using List.all_eq_true.mp all ch mem

theorem atomOf_valid (ch : Char) : (atomOf ch).Valid := by
  rw [atomOf]
  split
  · rename_i special
    exact escapeChars_escaped ch special
  · rename_i plain
    split
    · trivial
    · rename_i no_dollar
      intro syntax_
      rcases syntaxCharacters_escaped ch syntax_ with special | dollar
      · exact plain special
      · exact no_dollar dollar

theorem atomOf_letters (ch : Char) : (atomOf ch).letters = if ch = '$' then [] else [ch] := by
  have no_escape : '$' ∉ escapeChars := by decide
  rw [atomOf]
  split
  · rename_i special
    have no_dollar : ch ≠ '$' := fun same => no_escape (same ▸ special)
    rw [if_neg no_dollar]
    rfl
  · split <;> rfl

theorem atomOf_lineEnd {ch : Char} : atomOf ch = .lineEnd ↔ ch = '$' := by
  have no_escape : '$' ∉ escapeChars := by decide
  rw [atomOf]
  constructor
  · intro h
    split at h
    · simp at h
    · split at h
      · assumption
      · simp at h
  · rintro rfl
    rw [if_neg no_escape, if_pos rfl]

theorem firstBytes_keyword {ch : Char} (printable : 32 ≤ ch.toNat) (rest : List Char) :
    LexemDef.firstBytes (stringToRegex (String.ofList (ch :: rest))) = .ok [ch.toNat] := by
  have some_char : ch ≠ '\x00' := by
    rintro rfl
    exact absurd printable (by decide)
  have no_control : ¬ ch.toNat < 32 := not_lt.mpr printable
  unfold stringToRegex LexemDef.firstBytes LexemDef.activation
  rw [String.toList_ofList, String.toList_ofList,
    List.takeWhile_cons_of_pos (by simpa using some_char), List.flatMap_cons]
  by_cases special : ch ∈ escapeChars
  · simp [LexemDef.skipCaret, LexemDef.activationLoop, LexemDef.parseFirstChar, special, Except.map]
  · have other : ∀ ch' ∈ escapeChars, ch ≠ ch' := fun ch' mem same => special (same ▸ mem)
    have no_caret : ch ≠ '^' := other '^' (by decide)
    have no_backslash : ch ≠ '\\' := other '\\' (by decide)
    have no_set : ch ≠ '[' := other '[' (by decide)
    have no_group : ch ≠ '(' := other '(' (by decide)
    simp [LexemDef.skipCaret, LexemDef.activationLoop, LexemDef.parseFirstChar, special, Except.map,
      no_caret, no_backslash, no_set, no_group, some_char, no_control]

theorem letters_map (text : List Char) :
    (text.map atomOf).flatMap PatternAtom.letters = text.filter (· ≠ '$') := by
  induction text with
  | nil => rfl
  | cons ch text ih =>
    rw [List.map_cons, List.flatMap_cons, ih, atomOf_letters]
    by_cases dollar : ch = '$'
    · simp [dollar]
    · simp [dollar]

theorem filter_letters {text : List Char} (no_dollar : '$' ∉ text) :
    text.filter (· ≠ '$') = text := by
  rw [List.filter_eq_self]
  intro ch mem
  exact decide_eq_true fun same => no_dollar (same ▸ mem)

theorem lineEnd_notMem {text : List Char} (no_dollar : '$' ∉ text) :
    PatternAtom.lineEnd ∉ text.map atomOf := by
  intro mem
  obtain ⟨ch, here, eq⟩ := List.mem_map.mp mem
  exact no_dollar (atomOf_lineEnd.mp eq ▸ here)

/-- A definition matches at every position of every source if and only if the text goes on with the
    keyword, and then the keyword. -/
def MatchesLiterally (engine : PatternSearch) (d : LexemDef) (k : String) : Prop :=
  ∀ (src : List Char) (position : Nat),
    (k.toList <+: src.drop position → d.matchAt engine (src.drop position) = (k.toList, k.length)) ∧
    (¬ k.toList <+: src.drop position → d.matchAt engine (src.drop position) = ([], 0))

section Made

variable {ends : List Char → Bool} {engine : PatternSearch} {patterns : PatternEngine}
  {lexer lexer' : Lexer} {k tail : String}

theorem keyword_made (some_name : k ≠ "") (made : lexer.defineKeyword patterns k tail = .ok lexer') :
    ∃ d, lexer'.defar = lexer.defar ++ [d] ∧ d.name = k ∧ d.keyword = true ∧ d.select = 0 ∧
      d.source = stringToRegex (k ++ tail) := by
  obtain ⟨⟨l, id⟩, call, eq⟩ := bind_eq_ok.mp made
  obtain rfl := Except.ok.inj eq
  obtain ⟨activate, -, adds⟩ := defineLexem_adds call
  cases adds with
  | unnamed empty => exact absurd empty some_name
  | fresh entry _ _ => exact ⟨_, rfl, rfl, rfl, rfl, rfl⟩
  | known _ plain _ => simp at plain

theorem keyword_match (reads : ReadsAtoms ends engine) {d : LexemDef} (whole : d.select = 0)
    (source : d.source = stringToRegex (k ++ tail)) (text : List Char) :
    d.matchAt engine text =
      match PatternAtom.matchAt ends ((cstr (k ++ tail).toList).map atomOf) text with
      | some (n + 1) => (text.take (n + 1), n + 1)
      | _ => ([], 0) := by
  have valid : ∀ a ∈ (cstr (k ++ tail).toList).map atomOf, a.Valid := by
    intro a mem
    obtain ⟨ch, -, rfl⟩ := List.mem_map.mp mem
    exact atomOf_valid ch
  rw [LexemDef.matchAt, source, stringToRegex_eq, reads.search _ valid]
  match PatternAtom.matchAt ends ((cstr (k ++ tail).toList).map atomOf) text with
  | none => rfl
  | some 0 => rfl
  | some (n + 1) => simp [whole]

theorem matchAt_own (reads : ReadsAtoms ends engine) {d : LexemDef} (whole : d.select = 0)
    (source : d.source = stringToRegex (k ++ tail)) (some_name : k ≠ "") {text : List Char}
    (own : d.matchAt engine text = (k.toList, k.length)) :
    PatternAtom.matchAt ends ((cstr (k ++ tail).toList).map atomOf) text = some k.length := by
  have positive : k.length ≠ 0 := by
    rwa [ne_eq, ← String.length_toList, List.length_eq_zero_iff, String.toList_eq_nil_iff]
  rw [keyword_match reads whole source] at own
  split at own
  · rename_i n found
    rw [found, ← (Prod.mk.inj own).2]
  · exact absurd (Prod.mk.inj own).2.symm positive

theorem ends_of_literal (reads : ReadsAtoms ends engine) {d : LexemDef} (whole : d.select = 0)
    (source : d.source = stringToRegex (k ++ tail)) (some_name : k ≠ "")
    (literal : MatchesLiterally engine d k) :
    cstr (k ++ tail).toList = k.toList ∧ '$' ∉ k.toList := by
  have at_begin (text : List Char) (begins : k.toList <+: text) :
      PatternAtom.matchAt ends ((cstr (k ++ tail).toList).map atomOf) text = some k.length :=
    matchAt_own reads whole source some_name ((literal text 0).1 begins)
  -- at its own text the characters of the pattern are those of the keyword
  obtain ⟨front, length⟩ := PatternAtom.letters_of_matchAt (at_begin k.toList List.prefix_rfl)
  rw [letters_map] at front length
  have same : (cstr (k ++ tail).toList).filter (· ≠ '$') = k.toList :=
    front.eq_of_length (length.symm.trans String.length_toList.symm)
  have no_dollar : '$' ∉ k.toList := by
    rw [← same]
    simp
  have no_null : ∀ ch ∈ k.toList, ch ≠ '\x00' := by
    intro ch mem
    rw [← same] at mem
    simpa using List.mem_takeWhile_imp (List.mem_filter.mp mem).1
  refine ⟨?_, no_dollar⟩
  have split_ : cstr (k ++ tail).toList = k.toList ++ cstr tail.toList := by
    rw [String.toList_append, cstr, List.takeWhile_append_of_pos (by simpa using no_null)]
    rfl
  have rest : (cstr tail.toList).filter (· ≠ '$') = [] := by
    rw [split_, List.filter_append, filter_letters no_dollar] at same
    exact List.append_right_eq_self.mp same
  cases behind : cstr tail.toList with
  | nil => rw [split_, behind, List.append_nil]
  | cons ch after =>
    -- an end is asserted after the keyword, which is not one before another character
    rw [behind] at rest
    obtain rfl : ch = '$' := by
      by_contra other
      simp [other] at rest
    have found := at_begin (k.toList ++ ['x']) (List.prefix_append _ _)
    have passed := @PatternAtom.matchAt_append ends (k.toList.map atomOf)
      (lineEnd_notMem no_dollar) (('$' :: after).map atomOf) ['x']
    rw [letters_map, filter_letters no_dollar, ← List.map_append, ← behind, ← split_, found,
      behind] at passed
    have asserted : PatternAtom.matchAt ends (('$' :: after).map atomOf) ['x'] = none := by
      show (if ends ['x'] then _ else none) = none
      rw [reads.inLine 'x' [] (by decide) (by decide)]
      rfl
    rw [asserted] at passed
    simp at passed

/-- The definition of a keyword matches literally if and only if the keyword has no dollar and
    nothing stands behind it in memory. -/
theorem keyword_literal_iff (reads : ReadsAtoms ends engine) (some_name : k ≠ "")
    (made : lexer.defineKeyword patterns k tail = .ok lexer') :
    ∃ d, lexer'.defar = lexer.defar ++ [d] ∧ d.name = k ∧ d.keyword = true ∧
      (MatchesLiterally engine d k ↔ cstr (k ++ tail).toList = k.toList ∧ '$' ∉ k.toList) := by
  obtain ⟨d, defar, name, keyword, whole, source⟩ := keyword_made some_name made
  refine ⟨d, defar, name, keyword, ends_of_literal reads whole source some_name, ?_⟩
  rintro ⟨ends_there, no_dollar⟩ src position
  have positive : k.length ≠ 0 := by
    rwa [ne_eq, ← String.length_toList, List.length_eq_zero_iff, String.toList_eq_nil_iff]
  have letters : (k.toList.map atomOf).flatMap PatternAtom.letters = k.toList := by
    rw [letters_map, filter_letters no_dollar]
  have found := @PatternAtom.matchAt_letters ends _ (lineEnd_notMem no_dollar) (src.drop position)
  rw [letters, List.length_map, String.length_toList] at found
  rw [keyword_match reads whole source, ends_there, found]
  constructor
  · intro begins
    obtain ⟨n, length⟩ := Nat.exists_eq_succ_of_ne_zero positive
    rw [if_pos begins, length]
    show ((src.drop position).take (n + 1), n + 1) = _
    rw [← Nat.succ_eq_add_one, ← length, ← String.length_toList, ← List.prefix_iff_eq_take.mp begins]
  · intro other
    rw [if_neg other]

end Made

/-! The search for sequences of characters and assertions, for examples. -/

namespace Atoms

def search (pattern : String) (text : List Char) : Option PiecesMatch :=
  match PatternAtom.matchAt List.isEmpty (PatternAtom.parse pattern.toList) text with
  | some (n + 1) => some ⟨n + 1, []⟩
  | _ => none

theorem search_some {pattern : String} {text : List Char} {found : PiecesMatch}
    (h : search pattern text = some found) : ∃ n, found.length = n + 1 ∧
      PatternAtom.matchAt List.isEmpty (PatternAtom.parse pattern.toList) text = some (n + 1) := by
  rw [search] at h
  split at h
  · rename_i n matched
    obtain rfl := Option.some.inj h
    exact ⟨n, rfl, matched⟩
  · simp at h

def engine : PatternSearch where
  search := search
  not_null := by
    intro pattern text found h
    obtain ⟨n, length, -⟩ := search_some h
    omega
  continuous := by
    intro pattern text found h
    obtain ⟨n, length, matched⟩ := search_some h
    obtain ⟨front, letters⟩ := PatternAtom.letters_of_matchAt matched
    have := front.length_le
    omega

theorem readsAtoms : ReadsAtoms List.isEmpty engine where
  inLine _ _ _ _ := rfl
  search := by
    intro atoms valid text
    show search _ text = _
    rw [search, String.toList_ofList, PatternAtom.parse_render valid]

end Atoms

theorem keyword_literal_iff_plus : ∃ lexer d, defineKeyword Plain.patterns "a+" "" {} = .ok lexer ∧
    lexer.defar = [d] ∧ MatchesLiterally Atoms.engine d "a+" := by
  have defined : (defineKeyword Plain.patterns "a+" "" {}).toOption.isSome = true := by
    decide +kernel
  obtain ⟨lexer, made⟩ := Option.isSome_iff_exists.mp defined
  have made := toOption_eq_some.mp made
  obtain ⟨d, defar, -, -, literal⟩ := keyword_literal_iff Atoms.readsAtoms (by decide) made
  exact ⟨lexer, d, made, defar, literal.mpr (by decide +kernel)⟩

/-- A dollar is not escaped, and the text that follows a keyword in a grammar gets into its
    pattern. -/
theorem keyword_not_literal :
    (∃ lexer d, defineKeyword Plain.patterns "$" "" {} = .ok lexer ∧ lexer.defar = [d] ∧
      ¬ MatchesLiterally Atoms.engine d "$") ∧
    ∃ lexer d, defineKeyword Plain.patterns "x" "\" ;" {} = .ok lexer ∧ lexer.defar = [d] ∧
      ¬ MatchesLiterally Atoms.engine d "x" := by
  have made (k tail : String) (some_name : k ≠ "")
      (defined : (defineKeyword Plain.patterns k tail {}).toOption.isSome = true)
      (differs : ¬ (cstr (k ++ tail).toList = k.toList ∧ '$' ∉ k.toList)) :
      ∃ lexer d, defineKeyword Plain.patterns k tail {} = .ok lexer ∧ lexer.defar = [d] ∧
        ¬ MatchesLiterally Atoms.engine d k := by
    obtain ⟨lexer, made⟩ := Option.isSome_iff_exists.mp defined
    have made := toOption_eq_some.mp made
    obtain ⟨d, defar, -, -, whole, source⟩ := keyword_made some_name made
    refine ⟨lexer, d, made, defar, fun literal => differs ?_⟩
    exact ends_of_literal Atoms.readsAtoms whole source some_name literal
  exact ⟨made "$" "" (by decide) (by decide +kernel) (by decide +kernel),
    made "x" "\" ;" (by decide) (by decide +kernel) (by decide +kernel)⟩

end Lexer

end Mewa
