/- Module: Mewa/Lib/LiteralPattern
   digest: Regular expressions that are sequences of characters and of assertions of an end. -/

import Mathlib.Data.List.Basic

set_option autoImplicit false
set_option relaxedAutoImplicit false

namespace Mewa.Lib

/-- An element of a regular expression without alternatives and repetitions: a character, which may
    be escaped, or the assertion of the end of the text or of a line. -/
inductive PatternAtom
  | letter (ch : Char) (escaped : Bool)
  | lineEnd
  deriving DecidableEq, Repr

namespace PatternAtom

/-- The characters with a meaning of their own in a regular expression. -/
def syntaxCharacters : List Char := "^$\\.*+?()[]\x7b\x7d|".toList

/-- The characters that are not escaped as themselves. -/
def isWordCharacter (ch : Char) : Bool :=
  'a' ≤ ch && ch ≤ 'z' || 'A' ≤ ch && ch ≤ 'Z' || '0' ≤ ch && ch ≤ '9' || ch = '_'

def Valid : PatternAtom → Prop
  | letter ch true => isWordCharacter ch = false
  | letter ch false => ch ∉ syntaxCharacters
  | lineEnd => True

def render : PatternAtom → List Char
  | letter ch true => ['\\', ch]
  | letter ch false => [ch]
  | lineEnd => ['$']

/-- The characters an element stands for. -/
def letters : PatternAtom → List Char
  | letter ch _ => [ch]
  | lineEnd => []

/-- The atoms of a regular expression. -/
def parse : List Char → List PatternAtom
  | [] => []
  | [ch] => [if ch = '$' then lineEnd else letter ch false]
  | ch :: next :: rest =>
    if ch = '\\' then letter next true :: parse rest
    else (if ch = '$' then lineEnd else letter ch false) :: parse (next :: rest)

section

variable (ends : List Char → Bool)

/-- The length of the match at the begin of a text. `ends` are the texts before which an end is
    asserted. -/
def matchAt : List PatternAtom → List Char → Option Nat
  | [], _ => some 0
  | lineEnd :: atoms, text => if ends text then matchAt atoms text else none
  | letter _ _ :: _, [] => none
  | letter ch _ :: atoms, c :: text =>
    if c = ch then (matchAt atoms text).map (· + 1) else none

end

theorem parse_render {atoms : List PatternAtom} (valid : ∀ a ∈ atoms, a.Valid) :
    parse (atoms.flatMap render) = atoms := by
  induction atoms with
  | nil => rfl
  | cons a atoms ih =>
    have rest := ih fun b mem => valid b (List.mem_cons_of_mem a mem)
    have here := valid a List.mem_cons_self
    rw [List.flatMap_cons]
    generalize atoms.flatMap render = text at rest
    cases a with
    | lineEnd =>
      cases text with
      | nil => obtain rfl : [] = atoms := rest; rfl
      | cons next text => rw [← rest]; rfl
    | letter ch escaped =>
      cases escaped with
      | true => rw [← rest]; rfl
      | false =>
        have no_backslash : ch ≠ '\\' := fun same => here (same ▸ by decide)
        have no_end : ch ≠ '$' := fun same => here (same ▸ by decide)
        cases text with
        | nil =>
          obtain rfl : [] = atoms := rest
          simp [render, parse, no_end]
        | cons next text =>
          rw [← rest]
          simp [render, parse, no_backslash, no_end]

variable {ends : List Char → Bool}

theorem letters_of_matchAt {atoms : List PatternAtom} {text : List Char} {n : Nat}
    (h : matchAt ends atoms text = some n) :
    atoms.flatMap letters <+: text ∧ n = (atoms.flatMap letters).length := by
  induction atoms generalizing text n with
  | nil =>
    obtain rfl := Option.some.inj h
    exact ⟨List.nil_prefix, rfl⟩
  | cons a atoms ih =>
    cases a with
    | lineEnd =>
      rw [matchAt] at h
      split at h
      · exact ih h
      · simp at h
    | letter ch escaped =>
      cases text with
      | nil => simp [matchAt] at h
      | cons c text =>
        rw [matchAt] at h
        split at h
        · rename_i same
          obtain ⟨m, rest, rfl⟩ := Option.map_eq_some_iff.mp h
          obtain ⟨front, length⟩ := ih rest
          rw [List.flatMap_cons, letters, List.singleton_append, ← same, length]
          exact ⟨List.cons_prefix_cons.mpr ⟨rfl, front⟩, rfl⟩
        · simp at h

theorem matchAt_append {front : List PatternAtom} (plain : lineEnd ∉ front)
    (atoms : List PatternAtom) (text : List Char) :
    matchAt ends (front ++ atoms) (front.flatMap letters ++ text) =
      (matchAt ends atoms text).map (· + front.length) := by
  induction front with
  | nil => simp
  | cons a front ih =>
    cases a with
    | lineEnd => exact absurd List.mem_cons_self plain
    | letter ch escaped =>
      have rest := ih fun mem => plain (List.mem_cons_of_mem _ mem)
      show matchAt ends (letter ch escaped :: (front ++ atoms))
        (ch :: (front.flatMap letters ++ text)) = _
      rw [matchAt, if_pos rfl, rest, Option.map_map]
      rfl

theorem matchAt_letters {atoms : List PatternAtom} (plain : lineEnd ∉ atoms) (text : List Char) :
    matchAt ends atoms text = if atoms.flatMap letters <+: text then some atoms.length else none := by
  split
  · rename_i front
    obtain ⟨after, rfl⟩ := front
    have whole := @matchAt_append ends atoms plain [] after
    rw [List.append_nil] at whole
    rw [whole]
    simp [matchAt]
  · rename_i differs
    cases found : matchAt ends atoms text with
    | none => rfl
    | some n => exact absurd (letters_of_matchAt found).1 differs

end PatternAtom

end Mewa.Lib
