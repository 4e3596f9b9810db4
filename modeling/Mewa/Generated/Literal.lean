/- Module: Mewa/Generated/Literal
   digest: The literal of a string in a generated module and what Lua reads from it. -/

import Mewa.Lexer.Scanner
import Mewa.Lib.LuaString

set_option autoImplicit false
set_option relaxedAutoImplicit false

namespace Mewa

open Mewa.Lib

/-- The text of a string up to its end with the backslashes doubled. -/
def escapeString (str : List Char) : List Char :=
  (cstr str).flatMap fun ch => if ch = '\\' then ['\\', '\\'] else [ch]

def printString (str : String) : Except Failure String :=
  let sqpos := '\'' ∈ cstr str.toList
  let dqpos := '"' ∈ cstr str.toList
  -- the loop that looks for the quotes without a backslash does not stop at the end of the string
  if sqpos ∧ dqpos then .error .outOfRange
  else if dqpos then .ok (String.ofList ('\'' :: (escapeString str.toList ++ ['\''])))
  else .ok (String.ofList ('"' :: (escapeString str.toList ++ ['"'])))

def readLiteral (literal : String) : Option String :=
  (LuaString.value literal.toList).map String.ofList

def printed (str : String) : String := String.ofList (cstr str.toList)

/-- There are no quotes of both kinds in the text and no end of a line. -/
def Readable (str : String) : Prop :=
  ¬ ('\'' ∈ cstr str.toList ∧ '"' ∈ cstr str.toList) ∧
    ∀ ch ∈ cstr str.toList, ch ≠ '\n' ∧ ch ≠ '\r'

theorem plain_of_inline {quote : Char} {text : List Char} (other : quote ∉ text)
    (inline : ∀ ch ∈ text, ch ≠ '\n' ∧ ch ≠ '\r') :
    ∀ ch ∈ text, ch ≠ '\\' → LuaString.Plain quote ch := by
  intro ch mem no_backslash
  exact ⟨fun same => other (same ▸ mem), (inline ch mem).1, (inline ch mem).2, no_backslash⟩

theorem read_escaped {quote : Char} (no_backslash : quote ≠ '\\') (text after : List Char)
    (plain : ∀ ch ∈ text, ch ≠ '\\' → LuaString.Plain quote ch) :
    LuaString.read quote .plain ((text.flatMap fun ch => if ch = '\\' then ['\\', '\\'] else [ch]) ++
      quote :: after) = some (text, after) := by
  induction text with
  | nil => exact LuaString.read_plain (by simp) after
  | cons ch text ih =>
    have rest := ih fun c mem => plain c (List.mem_cons_of_mem ch mem)
    by_cases backslash : ch = '\\'
    · subst backslash
      rw [List.flatMap_cons, if_pos rfl, List.append_assoc, List.cons_append, List.cons_append,
        List.nil_append, LuaString.read_backslash no_backslash, rest]
      rfl
    · rw [List.flatMap_cons, if_neg backslash, List.append_assoc, List.singleton_append,
        LuaString.read_cons (plain ch List.mem_cons_self backslash), rest]
      rfl

theorem read_line {quote : Char} (no_backslash : quote ≠ '\\') (text after : List Char)
    (other : quote ∉ text) (line : ∃ ch ∈ text, ch = '\n' ∨ ch = '\r') :
    LuaString.read quote .plain ((text.flatMap fun ch => if ch = '\\' then ['\\', '\\'] else [ch]) ++
      after) = none := by
  induction text with
  | nil => simp at line
  | cons ch text ih =>
    have ne : ch ≠ quote := fun same => other (same ▸ List.mem_cons_self)
    by_cases here : ch = '\n' ∨ ch = '\r'
    · have plain_text : ch ≠ '\\' := by rcases here with rfl | rfl <;> decide
      rw [List.flatMap_cons, if_neg plain_text, List.append_assoc, List.singleton_append]
      simp [LuaString.read, LuaString.step, LuaString.plainStep, LuaString.isLineEnd, ne, here]
    · obtain ⟨c, mem, ends⟩ := line
      have later : c ∈ text := by
        rcases List.mem_cons.mp mem with rfl | later
        · exact absurd ends here
        · exact later
      have rest := ih (fun mem => other (List.mem_cons_of_mem ch mem)) ⟨c, later, ends⟩
      by_cases backslash : ch = '\\'
      · subst backslash
        rw [List.flatMap_cons, if_pos rfl, List.append_assoc, List.cons_append, List.cons_append,
          List.nil_append, LuaString.read_backslash no_backslash, rest]
        rfl
      · rw [List.flatMap_cons, if_neg backslash, List.append_assoc, List.singleton_append,
          LuaString.read_cons ⟨ne, fun e => here (Or.inl e), fun e => here (Or.inr e), backslash⟩,
          rest]
        rfl

theorem read_printString {str literal : String} (h : printString str = .ok literal) :
    (Readable str → readLiteral literal = some (printed str)) ∧
      (¬ Readable str → readLiteral literal = none) := by
  have read : ∀ quote : Char, quote = '\'' ∨ quote = '"' → quote ∉ cstr str.toList →
      literal = String.ofList (quote :: (escapeString str.toList ++ [quote])) →
      ((∀ ch ∈ cstr str.toList, ch ≠ '\n' ∧ ch ≠ '\r') →
        readLiteral literal = some (printed str)) ∧
      ((∃ ch ∈ cstr str.toList, ch = '\n' ∨ ch = '\r') → readLiteral literal = none) := by
    rintro quote some_quote plain rfl
    have no_backslash : quote ≠ '\\' := by rcases some_quote with rfl | rfl <;> decide
    have whole := read_escaped no_backslash (cstr str.toList) []
    have never := read_line no_backslash (cstr str.toList) [quote] plain
    rw [readLiteral, String.toList_ofList, LuaString.value, if_pos some_quote]
    constructor
    · intro inline
      rw [escapeString, whole (plain_of_inline plain inline)]
      rfl
    · intro line
      rw [escapeString, never line]
      rfl
  have quoted : ¬ ('\'' ∈ cstr str.toList ∧ '"' ∈ cstr str.toList) ∧
      ((∀ ch ∈ cstr str.toList, ch ≠ '\n' ∧ ch ≠ '\r') →
        readLiteral literal = some (printed str)) ∧
      ((∃ ch ∈ cstr str.toList, ch = '\n' ∨ ch = '\r') → readLiteral literal = none) := by
    simp only [printString] at h
    split at h
    · simp at h
    · rename_i one_kind
      refine ⟨one_kind, ?_⟩
      split at h
      · rename_i double
        exact read '\'' (Or.inl rfl) (fun single => one_kind ⟨single, double⟩)
          (Except.ok.inj h).symm
      · rename_i single
        exact read '"' (Or.inr rfl) single (Except.ok.inj h).symm
  obtain ⟨one_kind, reads, never⟩ := quoted
  refine ⟨fun readable => reads readable.2, fun unreadable => never ?_⟩
  by_contra inline
  push Not at inline
  exact unreadable ⟨one_kind, inline⟩

theorem exists_printString {str : String}
    (one_kind : ¬ ('\'' ∈ cstr str.toList ∧ '"' ∈ cstr str.toList)) :
    ∃ literal, printString str = .ok literal := by
  simp only [printString, if_neg one_kind]
  split <;> exact ⟨_, rfl⟩

theorem readable_iff {str : String} :
    Readable str ↔ ∃ literal, printString str = .ok literal ∧
      readLiteral literal = some (printed str) := by
  constructor
  · intro readable
    obtain ⟨literal, print⟩ := exists_printString readable.1
    exact ⟨literal, print, (read_printString print).1 readable⟩
  · rintro ⟨literal, print, read⟩
    by_contra unreadable
    rw [(read_printString print).2 unreadable] at read
    simp at read

end Mewa
