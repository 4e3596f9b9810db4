/- Module: Mewa/Lib/LuaString
   digest: The string literals of Lua, as a machine that reads one character after the other. -/

import Mathlib

set_option autoImplicit false
set_option relaxedAutoImplicit false

namespace Mewa.Lib.LuaString

/-! A character stands for a byte of the text. -/

def isLineEnd (ch : Char) : Bool := ch = '\n' || ch = '\r'

def isSpace (ch : Char) : Bool :=
  ch = ' ' || ch = '\t' || ch = '\n' || ch = '\x0b' || ch = '\x0c' || ch = '\r'

def digitValue (ch : Char) : Option Nat :=
  if '0' ≤ ch ∧ ch ≤ '9' then some (ch.toNat - '0'.toNat) else none

def hexValue (ch : Char) : Option Nat :=
  if '0' ≤ ch ∧ ch ≤ '9' then some (ch.toNat - '0'.toNat)
  else if 'a' ≤ ch ∧ ch ≤ 'f' then some (ch.toNat - 'a'.toNat + 10)
  else if 'A' ≤ ch ∧ ch ≤ 'F' then some (ch.toNat - 'A'.toNat + 10)
  else none

/-- The escape sequences of one character. -/
def simpleEscape (ch : Char) : Option Char :=
  match ch with
  | 'a' => some '\x07'
  | 'b' => some '\x08'
  | 'f' => some '\x0c'
  | 'n' => some '\n'
  | 'r' => some '\r'
  | 't' => some '\t'
  | 'v' => some '\x0b'
  | '\\' => some '\\'
  | '"' => some '"'
  | '\'' => some '\''
  | _ => none

/-- The bytes of a code point after the first one. -/
def continuation (x n : Nat) : List Char :=
  (List.range n).reverse.map fun i => Char.ofNat (0x80 + x / 64 ^ i % 64)

/-- The bytes of a code point of up to 31 bits. -/
def utf8 (x : Nat) : List Char :=
  if x < 0x80 then [Char.ofNat x]
  else if x < 0x800 then Char.ofNat (0xc0 + x / 64) :: continuation x 1
  else if x < 0x10000 then Char.ofNat (0xe0 + x / 64 ^ 2) :: continuation x 2
  else if x < 0x200000 then Char.ofNat (0xf0 + x / 64 ^ 3) :: continuation x 3
  else if x < 0x4000000 then Char.ofNat (0xf8 + x / 64 ^ 4) :: continuation x 4
  else Char.ofNat (0xfc + x / 64 ^ 5) :: continuation x 5

inductive Reading
  | plain
  | escape
  /-- White space that does not count. -/
  | skip
  /-- An escaped end of a line, which may be one of two characters. -/
  | lineEnd (first : Char)
  | decimal (value digits : Nat)
  | hex (value digits : Nat)
  | codeOpen
  | code (value digits : Nat)
  deriving DecidableEq, Repr

/-- A character that stands for itself, ends the literal or starts an escape sequence. -/
def plainStep (quote ch : Char) : Option (List Char × Option Reading) :=
  if ch = quote then some ([], none)
  else if isLineEnd ch then none
  else if ch = '\\' then some ([], some .escape)
  else some ([ch], some .plain)

def escapeStep (ch : Char) : Option (List Char × Option Reading) :=
  match simpleEscape ch with
  | some value => some ([value], some .plain)
  | none =>
    if ch = 'x' then some ([], some (.hex 0 0))
    else if ch = 'u' then some ([], some .codeOpen)
    else if ch = 'z' then some ([], some .skip)
    else if isLineEnd ch then some (['\n'], some (.lineEnd ch))
    else (digitValue ch).map fun d => ([], some (.decimal d 1))

/-- The characters that are read with a character, and where the reader is after it. None is the
    end of the literal, and no result an error. -/
def step (quote : Char) : Reading → Char → Option (List Char × Option Reading)
  | .plain, ch => plainStep quote ch
  | .escape, ch => escapeStep ch
  | .skip, ch => if isSpace ch then some ([], some .skip) else plainStep quote ch
  | .lineEnd first, ch =>
    if isLineEnd ch ∧ ch ≠ first then some ([], some .plain) else plainStep quote ch
  | .decimal value digits, ch =>
    match if digits < 3 then digitValue ch else none with
    | some d => some ([], some (.decimal (value * 10 + d) (digits + 1)))
    | none =>
      if 255 < value then none
      else (plainStep quote ch).map fun r => (Char.ofNat value :: r.1, r.2)
  | .hex value digits, ch =>
    (hexValue ch).map fun d =>
      if digits = 0 then ([], some (.hex d 1))
      else ([Char.ofNat (value * 16 + d)], some .plain)
  | .codeOpen, ch => if ch = '\x7b' then some ([], some (.code 0 0)) else none
  | .code value digits, ch =>
    if ch = '\x7d' then if digits = 0 then none else some (utf8 value, some .plain)
    else
      (hexValue ch).bind fun d =>
        if value * 16 + d < 2 ^ 31 then some ([], some (.code (value * 16 + d) (digits + 1)))
        else none

/-- What is read up to the end of a literal, and what follows it. -/
def read (quote : Char) : Reading → List Char → Option (List Char × List Char)
  | _, [] => none
  | at_, ch :: text =>
    match step quote at_ ch with
    | none => none
    | some (value, none) => some (value, text)
    | some (front, some next) => (read quote next text).map fun r => (front ++ r.1, r.2)

def value : List Char → Option (List Char)
  | [] => none
  | quote :: text =>
    if quote = '\'' ∨ quote = '"' then
      match read quote .plain text with
      | some (value, []) => some value
      | _ => none
    else none

/-- A character that stands for itself between two quotes. -/
def Plain (quote ch : Char) : Prop := ch ≠ quote ∧ ch ≠ '\n' ∧ ch ≠ '\r' ∧ ch ≠ '\\'

example : value "'a\\x41\\u\x7b20AC\x7d\\z  \\65\\\"'".toList =
    some ['a', 'A', '\xe2', '\x82', '\xac', 'A', '"'] := by decide

variable {quote : Char}

theorem plainStep_plain {ch : Char} (plain : Plain quote ch) :
    plainStep quote ch = some ([ch], some .plain) := by
  obtain ⟨no_quote, no_line, no_return, no_backslash⟩ := plain
  simp [plainStep, isLineEnd, no_quote, no_line, no_return, no_backslash]

theorem plainStep_cases (ch : Char) :
    ch = quote ∧ plainStep quote ch = some ([], none) ∨
    plainStep quote ch = none ∨
    ch = '\\' ∧ plainStep quote ch = some ([], some .escape) ∨
    Plain quote ch ∧ plainStep quote ch = some ([ch], some .plain) := by
  by_cases ends : ch = quote
  · exact Or.inl ⟨ends, by simp [plainStep, ends]⟩
  by_cases line : isLineEnd ch = true
  · exact Or.inr (Or.inl (by simp [plainStep, ends, line]))
  by_cases backslash : ch = '\\'
  · have next : plainStep quote ch = some ([], some .escape) := by
      simp only [plainStep, if_neg ends, if_neg line, if_pos backslash]
    exact Or.inr (Or.inr (Or.inl ⟨backslash, next⟩))
  · refine Or.inr (Or.inr (Or.inr ⟨?_, by simp [plainStep, ends, line, backslash]⟩))
    simp only [isLineEnd, Bool.or_eq_true, decide_eq_true_eq, not_or] at line
    exact ⟨ends, line.1, line.2, backslash⟩

theorem read_cons {ch : Char} (plain : Plain quote ch) (text : List Char) :
    read quote .plain (ch :: text) =
      (read quote .plain text).map fun r => (ch :: r.1, r.2) := by
  simp only [read, step, plainStep_plain plain, List.singleton_append]

theorem read_backslash (no_quote : quote ≠ '\\') (text : List Char) :
    read quote .plain ('\\' :: '\\' :: text) =
      (read quote .plain text).map fun r => ('\\' :: r.1, r.2) := by
  have first : plainStep quote '\\' = some ([], some .escape) := by
    simp [plainStep, isLineEnd, no_quote.symm]
  have second : escapeStep '\\' = some (['\\'], some .plain) := rfl
  simp only [read, step, first, second, List.nil_append, List.singleton_append, Option.map_map]
  rfl

theorem read_plain {text : List Char} (plain : ∀ ch ∈ text, Plain quote ch) (after : List Char) :
    read quote .plain (text ++ quote :: after) = some (text, after) := by
  induction text with
  | nil => simp [read, step, plainStep]
  | cons ch text ih =>
    rw [List.cons_append, read_cons (plain ch List.mem_cons_self),
      ih fun c mem => plain c (List.mem_cons_of_mem ch mem)]
    rfl

/-! A literal is not shorter than its value, and longer than it with an escape sequence. -/

/-- How many characters may still be read for those that are passed. -/
def Reading.owed : Reading → Nat
  | .decimal _ _ => 1
  | .code value _ => (utf8 value).length
  | _ => 0

theorem length_continuation (x n : Nat) : (continuation x n).length = n := by
  simp [continuation]

theorem length_utf8_digit (x d : Nat) (digit : d < 16) :
    (utf8 (x * 16 + d)).length ≤ (utf8 x).length + 1 := by
  unfold utf8
  split_ifs <;> simp only [List.length_cons, List.length_nil, length_continuation] <;> omega

theorem hexValue_lt {ch : Char} {d : Nat} (h : hexValue ch = some d) : d < 16 := by
  simp only [hexValue] at h
  split_ifs at h with digit lower upper
  · obtain rfl := Option.some.inj h
    have : ch.toNat ≤ '9'.toNat := digit.2
    have : '9'.toNat = 57 := rfl
    have : '0'.toNat = 48 := rfl
    omega
  · obtain rfl := Option.some.inj h
    have : ch.toNat ≤ 'f'.toNat := lower.2
    have : 'f'.toNat = 102 := rfl
    have : 'a'.toNat = 97 := rfl
    omega
  · obtain rfl := Option.some.inj h
    have : ch.toNat ≤ 'F'.toNat := upper.2
    have : 'F'.toNat = 70 := rfl
    have : 'A'.toNat = 65 := rfl
    omega

/-- A step reads no more than the characters that are passed. -/
def Bounded (owed : Nat) (result : List Char × Option Reading) : Prop :=
  match result.2 with
  | none => result.1.length ≤ owed
  | some next => result.1.length + next.owed ≤ owed + 1

theorem plainStep_bounded {ch : Char} {result : List Char × Option Reading}
    (h : plainStep quote ch = some result) : Bounded 0 result := by
  rcases @plainStep_cases quote ch with ⟨-, eq⟩ | eq | ⟨-, eq⟩ | ⟨-, eq⟩ <;>
    rw [eq] at h
  · obtain rfl := Option.some.inj h
    simp [Bounded]
  · simp at h
  · obtain rfl := Option.some.inj h
    simp [Bounded, Reading.owed]
  · obtain rfl := Option.some.inj h
    simp [Bounded, Reading.owed]

theorem escapeStep_bounded {ch : Char} {result : List Char × Option Reading}
    (h : escapeStep ch = some result) : Bounded 0 result := by
  simp only [escapeStep] at h
  split at h
  · obtain rfl := Option.some.inj h
    simp [Bounded, Reading.owed]
  split_ifs at h
  · obtain rfl := Option.some.inj h
    simp [Bounded, Reading.owed]
  · obtain rfl := Option.some.inj h
    simp [Bounded, Reading.owed]
  · obtain rfl := Option.some.inj h
    simp [Bounded, Reading.owed]
  · obtain rfl := Option.some.inj h
    simp [Bounded, Reading.owed]
  · obtain ⟨d, -, rfl⟩ := Option.map_eq_some_iff.mp h
    simp [Bounded, Reading.owed]

theorem Bounded.mono {owed owed' : Nat} {result : List Char × Option Reading}
    (bounded : Bounded owed result) (le : owed ≤ owed') : Bounded owed' result := by
  obtain ⟨value, next⟩ := result
  cases next <;> simp only [Bounded] at bounded ⊢ <;> omega

theorem step_bounded {at_ : Reading} {ch : Char} {result : List Char × Option Reading}
    (h : step quote at_ ch = some result) : Bounded at_.owed result := by
  cases at_ with
  | plain => exact plainStep_bounded h
  | escape => exact escapeStep_bounded h
  | skip =>
    simp only [step] at h
    split_ifs at h
    · obtain rfl := Option.some.inj h
      simp [Bounded, Reading.owed]
    · exact plainStep_bounded h
  | lineEnd first =>
    simp only [step] at h
    split_ifs at h
    · obtain rfl := Option.some.inj h
      simp [Bounded, Reading.owed]
    · exact plainStep_bounded h
  | decimal value digits =>
    simp only [step] at h
    split at h
    · obtain rfl := Option.some.inj h
      simp [Bounded, Reading.owed]
    split_ifs at h
    -- the digits give one character, the next one is read as any other
    obtain ⟨result, read, rfl⟩ := Option.map_eq_some_iff.mp h
    have bounded := plainStep_bounded read
    obtain ⟨value', next⟩ := result
    cases next <;> simp only [Bounded, Reading.owed, List.length_cons] at bounded ⊢ <;> omega
  | hex value digits =>
    obtain ⟨d, -, rfl⟩ := Option.map_eq_some_iff.mp h
    split_ifs <;> simp [Bounded, Reading.owed]
  | codeOpen =>
    simp only [step] at h
    split_ifs at h
    obtain rfl := Option.some.inj h
    simp [Bounded, Reading.owed, utf8]
  | code value digits =>
    simp only [step] at h
    split_ifs at h
    · obtain rfl := Option.some.inj h
      simp [Bounded, Reading.owed]
    · obtain ⟨d, digit, h⟩ := Option.bind_eq_some_iff.mp h
      split_ifs at h
      obtain rfl := Option.some.inj h
      have := length_utf8_digit value d (hexValue_lt digit)
      simpa [Bounded, Reading.owed] using this

theorem read_some {at_ : Reading} {text value after : List Char}
    (h : read quote at_ text = some (value, after)) :
    ∃ ch rest front next, text = ch :: rest ∧ step quote at_ ch = some (front, next) ∧
      (next = none ∧ value = front ∧ after = rest ∨
        ∃ at' back, next = some at' ∧ value = front ++ back ∧
          read quote at' rest = some (back, after)) := by
  cases text with
  | nil => simp [read] at h
  | cons ch rest =>
    rw [read] at h
    split at h
    · simp at h
    · rename_i front stepped
      obtain ⟨rfl, rfl⟩ := Prod.mk.inj (Option.some.inj h)
      exact ⟨ch, _, _, none, rfl, stepped, Or.inl ⟨rfl, rfl, rfl⟩⟩
    · rename_i front at' stepped
      obtain ⟨⟨back, after'⟩, later, same⟩ := Option.map_eq_some_iff.mp h
      obtain ⟨rfl, rfl⟩ := Prod.mk.inj same
      exact ⟨ch, rest, front, some at', rfl, stepped, Or.inr ⟨at', back, rfl, rfl, later⟩⟩

theorem length_read {at_ : Reading} {text value after : List Char}
    (h : read quote at_ text = some (value, after)) :
    value.length + after.length + 1 ≤ text.length + at_.owed := by
  induction text generalizing at_ value with
  | nil => simp [read] at h
  | cons ch text ih =>
    obtain ⟨_, _, front, next, eq, stepped, ended⟩ := read_some h
    obtain ⟨rfl, rfl⟩ := List.cons.inj eq
    have bounded := step_bounded stepped
    rcases ended with ⟨rfl, rfl, rfl⟩ | ⟨at', back, rfl, rfl, later⟩
    · simp only [Bounded, List.length_cons] at bounded ⊢
      omega
    · have rest := ih later
      simp only [Bounded, List.length_cons, List.length_append] at bounded ⊢
      omega

theorem read_exact {text value after : List Char}
    (h : read quote .plain text = some (value, after))
    (long : text.length ≤ value.length + after.length + 1) :
    ∀ ch ∈ value, Plain quote ch := by
  induction text generalizing value with
  | nil => simp [read] at h
  | cons ch text ih =>
    obtain ⟨_, _, front, next, eq, stepped, ended⟩ := read_some h
    obtain ⟨rfl, rfl⟩ := List.cons.inj eq
    rcases @plainStep_cases quote ch with ⟨-, eq⟩ | eq | ⟨-, eq⟩ | ⟨plain, eq⟩ <;>
      rw [step, eq] at stepped
    · obtain ⟨rfl, rfl⟩ := Prod.mk.inj (Option.some.inj stepped)
      rcases ended with ⟨-, rfl, rfl⟩ | ⟨_, _, eq, -⟩
      · simp
      · simp at eq
    · simp at stepped
    · -- an escape sequence is longer than what it stands for
      obtain ⟨rfl, rfl⟩ := Prod.mk.inj (Option.some.inj stepped)
      rcases ended with ⟨eq, -⟩ | ⟨at', back, eq, rfl, later⟩
      · simp at eq
      · obtain rfl := Option.some.inj eq
        have short := length_read later
        simp only [Reading.owed, List.length_cons] at short long
        omega
    · obtain ⟨rfl, rfl⟩ := Prod.mk.inj (Option.some.inj stepped)
      rcases ended with ⟨eq, -⟩ | ⟨at', back, eq, rfl, later⟩
      · simp at eq
      · obtain rfl := Option.some.inj eq
        simp only [List.singleton_append, List.length_cons] at long
        have rest := ih later (by omega)
        intro c mem
        rcases List.mem_cons.mp mem with rfl | mem
        · exact plain
        · exact rest c mem

theorem value_quoted_iff (some_quote : quote = '\'' ∨ quote = '"') (text : List Char) :
    value (quote :: (text ++ [quote])) = some text ↔ ∀ ch ∈ text, Plain quote ch := by
  simp only [value, if_pos some_quote]
  constructor
  · intro h
    split at h
    · rename_i read
      obtain rfl := Option.some.inj h
      exact read_exact read (by simp)
    · simp at h
  · intro plain
    rw [read_plain plain]

end Mewa.Lib.LuaString
