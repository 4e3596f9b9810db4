/- Module: Mewa/Lexer/Activation
   digest: The first bytes of the matches of a pattern, read from the text of the pattern. -/

import Mewa.Error
import Mewa.Lib.Result
import Mathlib.Data.String.Basic

set_option autoImplicit false
set_option relaxedAutoImplicit false

namespace Mewa

open Mewa.Lib

/-- The characters that a backslash can stand before in a pattern. -/
def escapeChars : List Char := "#\x7b\x7d[]()*+?.-\\|&^".toList

/-- A number as a byte, and a byte as a number of a signed char. -/
def charOfSigned (i : Int) : Char := Char.ofNat (i % 256).toNat

def signedOfChar (ch : Char) : Int :=
  let byte : Int := ch.toNat % 256
  if byte < 128 then byte else byte - 256

def utf8mid (ch : Char) : Bool := ch.toNat &&& 0xC0 == 0x80

/-- The character at the begin of a text with the bytes that belong to it. -/
def parseChar : List Char → List Char
  | [] => []
  | ch :: text => if ch.toNat ≥ 128 then ch :: text.takeWhile utf8mid else [ch]

/-- The number of bytes of a character with this first byte. -/
def utf8charlen (ch : Char) : Nat :=
  let inverse := ch.toNat ^^^ 0xFF
  let bitScanReverse := if inverse = 0 then 0 else inverse.log2 + 1
  let cl := 9 - bitScanReverse
  if cl > 2 then cl - 1 else 1

namespace LexemDef

/-! The place in the text of a pattern is the rest of it with the null character at its end. -/

def skipCaret (si : List Char) : List Char := if si.head? = some '^' then si.tail else si

def illegal {α : Type} (text : List Char) : Except Failure α :=
  .error (.thrown ⟨.IllegalFirstCharacterInLexer, String.ofList text, 0⟩)

def malformed {α : Type} : Except Failure α := .error (.thrown ⟨.SyntaxErrorInLexer, "", 0⟩)

def parseFirstChar (si : List Char) (allowNonAscii : Bool) : Except Failure (Char × List Char) :=
  match si with
  | [] => .error .outOfRange
  | ch :: rest =>
    if ch.toNat < 32 then illegal (parseChar si)
    else if ch = '\\' then
      match rest with
      | [] => .error .outOfRange
      | escaped :: after =>
        -- the search for a null character finds the end of the list
        if escaped ∈ escapeChars ∨ escaped = '\x00' then .ok (escaped, after)
        else illegal ('\\' :: parseChar rest)
    else if !allowNonAscii ∧ 1 < utf8charlen ch then illegal (parseChar si)
    else .ok (ch, si.drop (utf8charlen ch))

/-- The characters behind the first of two, up to the last. A signed char is never greater than 127,
    so that the loop up to there does not end. -/
def charsUpTo (a b : Char) : Except Failure (List Char) :=
  let start := min (signedOfChar a) (signedOfChar b)
  let stop := max (signedOfChar a) (signedOfChar b)
  if stop = 127 then .error .outOfFuel
  else .ok ((List.range (stop - start).toNat).map fun i : Nat => charOfSigned (start + 1 + i))

/-- The characters of a set are added to `res`. The result also says if there are any. -/
def extractFirstCharacters (eb : Char) : Nat → Bool → List Char → List Char →
    Except Failure (List Char × Bool × List Char)
  | 0, _, _, _ => .error .outOfFuel
  | fuel + 1, empty, res, si =>
    match si with
    | [] => .error .outOfRange
    | ch :: rest =>
      if ch = '\x00' then malformed
      else if ch = eb then .ok (res, !empty, rest)
      else if ch = '-' ∧ empty = false then
        match res.getLast?, rest with
        | some first, next :: after =>
          if next = '\x00' then malformed
          else if next = eb then .ok (res ++ [first], true, after)
          else do
            let (last, si) ← parseFirstChar rest false
            let more ← charsUpTo first last
            extractFirstCharacters eb fuel false (res ++ more) si
        | _, _ => .error .outOfRange
      else do
        let (first, si) ← parseFirstChar si false
        extractFirstCharacters eb fuel false (res ++ [first]) si

/-- The loop behind an opening bracket `sb`, with the number of brackets that are open. -/
def skipBracketsLoop (sb eb : Char) : Nat → Bool → List Char → Except Failure (Bool × List Char)
  | _, _, [] => .error .outOfRange
  | cnt, empty, ch :: rest =>
    if cnt = 0 then .ok (!empty, ch :: rest)
    else if ch = '\x00' then malformed
    else if ch = eb then skipBracketsLoop sb eb (cnt - 1) empty rest
    else if ch = sb then skipBracketsLoop sb eb (cnt + 1) empty rest
    else skipBracketsLoop sb eb cnt false rest

/-- Behind the brackets. The result also says if there is something in them. -/
def skipBrackets (si : List Char) (eb : Char) : Except Failure (Bool × List Char) :=
  match si with
  | [] => .error .outOfRange
  | sb :: rest => skipBracketsLoop sb eb 1 true rest

/-- The result says if what stands before cannot be left out. -/
def skipMultiplicator (si : List Char) : Except Failure (Bool × List Char) :=
  match si with
  | [] => .error .outOfRange
  | '*' :: rest => .ok (false, rest)
  | '\x7b' :: rest => do
    let (_, si) ← skipBrackets si '\x7d'
    .ok (!(['0', ','].isPrefixOf rest), si)
  | _ => .ok (true, si)

/-- A character that is not ASCII is no bit of the set, as its number is negative. -/
def inverseCharset (charset : List Char) : Except Failure (List Char) :=
  if charset.any fun ch => decide (signedOfChar ch < 0) then .error .outOfRange
  else .ok (((List.range 256).map Char.ofNat).filter fun ch =>
    decide (33 ≤ ch.toNat ∧ ch ∉ charset))

/-- The alternatives in brackets. The text that is read for one goes from its bracket to the last
    character that was skipped. -/
def alternatives (read : List Char → Except Failure (List Char)) : Nat → List Char → List Char →
    Except Failure (List Char × Bool × List Char)
  | 0, _, _ => .error .outOfFuel
  | fuel + 1, rt, si => do
    let (hasCharacters, next) ← skipBrackets si ')'
    let (needed, next) ← skipMultiplicator next
    let inner ← read ((si.drop 1).take (si.length - next.length - 2))
    match next with
    | [] => .error .outOfRange
    | ch :: rest =>
      if ch = '|' then alternatives read fuel (rt ++ inner) rest
      else .ok (rt ++ inner, !hasCharacters || !needed, next)

/-- The loop of `activation`, up to the first part of the pattern that cannot be left out. -/
def activationLoop : Nat → List Char → List Char → Except Failure (List Char)
  | 0, _, _ => .error .outOfFuel
  | fuel + 1, rt, si =>
    match si with
    | [] => .error .outOfRange
    | '\x00' :: _ => .ok rt
    | '[' :: rest => do
      let start := skipCaret rest
      let (rt, hasCharacters, next) ← extractFirstCharacters ']' (start.length + 1) true rt start
      let (needed, next) ← skipMultiplicator next
      let rt ← (if rest.head? = some '^' then inverseCharset rt else .ok rt)
      if hasCharacters && needed then .ok rt else activationLoop fuel rt next
    | '(' :: _ => do
      let read (text : List Char) := activationLoop fuel [] (skipCaret (text ++ ['\x00']))
      let (rt, empty, next) ← alternatives read (si.length + 1) rt si
      if empty then activationLoop fuel rt next else .ok rt
    | _ => do
      let (first, _) ← parseFirstChar si true
      .ok (rt ++ [first])

/-- The first bytes of the matches of a pattern. -/
def activation (source : String) : Except Failure (List Char) :=
  let text := source.toList ++ ['\x00']
  activationLoop (text.length + 1) [] (skipCaret text)

/-- The numbers of these bytes, which a definition has in its set. -/
def firstBytes (source : String) : Except Failure (List Nat) :=
  (activation source).map (List.map Char.toNat)

example : activation "[a-c]*(x|(y)*)z" = .ok ['a', 'b', 'c', 'x'] := by decide +kernel

/-! The reader ends, and it has errors of its own. -/

def Refusal (e : Failure) : Prop :=
  e = .outOfRange ∨ (∃ arg, e = .thrown ⟨.IllegalFirstCharacterInLexer, arg, 0⟩) ∨
    e = .thrown ⟨.SyntaxErrorInLexer, "", 0⟩

theorem refusal_outOfRange : Refusal .outOfRange := Or.inl rfl

theorem refusal_illegal {α : Type} (Q : α → Prop) (text : List Char) :
    Yields Refusal Q (illegal text : Except Failure α) :=
  Yields.error_iff.mpr (Or.inr (Or.inl ⟨_, rfl⟩))

theorem refusal_malformed {α : Type} (Q : α → Prop) :
    Yields Refusal Q (malformed : Except Failure α) :=
  Yields.error_iff.mpr (Or.inr (Or.inr rfl))

/-- A place behind another one. -/
def Behind (next si : List Char) : Prop := next <:+ si ∧ next.length < si.length

theorem Behind.cons {next rest : List Char} (ch : Char) (suffix : next <:+ rest) :
    Behind next (ch :: rest) := by
  refine ⟨suffix.trans (List.suffix_cons ch rest), ?_⟩
  rw [List.length_cons]
  exact Nat.lt_succ_of_le suffix.length_le

theorem Behind.trans {last next si : List Char} (second : Behind last next) (first : Behind next si) :
    Behind last si :=
  ⟨second.1.trans first.1, second.2.trans first.2⟩

theorem utf8charlen_pos (ch : Char) : 0 < utf8charlen ch := by
  unfold utf8charlen
  simp only
  generalize 9 - (if ch.toNat ^^^ 0xFF = 0 then 0 else (ch.toNat ^^^ 0xFF).log2 + 1) = cl
  split <;> omega

theorem parseFirstChar_yields (si : List Char) (allowNonAscii : Bool) :
    Yields Refusal (fun read => read.1 ∈ si ∧ Behind read.2 si)
      (parseFirstChar si allowNonAscii) := by
  unfold parseFirstChar
  split
  · exact Yields.error_iff.mpr refusal_outOfRange
  · rename_i ch rest
    split
    · exact refusal_illegal _ _
    · split
      · split
        · exact Yields.error_iff.mpr refusal_outOfRange
        · rename_i escaped after
          split
          · exact Yields.ok_iff.mpr ⟨by simp, Behind.cons ch (List.suffix_cons escaped after)⟩
          · exact refusal_illegal _ _
      · split
        · exact refusal_illegal _ _
        · refine Yields.ok_iff.mpr ⟨List.mem_cons_self, List.drop_suffix _ _, ?_⟩
          have positive := utf8charlen_pos ch
          rw [List.length_drop, List.length_cons]
          omega

theorem toNat_ofNat_byte : ∀ n < 256, (Char.ofNat n).toNat = n := by decide +kernel

theorem signedOfChar_charOfSigned {i : Int} (low : -128 ≤ i) (high : i < 128) :
    signedOfChar (charOfSigned i) = i := by
  have small : (i % 256).toNat < 256 := by omega
  have number := toNat_ofNat_byte _ small
  unfold signedOfChar charOfSigned
  rw [number]
  dsimp only
  split <;> omega

theorem signedOfChar_bounds (ch : Char) : -128 ≤ signedOfChar ch ∧ signedOfChar ch < 128 := by
  unfold signedOfChar
  generalize ch.toNat = byte
  dsimp only
  split <;> omega

theorem charsUpTo_yields (a b : Char) :
    Yields (fun e => e = .outOfFuel ∧ (signedOfChar a = 127 ∨ signedOfChar b = 127))
      (fun more => ∀ ch ∈ more, signedOfChar ch ≠ 127) (charsUpTo a b) := by
  have first := signedOfChar_bounds a
  have second := signedOfChar_bounds b
  unfold charsUpTo
  generalize signedOfChar a = start at first ⊢
  generalize signedOfChar b = stop at second ⊢
  dsimp only
  split
  · exact Yields.error_iff.mpr ⟨rfl, by omega⟩
  · refine Yields.ok_iff.mpr fun ch mem => ?_
    obtain ⟨i, inside, rfl⟩ := List.mem_map.mp mem
    have lt := List.mem_range.mp inside
    rw [signedOfChar_charOfSigned (by omega) (by omega)]
    omega

theorem skipCaret_suffix (si : List Char) : skipCaret si <:+ si := by
  unfold skipCaret
  split
  · exact List.tail_suffix si
  · exact List.suffix_refl si

section Places

variable {si : List Char} {eb : Char} {Endless : Prop}

/-- The reader refuses a pattern, or it has a range that does not end. -/
def Stops (Endless : Prop) (e : Failure) : Prop := Refusal e ∨ e = .outOfFuel ∧ Endless

/-- The greatest character makes a range endless. -/
def Greatest (Endless : Prop) (si : List Char) : Prop :=
  ∀ ch ∈ si, signedOfChar ch = 127 → Endless

theorem Greatest.of_suffix {next : List Char} (greatest : Greatest Endless si)
    (suffix : next <:+ si) : Greatest Endless next :=
  fun ch mem => greatest ch (suffix.mem mem)

theorem refusal_stops {α : Type} {Q : α → Prop} {x : Except Failure α} (yields : Yields Refusal Q x) :
    Yields (Stops Endless) Q x := yields.allow fun _ => Or.inl

theorem extractFirstCharacters_yields (greatest : Greatest Endless si) {fuel : Nat} {empty : Bool}
    {res : List Char}
    (last : empty = false → ∀ ch, res.getLast? = some ch → signedOfChar ch = 127 → Endless)
    (enough : si.length < fuel) :
    Yields (Stops Endless) (fun read => Behind read.2.2 si)
      (extractFirstCharacters eb fuel empty res si) := by
  induction fuel generalizing empty res si with
  | zero => omega
  | succ fuel ih =>
    unfold extractFirstCharacters
    split
    · exact refusal_stops (Yields.error_iff.mpr refusal_outOfRange)
    · rename_i ch rest
      split
      · exact refusal_stops (refusal_malformed _)
      · split
        · exact Yields.ok_iff.mpr (Behind.cons ch (List.suffix_refl rest))
        · split
          · rename_i range
            split
            · rename_i first next after found
              split
              · exact refusal_stops (refusal_malformed _)
              · split
                · exact Yields.ok_iff.mpr (Behind.cons ch (List.suffix_cons next after))
                · -- a range, from the last character that was added
                  apply (refusal_stops (parseFirstChar_yields _ _)).bind
                  rintro ⟨stop, place⟩ - ⟨mem, behind⟩
                  have chars : Yields (Stops Endless) (fun more => ∀ ch ∈ more, signedOfChar ch ≠ 127)
                      (charsUpTo first stop) := by
                    apply (charsUpTo_yields first stop).allow
                    rintro e ⟨out, greatest_first | greatest_stop⟩
                    · exact Or.inr ⟨out, last range.2 first found greatest_first⟩
                    · exact Or.inr ⟨out, greatest stop (List.mem_cons_of_mem ch mem) greatest_stop⟩
                  apply chars.bind
                  intro more _ smaller
                  have inside : Behind place (ch :: next :: after) :=
                    behind.trans (Behind.cons ch (List.suffix_refl _))
                  have enough : place.length < fuel := Nat.lt_of_lt_of_le inside.2 (by omega)
                  apply (ih (greatest.of_suffix inside.1) (fun _ ch' final => ?_) enough).mono
                  · rintro read - later
                    exact later.trans inside
                  · rw [List.getLast?_append] at final
                    cases others : more.getLast? with
                    | none =>
                      rw [others] at final
                      exact last range.2 ch' final
                    | some ch'' =>
                      rw [others] at final
                      obtain rfl := Option.some.inj final
                      exact fun same => absurd same (smaller _ (List.mem_of_getLast? others))
            · exact refusal_stops (Yields.error_iff.mpr refusal_outOfRange)
          · apply (refusal_stops (parseFirstChar_yields _ _)).bind
            rintro ⟨first, place⟩ - ⟨mem, inside⟩
            have enough : place.length < fuel := Nat.lt_of_lt_of_le inside.2 (by omega)
            apply (ih (greatest.of_suffix inside.1) (fun _ ch' final => ?_) enough).mono
            · rintro read - later
              exact later.trans inside
            · rw [List.getLast?_concat] at final
              obtain rfl := Option.some.inj final
              exact greatest _ mem

theorem skipBracketsLoop_yields {sb : Char} {cnt : Nat} {empty : Bool} :
    Yields Refusal (fun read => read.2 <:+ si ∧ (cnt ≠ 0 → read.2.length < si.length))
      (skipBracketsLoop sb eb cnt empty si) := by
  induction si generalizing cnt empty with
  | nil => exact Yields.error_iff.mpr refusal_outOfRange
  | cons ch rest ih =>
    have later {cnt' : Nat} {empty' : Bool} : Yields Refusal
        (fun read => read.2 <:+ ch :: rest ∧ (cnt ≠ 0 → read.2.length < (ch :: rest).length))
        (skipBracketsLoop sb eb cnt' empty' rest) := by
      apply ih.mono
      rintro read - ⟨suffix, -⟩
      have behind := Behind.cons ch suffix
      exact ⟨behind.1, fun _ => behind.2⟩
    unfold skipBracketsLoop
    split
    · rename_i closed
      exact Yields.ok_iff.mpr ⟨List.suffix_refl _, fun opened => absurd closed opened⟩
    · split
      · exact refusal_malformed _
      · split
        · exact later
        · split <;> exact later

theorem skipBrackets_yields :
    Yields Refusal (fun read => read.2 <:+ si ∧ read.2.length + 2 ≤ si.length)
      (skipBrackets si eb) := by
  unfold skipBrackets
  split
  · exact Yields.error_iff.mpr refusal_outOfRange
  · rename_i sb rest
    apply skipBracketsLoop_yields.mono
    rintro read - ⟨suffix, shorter⟩
    have shorter := shorter one_ne_zero
    exact ⟨suffix.trans (List.suffix_cons sb rest), by rw [List.length_cons]; omega⟩

theorem skipMultiplicator_yields :
    Yields Refusal (fun read => read.2 <:+ si) (skipMultiplicator si) := by
  unfold skipMultiplicator
  split
  · exact Yields.error_iff.mpr refusal_outOfRange
  · exact Yields.ok_iff.mpr (List.suffix_cons _ _)
  · apply skipBrackets_yields.bind
    rintro ⟨some_text, next⟩ - behind
    exact Yields.ok_iff.mpr behind.1
  · exact Yields.ok_iff.mpr (List.suffix_refl _)

theorem inverseCharset_yields (charset : List Char) :
    Yields Refusal (fun _ => True) (inverseCharset charset) := by
  unfold inverseCharset
  split
  · exact Yields.error_iff.mpr refusal_outOfRange
  · exact Yields.ok_iff.mpr trivial

theorem alternatives_yields {read : List Char → Except Failure (List Char)}
    (reads : ∀ text, text <:+: si → text.length + 2 ≤ si.length →
      Yields (Stops Endless) (fun _ => True) (read text))
    {fuel : Nat} {rt : List Char} (enough : si.length < fuel) :
    Yields (Stops Endless) (fun read => Behind read.2.2 si) (alternatives read fuel rt si) := by
  induction fuel generalizing rt si with
  | zero => omega
  | succ fuel ih =>
    unfold alternatives
    apply (refusal_stops skipBrackets_yields).bind
    rintro ⟨hasCharacters, closed⟩ - ⟨suffix, shorter⟩
    have shorter : closed.length + 2 ≤ si.length := shorter
    apply (refusal_stops skipMultiplicator_yields).bind
    rintro ⟨needed, next⟩ - skipped
    have place : next <:+ si := skipped.trans suffix
    have after : next.length ≤ closed.length := skipped.length_le
    have inner : (si.drop 1).take (si.length - next.length - 2) <:+: si :=
      (List.take_prefix _ _).isInfix.trans (List.drop_suffix _ _).isInfix
    apply (reads _ inner (by rw [List.length_take]; omega)).bind
    rintro found - -
    split
    · exact refusal_stops (Yields.error_iff.mpr refusal_outOfRange)
    · rename_i ch rest
      rw [List.length_cons] at after
      split
      · have behind : Behind rest si := ⟨(List.suffix_cons ch rest).trans place, by omega⟩
        apply (ih (fun text part small => ?_) (by omega)).mono
        · rintro read - later
          exact later.trans behind
        · exact reads text (part.trans behind.1.isInfix) (by omega)
      · exact Yields.ok_iff.mpr ⟨place, by rw [List.length_cons]; omega⟩

theorem activationLoop_yields (greatest : Greatest Endless si) {fuel : Nat} {rt : List Char}
    (enough : si.length < fuel) :
    Yields (Stops Endless) (fun _ => True) (activationLoop fuel rt si) := by
  induction fuel generalizing rt si with
  | zero => omega
  | succ fuel ih =>
    have again {next rt' : List Char} (behind : Behind next si) :
        Yields (Stops Endless) (fun _ => True) (activationLoop fuel rt' next) :=
      ih (greatest.of_suffix behind.1) (Nat.lt_of_lt_of_le behind.2 (by omega))
    unfold activationLoop
    split
    · exact refusal_stops (Yields.error_iff.mpr refusal_outOfRange)
    · exact Yields.ok_iff.mpr trivial
    · rename_i rest
      have start := skipCaret_suffix rest
      have within : Greatest Endless (skipCaret rest) :=
        greatest.of_suffix (start.trans (List.suffix_cons _ _))
      apply (extractFirstCharacters_yields within (fun some_chars => by cases some_chars)
        (Nat.lt_succ_self _)).bind
      rintro ⟨chars, hasCharacters, closed⟩ - behind
      apply (refusal_stops skipMultiplicator_yields).bind
      rintro ⟨needed, next⟩ - suffix
      have inverted : Yields Refusal (fun _ => True)
          (if rest.head? = some '^' then inverseCharset chars else .ok chars) := by
        split
        · exact inverseCharset_yields chars
        · exact Yields.ok_iff.mpr trivial
      apply (refusal_stops inverted).bind
      rintro all - -
      split
      · exact Yields.ok_iff.mpr trivial
      · exact again (Behind.cons _ (suffix.trans (behind.1.trans start)))
    · rename_i rest
      have reads (text : List Char) (part : text <:+: '(' :: rest)
          (small : text.length + 2 ≤ ('(' :: rest).length) : Yields (Stops Endless) (fun _ => True)
            (activationLoop fuel [] (skipCaret (text ++ ['\x00']))) := by
        have suffix := skipCaret_suffix (text ++ ['\x00'])
        have length := suffix.length_le
        rw [List.length_append, List.length_singleton] at length
        refine ih (fun ch mem => ?_) (by omega)
        rcases List.mem_append.mp (suffix.mem mem) with inside | last
        · exact greatest ch (part.mem inside)
        · rw [List.mem_singleton.mp last]
          exact fun same => absurd same (by decide)
      apply (alternatives_yields reads (Nat.lt_succ_self _)).bind
      rintro ⟨chars, empty, next⟩ - behind
      dsimp only
      split
      · exact again behind
      · exact Yields.ok_iff.mpr trivial
    · apply (refusal_stops (parseFirstChar_yields _ _)).bind
      rintro ⟨first, place⟩ - -
      exact Yields.ok_iff.mpr trivial

/-- The reader ends for every pattern, but for a range up to the greatest character. -/
theorem activation_failsWith (source : String) :
    FailsWith (Stops (∃ ch ∈ source.toList, signedOfChar ch = 127)) (activation source) := by
  unfold activation
  have suffix := skipCaret_suffix (source.toList ++ ['\x00'])
  have length := suffix.length_le
  refine (activationLoop_yields (fun ch mem same => ?_) (Nat.lt_succ_of_le length)).toFailsWith
  rcases List.mem_append.mp (suffix.mem mem) with inside | last
  · exact ⟨ch, inside, same⟩
  · rw [List.mem_singleton.mp last] at same
    exact absurd same (by decide)

end Places

end LexemDef

end Mewa
