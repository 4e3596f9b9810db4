/- Module: Mewa/Errors/Survival
   digest: When the parameter is found in the message of an error, and errors survive copies and
     parsing. -/

import Mewa.Errors.Message
import Mewa.Lib.Decimal

set_option autoImplicit false
set_option relaxedAutoImplicit false

namespace Mewa

open Mewa.Lib

namespace ErrorObject

/-! The parts of a message. -/

theorem arg_eq (e : ErrorObject) : e.arg = behind ':' ' ' e.what := by
  have found : ∀ text : List Char,
      (strstr [':', ' '] text).map (fun i => text.drop (i + 2)) = behind ':' ' ' text := by
    intro text
    induction text with
    | nil => rfl
    | cons ch text ih =>
      unfold strstr
      cases text with
      | nil => simp [strstr, behind]
      | cons next text =>
        rw [behind_cons_cons, ← ih]
        by_cases here : ch = ':' ∧ next = ' '
        · obtain ⟨rfl, rfl⟩ := here
          rfl
        · have other : ¬ [':', ' '].isPrefixOf (ch :: next :: text) = true := by
            intro stands
            simp only [List.isPrefixOf_cons_cons, Bool.and_eq_true, beq_iff_eq] at stands
            exact here ⟨stands.1.symm, stands.2.1.symm⟩
          rw [if_neg other, if_neg here, Option.map_map]
          rfl
  exact found e.what

theorem parseInteger_digits (n : Nat) {rest : List Char}
    (stop : ∀ ch ∈ rest.head?, ¬ ('0' ≤ ch ∧ ch ≤ '9')) :
    parseInteger (Nat.toDigits 10 n ++ rest) = (n, rest) := by
  have digits : ∀ ch ∈ Nat.toDigits 10 n, decide ('0' ≤ ch ∧ ch ≤ '9') = true :=
    fun ch mem => decide_eq_true (isDigit_of_mem mem)
  have behind_digits : rest.takeWhile (fun ch => decide ('0' ≤ ch ∧ ch ≤ '9')) = [] := by
    cases rest with
    | nil => rfl
    | cons ch rest => exact List.takeWhile_cons_of_neg (by simpa using stop ch rfl)
  have value : ∀ (l : List Char) (init : Nat),
      l.foldl (fun rt ch => rt * 10 + (ch.toNat - '0'.toNat)) init = Nat.ofDigitChars 10 l init := by
    intro l
    induction l with
    | nil => intro init; rfl
    | cons ch l ih =>
      intro init
      rw [List.foldl_cons, ih, Nat.ofDigitChars_cons, Nat.mul_comm]
  unfold parseInteger
  simp only [List.takeWhile_append_of_pos digits, behind_digits, List.append_nil, value,
    Nat.ofDigitChars_ten_toDigits, List.drop_left]

theorem parseInteger_sign (rest : List Char) : parseInteger ('-' :: rest) = (0, '-' :: rest) := rfl

/-! The separator in the parts of a message. -/

theorem not_colonBlank_nil : ¬ Separated ':' ' ' [] := not_separated_of_not_mem List.not_mem_nil

theorem colon_not_mem_number (n : Int) : ':' ∉ (toString n).toList :=
  not_mem_number (by decide) (by decide)

theorem colonBlank_placeText {location : Location} :
    Separated ':' ' ' (placeText location) ↔ Separated ':' ' ' location.filename := by
  unfold placeText
  rw [separated_append_of_not_mem (colon_not_mem_number location.line)]
  by_cases unnamed : location.filename = []
  · rw [if_pos unnamed, unnamed]
  · rw [if_neg unnamed, separated_append_of_not_mem (by decide), separated_cons,
      separated_append_cons (by decide) (by decide)]
    have empty := not_colonBlank_nil
    have other : ('"' : Char) ≠ ':' := by decide
    tauto

section Head

variable {strerror : Nat → List Char} {code : Nat} {location : Location}

theorem messageHead_compileError :
    messageHead strerror ErrorCode.CompileError.value location =
      "Error".toList ++ (" at line ".toList ++ placeText location) := by
  rw [← List.append_assoc]
  rfl

theorem messageHead_other (other : code ≠ ErrorCode.CompileError.value) (some_code : code ≠ 0) :
    messageHead strerror code location =
      ('#' :: Nat.toDigits 10 code ++ [' ']) ++ '"' :: (code2String strerror code ++ '"' ::
        if location.line ≠ 0 then " at line ".toList ++ placeText location else []) := by
  have not_ok : code ≠ ErrorCode.Ok.value := some_code
  unfold messageHead
  rw [if_neg other, if_neg not_ok, digits_of_nat, List.append_assoc, List.singleton_append]

theorem colonBlank_messageHead (some_code : code ≠ 0)
    (placed : location.filename ≠ [] → location.line ≠ 0) :
    Separated ':' ' ' (messageHead strerror code location) ↔
      Separated ':' ' ' (code2String strerror code) ∨ Separated ':' ' ' location.filename := by
  by_cases compile : code = ErrorCode.CompileError.value
  · subst compile
    have text : ¬ Separated ':' ' ' (code2String strerror ErrorCode.CompileError.value) := by
      rw [code2String_value]
      exact not_separated_of_not_mem (by decide)
    rw [messageHead_compileError, separated_append_of_not_mem (by decide),
      separated_append_of_not_mem (by decide), colonBlank_placeText]
    tauto
  · have number : ':' ∉ '#' :: Nat.toDigits 10 code ++ [' '] := by
      have digits := colon_not_mem_number code
      rw [digits_of_nonneg (by omega)] at digits
      simpa using digits
    have place : Separated ':' ' ' (if location.line ≠ 0 then
        " at line ".toList ++ placeText location else []) ↔ Separated ':' ' ' location.filename := by
      by_cases first : location.line = 0
      · have unnamed : location.filename = [] := by
          by_contra named
          exact placed named first
        rw [if_neg (by simpa using first), unnamed]
      · rw [if_pos first, separated_append_of_not_mem (by decide), colonBlank_placeText]
    rw [messageHead_other compile some_code, separated_append_of_not_mem number, separated_cons,
      separated_append_cons (by decide) (by decide), place]
    have other : ('"' : Char) ≠ ':' := by decide
    tauto

variable (strerror location) in
theorem messageHead_ends (some_code : code ≠ 0) :
    ∃ front last, messageHead strerror code location = front ++ [last] ∧
      last ≠ ':' ∧ last ≠ ' ' := by
  have place : ∃ front last, placeText location = front ++ [last] ∧ last ≠ ':' ∧ last ≠ ' ' := by
    unfold placeText
    by_cases unnamed : location.filename = []
    · have filled := number_ne_nil location.line
      have last_mem := List.getLast_mem filled
      refine ⟨(toString location.line).toList.dropLast, (toString location.line).toList.getLast filled,
        ?_, ?_, ?_⟩
      · rw [if_pos unnamed, List.append_nil, List.dropLast_append_getLast]
      · exact fun same => not_mem_number (by decide) (by decide) (same ▸ last_mem)
      · exact fun same => not_mem_number (by decide) (by decide) (same ▸ last_mem)
    · rw [if_neg unnamed]
      exact ⟨(toString location.line).toList ++ (" in file ".toList ++ '"' :: location.filename),
        '"', by simp, by decide, by decide⟩
  obtain ⟨front, last, same, ends⟩ := place
  by_cases compile : code = ErrorCode.CompileError.value
  · subst compile
    refine ⟨"Error".toList ++ (" at line ".toList ++ front), last, ?_, ends⟩
    rw [messageHead_compileError, same]
    simp
  · rw [messageHead_other compile some_code]
    by_cases first : location.line = 0
    · rw [if_neg (by simpa using first)]
      exact ⟨('#' :: Nat.toDigits 10 code ++ [' ']) ++ '"' :: code2String strerror code, '"',
        by simp, by decide, by decide⟩
    · rw [if_pos first, same]
      exact ⟨('#' :: Nat.toDigits 10 code ++ [' ']) ++ '"' :: (code2String strerror code ++ '"' ::
        (" at line ".toList ++ front)), last, by simp, ends⟩

theorem null_not_mem_messageHead (some_code : code ≠ 0)
    (text : '\x00' ∉ code2String strerror code) : '\x00' ∉ messageHead strerror code location := by
  have number (n : Int) : '\x00' ∉ (toString n).toList := not_mem_number (by decide) (by decide)
  have place : '\x00' ∉ placeText location := by
    unfold placeText
    by_cases unnamed : location.filename = []
    · simpa [unnamed] using number location.line
    · simpa [unnamed, location.terminated] using number location.line
  by_cases compile : code = ErrorCode.CompileError.value
  · subst compile
    rw [messageHead_compileError]
    simpa using place
  · have digits := number code
    rw [digits_of_nonneg (by omega)] at digits
    rw [messageHead_other compile some_code]
    by_cases first : location.line = 0
    · simpa [first, text] using digits
    · simpa [first, text, place] using digits

end Head

section Message

variable {strerror : Nat → List Char} {code : Nat} {location : Location}
  {param : Option (List Char)}

/-- What stands behind the head of a message. -/
def paramText : List Char → List Char
  | [] => []
  | ch :: param => ':' :: ' ' :: ch :: param

theorem map2string_eq (some_code : code ≠ 0) (text : '\x00' ∉ code2String strerror code)
    (fits : (messageHead strerror code location).length ≤ 255)
    (plain : '\x00' ∉ param.getD []) :
    map2string strerror code param location =
      messageHead strerror code location ++ paramText (param.getD []) := by
  have head : cstr ((messageHead strerror code location).take 255) =
      messageHead strerror code location := by
    rw [List.take_of_length_le fits]
    exact cstr_plain (null_not_mem_messageHead some_code text)
  unfold map2string
  rw [head]
  cases param with
  | none => simp [paramText]
  | some param =>
    cases param with
    | nil => simp [paramText]
    | cons ch param =>
      simp only [Option.getD_some] at plain ⊢
      rw [cstr_plain plain]
      rfl

/-- The parameter is found in a message without a separator before it. -/
theorem behind_message (some_code : code ≠ 0)
    (apart : ¬ Separated ':' ' ' (messageHead strerror code location)) (text : List Char) :
    (behind ':' ' ' (messageHead strerror code location ++ paramText text)).getD [] = text := by
  obtain ⟨front, last, head, no_colon, -⟩ := messageHead_ends strerror location some_code
  have ends : (messageHead strerror code location).getLast? ≠ some ':' := by
    rw [head, List.getLast?_concat]
    simpa using no_colon
  cases text with
  | nil =>
    show (behind ':' ' ' (messageHead strerror code location ++ [])).getD [] = []
    rw [List.append_nil, behind_none apart]
    rfl
  | cons ch text =>
    show (behind ':' ' ' (messageHead strerror code location ++ ':' :: ' ' :: ch :: text)).getD [] = _
    rw [behind_append apart ends]
    rfl

theorem behind_message_longer (some_code : code ≠ 0)
    (separated : Separated ':' ' ' (messageHead strerror code location)) (text : List Char) :
    text.length <
      ((behind ':' ' ' (messageHead strerror code location ++ paramText text)).getD []).length := by
  obtain ⟨before, after, head, found⟩ := behind_of_separated separated
  obtain ⟨front, last, ends, -, no_blank⟩ := messageHead_ends strerror location some_code
  rw [found]
  cases text with
  | nil =>
    have filled : after ≠ [] := by
      rintro rfl
      have both : front ++ [last] = (before ++ [':']) ++ [' '] := by
        rw [← ends, head]
        simp
      exact no_blank (by simpa using (List.append_inj' both rfl).2)
    simpa [paramText] using List.length_pos_iff.mpr filled
  | cons ch text =>
    simp only [paramText, Option.getD_some, List.length_append, List.length_cons]
    omega

end Message

/-! What the parser finds in a message. -/

section Parsing

variable {strerror : Nat → List Char} {code : Nat} {location : Location} (e : ParsedError)

theorem parseArgument_paramText (text : List Char) :
    e.parseArgument (paramText text) = { e with param := some text } := by
  cases text <;> rfl

theorem parseFileName_named {filename : List Char} (no_quote : '"' ∉ filename) (text : List Char) :
    e.parseFileName ("in file ".toList ++ '"' :: (filename ++ '"' :: paramText text)) =
      { e with filename := filename, param := some text } := by
  have plain : ∀ ch ∈ filename, decide (ch ≠ '"') = true :=
    fun ch mem => by simpa using fun same : ch = '"' => no_quote (same ▸ mem)
  have string : parseString ('"' :: (filename ++ '"' :: paramText text)) =
      (filename, paramText text) := by
    simp only [parseString]
    rw [List.takeWhile_append_of_pos plain, List.dropWhile_append_of_pos plain]
    simp
  have behind_name : ("in file ".toList ++ '"' :: (filename ++ '"' :: paramText text)).drop 8 =
      '"' :: (filename ++ '"' :: paramText text) := rfl
  unfold ParsedError.parseFileName
  rw [if_pos, behind_name]
  · simp only [true_or, if_true, string]
    exact parseArgument_paramText _ text
  · refine ⟨?_, List.prefix_append _ _⟩
    simp

theorem parseLineNo_eq {digits : List Char} {n : Nat} {rest : List Char} (filled : digits ≠ [])
    (read : parseInteger digits = (n, rest)) :
    e.parseLineNo ("at line ".toList ++ digits) =
      { e with line := n }.parseBehindLineNo rest := by
  have behind_text : ("at line ".toList ++ digits).drop 8 = digits := rfl
  have long : 8 < ("at line ".toList ++ digits).length := by
    have positive := List.length_pos_iff.mpr filled
    rw [List.length_append]
    show 8 < 8 + digits.length
    omega
  unfold ParsedError.parseLineNo
  rw [if_pos ⟨long, List.prefix_append _ _⟩, behind_text, read]

theorem parseLineNo_place (nonneg : 0 ≤ location.line) (no_quote : '"' ∉ location.filename)
    (unnamed : e.filename = []) (text : List Char) :
    e.parseLineNo ("at line ".toList ++ (placeText location ++ paramText text)) =
      { e with line := location.line.toNat, filename := location.filename, param := some text } := by
  unfold placeText
  rw [digits_of_nonneg nonneg, List.append_assoc]
  have filled (rest : List Char) : Nat.toDigits 10 location.line.toNat ++ rest ≠ [] := by
    simp [Nat.toDigits_ne_nil]
  by_cases no_file : location.filename = []
  · rw [if_pos no_file, List.nil_append]
    have stop : ∀ ch ∈ (paramText text).head?, ¬ ('0' ≤ ch ∧ ch ≤ '9') := by
      cases text with
      | nil => simp [paramText]
      | cons ch text =>
        intro colon same
        obtain rfl := Option.some.inj same
        decide
    rw [parseLineNo_eq e (filled _) (parseInteger_digits _ stop)]
    have ends := parseArgument_paramText { e with line := location.line.toNat } text
    rw [no_file, ← unnamed, ← ends]
    cases text <;> rfl
  · rw [if_neg no_file, List.append_assoc, List.cons_append, List.append_assoc,
      List.singleton_append]
    have stop : ∀ ch ∈ (" in file ".toList ++ '"' ::
        (location.filename ++ '"' :: paramText text)).head?, ¬ ('0' ≤ ch ∧ ch ≤ '9') := by
      intro blank same
      obtain rfl := Option.some.inj same
      decide
    rw [parseLineNo_eq e (filled _) (parseInteger_digits _ stop)]
    exact parseFileName_named { e with line := location.line.toNat } no_quote text

theorem parseLineNo_negative (neg : location.line < 0) (text : List Char) :
    (e.parseLineNo ("at line ".toList ++ (placeText location ++ text))).line = 0 := by
  unfold placeText
  rw [digits_of_neg neg]
  have filled : '-' :: Nat.toDigits 10 (-location.line).toNat ++
      (if location.filename = [] then []
        else " in file ".toList ++ '"' :: (location.filename ++ ['"'])) ++ text ≠ [] :=
    List.cons_ne_nil _ _
  rw [parseLineNo_eq e filled (parseInteger_sign _)]
  rfl

theorem parseEndOfMessage_text (errstr rest : List Char)
    (no_quote : '"' ∉ code2String strerror e.code) :
    e.parseEndOfMessage strerror errstr (code2String strerror e.code ++ '"' :: rest)
      (code2String strerror e.code ++ '"' :: rest) = e.parseLineNo (skipSpaces rest) := by
  have plain : ∀ ch ∈ code2String strerror e.code, decide (ch ≠ '"') = true :=
    fun ch mem => by simpa using fun same : ch = '"' => no_quote (same ▸ mem)
  have skipped : skipUntil (code2String strerror e.code ++ '"' :: rest) '"' = '"' :: rest := by
    unfold skipUntil
    rw [List.dropWhile_append_of_pos plain]
    simp
  have message : (code2String strerror e.code ++ '"' :: rest).take
      ((code2String strerror e.code ++ '"' :: rest).length - ('"' :: rest).length) =
        code2String strerror e.code := by
    rw [List.length_append, Nat.add_sub_cancel, List.take_left']
    rfl
  unfold ParsedError.parseEndOfMessage
  split
  · rename_i none
    rw [skipped] at none
    simp at none
  · rename_i quote rest' found
    rw [skipped] at found
    obtain ⟨rfl, rfl⟩ := List.cons.inj found
    rw [message, if_pos (List.prefix_refl _)]

theorem parseLineNo_paramText (text : List Char) :
    e.parseLineNo (paramText text) = { e with param := some text } := by
  rw [← parseArgument_paramText]
  refine if_neg ?_
  rintro ⟨-, rest, begins⟩
  cases text with
  | nil => simp [paramText] at begins
  | cons ch text => exact absurd (List.cons.inj begins).1 (by decide)

theorem skipSpaces_paramText (text : List Char) : skipSpaces (paramText text) = paramText text := by
  cases text <;> rfl

theorem parse_code {rest : List Char} (small : code ≤ 32767)
    (no_quote : '"' ∉ code2String strerror code) :
    ParsedError.parse strerror (('#' :: Nat.toDigits 10 code ++ [' ']) ++ '"' ::
        (code2String strerror code ++ '"' :: rest)) =
      ParsedError.parseLineNo { code := code } (skipSpaces rest) := by
  have stop : ∀ ch ∈ (' ' :: '"' :: (code2String strerror code ++ '"' :: rest)).head?,
      ¬ ('0' ≤ ch ∧ ch ≤ '9') := by
    intro blank same
    obtain rfl := Option.some.inj same
    decide
  have whole : ('#' :: Nat.toDigits 10 code ++ [' ']) ++ '"' ::
      (code2String strerror code ++ '"' :: rest) =
        '#' :: (Nat.toDigits 10 code ++ ' ' :: '"' ::
          (code2String strerror code ++ '"' :: rest)) := by simp
  rw [whole]
  simp only [ParsedError.parse]
  rw [parseInteger_digits code stop]
  simp only
  rw [if_neg (by omega)]
  exact parseEndOfMessage_text { code := code } _ rest no_quote

theorem parse_compileError {rest : List Char} (filled : rest ≠ []) :
    ParsedError.parse strerror ("Error".toList ++ (" at line ".toList ++ rest)) =
      ParsedError.parseLineNo { code := ErrorCode.CompileError.value }
        ("at line ".toList ++ rest) := by
  have positive := List.length_pos_iff.mpr filled
  refine if_pos ⟨?_, ⟨rest, rfl⟩⟩
  rw [List.length_append, List.length_append]
  show 14 < 5 + (9 + rest.length)
  omega

theorem placeText_ne_nil (location : Location) (text : List Char) :
    placeText location ++ text ≠ [] := by
  intro same
  have place := (List.append_eq_nil_iff.mp same).1
  exact number_ne_nil location.line (List.append_eq_nil_iff.mp place).1

/-- The message of another code with anything behind it, as it is read. -/
theorem messageHead_append (other : code ≠ ErrorCode.CompileError.value) (some_code : code ≠ 0)
    (rest : List Char) :
    messageHead strerror code location ++ rest =
      ('#' :: Nat.toDigits 10 code ++ [' ']) ++ '"' :: (code2String strerror code ++ '"' ::
        ((if location.line ≠ 0 then " at line ".toList ++ placeText location else []) ++ rest)) := by
  rw [messageHead_other other some_code]
  simp only [List.append_assoc, List.cons_append, List.nil_append]

theorem parse_message (some_code : code ≠ 0) (small : code ≤ 32767)
    (text_quote : '"' ∉ code2String strerror code) (nonneg : 0 ≤ location.line)
    (no_quote : '"' ∉ location.filename) (placed : location.filename ≠ [] → location.line ≠ 0)
    (text : List Char) :
    ParsedError.parse strerror (messageHead strerror code location ++ paramText text) =
      ⟨code, location.line.toNat, location.filename, some text⟩ := by
  have place (e : ParsedError) (unnamed : e.filename = []) (text : List Char) :
      e.parseLineNo ("at line ".toList ++ (placeText location ++ paramText text)) =
        { e with
          line := location.line.toNat, filename := location.filename, param := some text } :=
    parseLineNo_place e nonneg no_quote unnamed text
  by_cases compile : code = ErrorCode.CompileError.value
  · subst compile
    rw [messageHead_compileError, List.append_assoc, List.append_assoc,
      parse_compileError (placeText_ne_nil _ _)]
    exact place { code := ErrorCode.CompileError.value } rfl text
  · rw [messageHead_append compile some_code, parse_code small text_quote]
    by_cases first : location.line = 0
    · have unnamed : location.filename = [] := by
        by_contra named
        exact placed named first
      rw [if_neg (by simpa using first), List.nil_append, skipSpaces_paramText,
        parseLineNo_paramText, unnamed, first]
      rfl
    · rw [if_pos first, List.append_assoc]
      exact place { code := code } rfl text

theorem parse_negative (some_code : code ≠ 0) (small : code ≤ 32767)
    (text_quote : '"' ∉ code2String strerror code) (neg : location.line < 0) (text : List Char) :
    (ParsedError.parse strerror (messageHead strerror code location ++ text)).line = 0 := by
  by_cases compile : code = ErrorCode.CompileError.value
  · subst compile
    rw [messageHead_compileError, List.append_assoc, List.append_assoc,
      parse_compileError (placeText_ne_nil _ _)]
    exact parseLineNo_negative _ neg text
  · have other : location.line ≠ 0 := by omega
    rw [messageHead_append compile some_code, parse_code small text_quote, if_pos other,
      List.append_assoc]
    exact parseLineNo_negative _ neg text

end Parsing

/-! Errors that survive. -/

/-- The texts of the system have no quotes. -/
def PlainTexts (strerror : Nat → List Char) : Prop :=
  ∀ n, '"' ∉ strerror n ∧ '\x00' ∉ strerror n

/-- An error that fits into the buffers, with a code that is not `Ok`, and on a line from 1 on if
    it has the name of a file, which is without quotes. -/
structure InLimits (strerror : Nat → List Char) (code : Nat) (param : ErrorParam)
    (location : Location) : Prop where
  some_code : code ≠ ErrorCode.Ok.value
  small : code ≤ 32767
  head : (messageHead strerror code location).length ≤ 255
  view : ∀ text, param = .string_view text → text.length ≤ 511
  placed : location.filename ≠ [] → 1 ≤ location.line
  no_quote : '"' ∉ location.filename

/-- The parameter is found, the copies and their copies are the same error, and so is the one that
    is parsed. -/
structure Survives (strerror : Nat → List Char) (param : ErrorParam) (e : ErrorObject) : Prop where
  arg : e.arg.getD [] = param.text
  copies : ∀ n, ((copy strerror)^[n] e).what = e.what ∧ ((copy strerror)^[n] e).code = e.code ∧
    ((copy strerror)^[n] e).arg = e.arg ∧ ((copy strerror)^[n] e).location = e.location
  parsed : (parseError strerror e.what).code = e.code ∧
    (parseError strerror e.what).arg.getD [] = e.arg.getD [] ∧
    (parseError strerror e.what).location.line = e.location.line ∧
    (parseError strerror e.what).location.filename = e.location.filename

section Survival

variable {strerror : Nat → List Char} {code : Nat} {param : ErrorParam} {location : Location}

theorem code2String_plain (texts : PlainTexts strerror) (code : Nat) :
    '"' ∉ code2String strerror code ∧ '\x00' ∉ code2String strerror code := by
  unfold code2String
  split
  · exact texts code
  · split
    · exact ⟨(ErrorCode.plainText _).no_quote, (ErrorCode.plainText _).no_null⟩
    · decide

theorem chars_getD (view : ∀ text, param = .string_view text → text.length ≤ 511) :
    param.chars.getD [] = cstr param.text := by
  cases param with
  | absent => rfl
  | string text => rfl
  | string_view text =>
    show cstr (text.take 511) = cstr text
    rw [List.take_of_length_le (view text rfl)]
  | pointer text => cases text <;> rfl

theorem new_what (texts : PlainTexts strerror) (limits : InLimits strerror code param location) :
    (new strerror code param location).what =
      messageHead strerror code location ++ paramText (cstr param.text) := by
  have chars := chars_getD limits.view
  rw [← chars]
  refine map2string_eq limits.some_code (code2String_plain texts code).2 limits.head ?_
  rw [chars]
  exact null_not_mem_cstr _

theorem null_not_mem_message (texts : PlainTexts strerror)
    (limits : InLimits strerror code param location) :
    '\x00' ∉ messageHead strerror code location ++ paramText (cstr param.text) := by
  have head : '\x00' ∉ messageHead strerror code location :=
    null_not_mem_messageHead limits.some_code (code2String_plain texts code).2
  have tail : '\x00' ∉ paramText (cstr param.text) := by
    have plain := null_not_mem_cstr param.text
    cases text : cstr param.text with
    | nil => simp [paramText]
    | cons ch rest =>
      rw [text] at plain
      simpa [paramText] using plain
  simp [head, tail]

theorem parseError_line (errstr : List Char) :
    (parseError strerror errstr).location.line = (ParsedError.parse strerror errstr).line := by
  unfold parseError
  simp only
  split <;> rfl

theorem ofFile_self (nonneg : 0 ≤ location.line) :
    Location.ofFile location.filename location.line.toNat = location := by
  have fits := location.fits
  refine Location.ext (Int.toNat_of_nonneg nonneg) ?_
  show cstr (location.filename.take 79) = location.filename
  rw [List.take_of_length_le (by omega)]
  exact cstr_plain location.terminated

section Kept

variable (texts : PlainTexts strerror) (limits : InLimits strerror code param location)
  (plain : '\x00' ∉ param.text)
  (apart : ¬ Separated ':' ' ' (messageHead strerror code location))
include texts limits plain

include apart in
theorem arg_new : (new strerror code param location).arg.getD [] = param.text := by
  rw [arg_eq, new_what texts limits, cstr_plain plain]
  exact behind_message limits.some_code apart _

include apart in
theorem copy_new : copy strerror (new strerror code param location) =
    new strerror code param location := by
  have found := arg_new texts limits plain apart
  have message : map2string strerror code (new strerror code param location).arg location =
      (new strerror code param location).what := by
    rw [map2string_eq limits.some_code (code2String_plain texts code).2 limits.head, found,
      new_what texts limits, cstr_plain plain]
    rw [found]
    exact plain
  exact congrArg (fun what => (⟨what, code, location⟩ : ErrorObject)) message

theorem parseError_new (nonneg : 0 ≤ location.line) :
    parseError strerror (new strerror code param location).what =
      new strerror code param location := by
  have placed : location.filename ≠ [] → location.line ≠ 0 := fun named => by
    have first := limits.placed named
    omega
  have message : map2string strerror code (some param.text) location =
      (new strerror code param location).what := by
    have plain' : '\x00' ∉ (some param.text).getD [] := plain
    rw [map2string_eq limits.some_code (code2String_plain texts code).2 limits.head plain',
      new_what texts limits, cstr_plain plain]
    rfl
  have again : new strerror code (.pointer (some param.text)) location =
      new strerror code param location := by
    have chars : (ErrorParam.pointer (some param.text)).chars = some param.text :=
      congrArg some (cstr_plain plain)
    show (⟨map2string strerror code _ location, code, location⟩ : ErrorObject) = _
    rw [chars, message]
    rfl
  have parsed := parse_message limits.some_code limits.small (code2String_plain texts code).1
    nonneg limits.no_quote placed (cstr param.text)
  rw [← new_what texts limits, cstr_plain plain] at parsed
  unfold parseError
  simp only [parsed]
  by_cases unnamed : location.filename = []
  · have same : Location.ofLine location.line.toNat = location :=
      Location.ext (Int.toNat_of_nonneg nonneg) unnamed.symm
    rw [if_neg (by simpa using unnamed), same, again]
  · rw [if_pos unnamed, ofFile_self nonneg, again]

end Kept

/-- An error survives copies and parsing if and only if its line is not negative, its parameter has
    no null character, and neither the text of its code nor the name of its file has a colon with a
    blank. -/
theorem survives_iff (texts : PlainTexts strerror)
    (limits : InLimits strerror code param location) :
    Survives strerror param (new strerror code param location) ↔
      0 ≤ location.line ∧ '\x00' ∉ param.text ∧
        ¬ Separated ':' ' ' (code2String strerror code) ∧
        ¬ Separated ':' ' ' location.filename := by
  have placed : location.filename ≠ [] → location.line ≠ 0 := fun named => by
    have first := limits.placed named
    omega
  have head : Separated ':' ' ' (messageHead strerror code location) ↔
      Separated ':' ' ' (code2String strerror code) ∨ Separated ':' ' ' location.filename :=
    colonBlank_messageHead limits.some_code placed
  constructor
  · intro survives
    have arg := survives.arg
    rw [arg_eq, new_what texts limits] at arg
    have plain : '\x00' ∉ param.text := by
      rw [← arg]
      intro mem
      cases found : behind ':' ' ' (messageHead strerror code location ++
          paramText (cstr param.text)) with
      | none => simp [found] at mem
      | some rest =>
        rw [found] at mem
        exact null_not_mem_message texts limits ((behind_suffix found).subset mem)
    have apart : ¬ Separated ':' ' ' (messageHead strerror code location) := by
      intro separated
      have longer := behind_message_longer limits.some_code separated (cstr param.text)
      rw [arg, cstr_plain plain] at longer
      omega
    have nonneg : 0 ≤ location.line := by
      by_contra neg
      have line := survives.parsed.2.2.1
      rw [parseError_line, new_what texts limits, parse_negative limits.some_code limits.small
        (code2String_plain texts code).1 (by omega)] at line
      have same : (0 : Int) = location.line := line
      omega
    rw [head] at apart
    exact ⟨nonneg, plain, fun code_sep => apart (Or.inl code_sep),
      fun file_sep => apart (Or.inr file_sep)⟩
  · rintro ⟨nonneg, plain, code_apart, file_apart⟩
    have apart : ¬ Separated ':' ' ' (messageHead strerror code location) := by
      rw [head]
      tauto
    have copied := copy_new texts limits plain apart
    refine ⟨arg_new texts limits plain apart, fun n => ?_, ?_⟩
    · rw [Function.iterate_fixed copied]
      exact ⟨rfl, rfl, rfl, rfl⟩
    · rw [parseError_new texts limits plain nonneg]
      exact ⟨rfl, rfl, rfl, rfl⟩

end Survival

theorem separated_text_iff (code : ErrorCode) :
    Separated ':' ' ' code.text.toList ↔ code = .ScopeHierarchyError := by
  constructor
  · intro separated
    by_contra other
    exact not_separated_of_not_mem (fun colon => other (code.plainText.colon colon)) separated
  · rintro rfl
    decide +kernel

theorem messageHead_fits (strerror : Nat → List Char) (code : ErrorCode) {location : Location}
    (range : -2 ^ 31 ≤ location.line ∧ location.line < 2 ^ 31) :
    (messageHead strerror code.value location).length ≤ 255 := by
  have text := code.plainText.short
  have value : code.value < 1000 := by cases code <;> decide
  have line : (toString location.line).toList.length ≤ 11 := by
    rcases lt_or_ge location.line 0 with neg | nonneg
    · have digits := (Nat.length_toDigits_le_iff (n := (-location.line).toNat) (k := 10) (b := 10)
        (by omega) (by omega)).mpr (by omega)
      rw [digits_of_neg neg, List.length_cons]
      omega
    · have digits := (Nat.length_toDigits_le_iff (n := location.line.toNat) (k := 10) (b := 10)
        (by omega) (by omega)).mpr (by omega)
      rw [digits_of_nonneg nonneg]
      omega
  have place : (placeText location).length ≤ 101 := by
    have name := location.fits
    unfold placeText
    rw [List.length_append]
    split
    · show _ + 0 ≤ 101
      omega
    · simp only [List.length_append, List.length_cons, List.length_nil]
      show _ + (9 + _) ≤ 101
      omega
  by_cases compile : code = .CompileError
  · subst compile
    rw [messageHead_compileError, List.length_append, List.length_append]
    show 5 + (9 + _) ≤ 255
    omega
  by_cases ok : code = .Ok
  · subst ok
    exact Nat.zero_le _
  · have digits := (Nat.length_toDigits_le_iff (n := code.value) (k := 3) (b := 10)
      (by omega) (by omega)).mpr value
    have other : code.value ≠ ErrorCode.CompileError.value :=
      fun same => compile (ErrorCode.value_injective same)
    have some_code : code.value ≠ 0 := fun same =>
      ok (ErrorCode.value_injective (same : code.value = ErrorCode.Ok.value))
    rw [messageHead_other other some_code, code2String_value]
    simp only [List.length_append, List.length_cons, List.length_nil]
    split
    · rw [List.length_append]
      show _ + (_ + (9 + _) + 1 + 1) ≤ 255
      omega
    · rw [List.length_nil]
      omega

def unknownErrors (_ : Nat) : List Char := "Unknown error".toList

theorem plainTexts_unknownErrors : PlainTexts unknownErrors := by
  have text : '"' ∉ "Unknown error".toList ∧ '\x00' ∉ "Unknown error".toList := by decide
  exact fun _ => text

theorem survives_version : Survives unknownErrors (.string "13.45".toList)
    (new unknownErrors ErrorCode.BadMewaVersion.value (.string "13.45".toList)
      (.ofFile "main.lua".toList 345)) := by
  refine (survives_iff plainTexts_unknownErrors ⟨by decide, by decide, by decide +kernel, by simp,
    by decide, by decide⟩).mpr ?_
  decide +kernel

/-- What is found in the message as parameter starts inside of the text of the code. -/
theorem scopeHierarchyError_lost : ¬ ∀ (strerror : Nat → List Char) (code : Nat)
    (param : ErrorParam) (location : Location), PlainTexts strerror →
    InLimits strerror code param location →
      Survives strerror param (new strerror code param location) := by
  intro all
  have survives := all unknownErrors ErrorCode.ScopeHierarchyError.value .absent {}
    plainTexts_unknownErrors ⟨by decide, by decide, by decide +kernel, by simp, by decide, by decide⟩
  exact absurd survives.arg (by decide +kernel)

end ErrorObject

end Mewa
