/- Module: Mewa/Errors/Message
   digest: Errors as messages: how they are built, copied and parsed. -/

import Mewa.Errors.Codes
import Mewa.Lexer.Scanner
import Mewa.Lib.Separated

set_option autoImplicit false
set_option relaxedAutoImplicit false

namespace Mewa

open Mewa.Lib

/-! A character stands for a byte of the text. -/

/-- A place in a source file. The buffer of the name has room for 80 characters, the null character
    at its end included. -/
@[ext] structure Location where
  line : Int := 0
  filename : List Char := []
  fits : filename.length < 80 := by decide
  terminated : '\x00' ∉ filename := by decide
  deriving DecidableEq

namespace Location

/-- The name is cut where it does not fit. -/
def ofFile (filename : List Char) (line : Int) : Location where
  line := line
  filename := cstr (filename.take 79)
  fits := by
    have cut : (cstr (filename.take 79)).length ≤ (filename.take 79).length :=
      (List.takeWhile_prefix _).length_le
    have taken := List.length_take_le 79 filename
    omega
  terminated := null_not_mem_cstr _

def ofLine (line : Int) : Location := { line := line }

end Location

/-- The parameter of the constructors of an error. -/
inductive ErrorParam
  | absent
  | string (param : List Char)
  | string_view (param : List Char)
  | pointer (param : Option (List Char))
  deriving DecidableEq

namespace ErrorParam

def text : ErrorParam → List Char
  | absent => []
  | string param => param
  | string_view param => param
  | pointer none => []
  | pointer (some param) => param

/-- The parameter as it is given on, as a text with a null character at its end or none. -/
def chars : ErrorParam → Option (List Char)
  | absent => some []
  | string param => some (cstr param)
  | string_view param => some (cstr (param.take 511))
  | pointer param => param.map cstr

end ErrorParam

structure ErrorObject where
  what : List Char
  code : Nat
  location : Location
  deriving DecidableEq

section Objects

variable (strerror : Nat → List Char)

namespace ErrorObject

/-- The line, and the file if it has a name. -/
def placeText (location : Location) : List Char :=
  (toString location.line).toList ++
    if location.filename = [] then []
    else " in file ".toList ++ '"' :: (location.filename ++ ['"'])

/-- The message without the parameter. -/
def messageHead (code : Nat) (location : Location) : List Char :=
  if code = ErrorCode.CompileError.value then "Error at line ".toList ++ placeText location
  else if code = ErrorCode.Ok.value then []
  else
    '#' :: (toString code).toList ++ ' ' :: '"' :: (code2String strerror code ++ '"' ::
      if location.line ≠ 0 then " at line ".toList ++ placeText location else [])

/-- The message buffer has room for 256 characters, the null character at the end included. -/
def map2string (code : Nat) (param : Option (List Char)) (location : Location) : List Char :=
  let rt := cstr ((messageHead strerror code location).take 255)
  match param with
  | some (ch :: param) => rt ++ ':' :: ' ' :: cstr (ch :: param)
  | _ => rt

def new (code : Nat) (param : ErrorParam) (location : Location) : ErrorObject :=
  ⟨map2string strerror code param.chars location, code, location⟩

/-- What is behind the first colon with a blank, if there is one. -/
def arg (e : ErrorObject) : Option (List Char) :=
  (strstr ": ".toList e.what).map fun i => e.what.drop (i + 2)

/-- The copy of an error, whose message is made from the parameter that is found in it. -/
def copy (e : ErrorObject) : ErrorObject :=
  ⟨map2string strerror e.code e.arg e.location, e.code, e.location⟩

/-! The parser of messages, with a function for each of its states. -/

/-- The number at the begin of a text, and what is behind it. -/
def parseInteger (si : List Char) : Nat × List Char :=
  let digits := si.takeWhile fun ch => '0' ≤ ch ∧ ch ≤ '9'
  (digits.foldl (fun rt ch => rt * 10 + (ch.toNat - '0'.toNat)) 0, si.drop digits.length)

/-- The text up to the closing quote, which is the same as the opening one. -/
def parseString : List Char → List Char × List Char
  | [] => ([], [])
  | eb :: si => (si.takeWhile (· ≠ eb), (si.dropWhile (· ≠ eb)).drop 1)

def skipSpaces (si : List Char) : List Char := si.dropWhile fun ch => ch.toNat ≤ 32

def skipUntil (si : List Char) (eb : Char) : List Char := si.dropWhile (· ≠ eb)

end ErrorObject

structure ParsedError where
  code : Nat := ErrorCode.Ok.value
  line : Nat := 0
  filename : List Char := []
  param : Option (List Char) := none
  deriving DecidableEq

namespace ParsedError

open ErrorObject

def runtimeException (errstr : List Char) : ParsedError :=
  { code := ErrorCode.RuntimeException.value, param := some errstr }

def parseArgument (e : ParsedError) : List Char → ParsedError
  | ':' :: ' ' :: param => { e with param := some param }
  | [] => { e with param := some [] }
  | _ => e

def parseFileName (e : ParsedError) (ei : List Char) : ParsedError :=
  if 8 < ei.length ∧ "in file ".toList <+: ei then
    match ei.drop 8 with
    | eb :: rest =>
      if eb = '"' ∨ eb = '\'' then
        let (filename, rest) := parseString (eb :: rest)
        { e with filename := filename }.parseArgument rest
      else e.parseArgument (eb :: rest)
    | [] => e.parseArgument []
  else e.parseArgument ei

def parseBehindLineNo (e : ParsedError) : List Char → ParsedError
  | ' ' :: ei => e.parseFileName ei
  | ei => e.parseArgument ei

def parseLineNo (e : ParsedError) (ei : List Char) : ParsedError :=
  if 8 < ei.length ∧ "at line ".toList <+: ei then
    let (line, ei) := parseInteger (ei.drop 8)
    { e with line := line }.parseBehindLineNo ei
  else e.parseArgument ei

/-- The text of the code may have quotes, so all quotes up to the one where it ends are passed. -/
def parseEndOfMessage (e : ParsedError) (errstr msgstart ei : List Char) : ParsedError :=
  match _h : skipUntil ei '"' with
  | [] => runtimeException errstr
  | quote :: rest =>
    if msgstart.take (msgstart.length - (quote :: rest).length) <+: code2String strerror e.code then
      e.parseLineNo (skipSpaces rest)
    else parseEndOfMessage e errstr msgstart rest
termination_by ei.length
decreasing_by
  have shorter : (skipUntil ei '"').length ≤ ei.length := (List.dropWhile_suffix _).length_le
  rw [_h, List.length_cons] at shorter
  omega

def parseMessage (e : ParsedError) (errstr ei : List Char) : ParsedError :=
  match ei with
  | '"' :: msgstart => parseEndOfMessage strerror e errstr msgstart msgstart
  | _ => runtimeException errstr

def parse (errstr : List Char) : ParsedError :=
  match errstr with
  | [] => {}
  | '#' :: ei =>
    let (cd, ei) := parseInteger ei
    if 32767 < cd then runtimeException errstr
    else parseMessage strerror { code := cd } errstr (skipSpaces ei)
  | _ =>
    if 14 < errstr.length ∧ "Error at line ".toList <+: errstr then
      parseLineNo { code := ErrorCode.CompileError.value } (errstr.drop 6)
    else (runtimeException errstr).parseLineNo errstr

end ParsedError

def ErrorObject.parseError (errstr : List Char) : ErrorObject :=
  let e := ParsedError.parse strerror errstr
  if e.filename ≠ [] then .new strerror e.code (.pointer e.param) (.ofFile e.filename e.line)
  else .new strerror e.code (.pointer e.param) (.ofLine e.line)

end Objects

end Mewa
