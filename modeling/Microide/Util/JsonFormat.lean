/-
`FormatJson`.

The structural reformatter: one walk over the bytes that copies every token as it is spelled,
lays out arrays and objects anew and sorts the members of an object by their spelled keys. It
builds no value. A part of the walk answers what it wrote and the bytes after it, or the first
problem, by the number of bytes left where it stands.
-/

import Microide.Util.JsonParse
import Microide.Util.NaturalOrder

namespace Microide.Util

open Lib.Json

/-- A problem: the bytes left where it stands, and its message. -/
abbrev FormatProblem := Nat × String

/-- A part of the formatter. -/
abbrev FormatReader (α : Type) := Bytes → Except FormatProblem (α × Bytes)

def kMaxDepth : Nat := 200

structure JsonFormatResult where
  ok : Bool := false
  text : Bytes := []
  errorOffset : Nat := 0
  error : String := ""
deriving DecidableEq

/-- `WriteIndent`. -/
def writeIndent (unit : Bytes) (level : Nat) : Bytes := (List.replicate level unit).flatten

/-! ### Tokens -/

/-- What was written before what is copied next. -/
def written (out : Bytes) : Except FormatProblem (Bytes × Bytes) → Except FormatProblem (Bytes × Bytes)
  | .ok (more, rest) => .ok (out ++ more, rest)
  | .error problem => .error problem

/-- The hex digits of `\u`, copied one by one. -/
def copyHex : Nat → FormatReader Bytes
  | 0, src => .ok ([], src)
  | _ + 1, [] => .error (0, "truncated \\u escape")
  | more + 1, h :: rest =>
    match hexDigitValue h with
    | none => .error ((h :: rest).length, "invalid \\u escape")
    | some _ => written [h] (copyHex more rest)

/-- `CopyString` after the opening quote, which stands where `start` bytes were left; in
`steps` rounds at most. -/
def copyChars (start : Nat) : Nat → FormatReader Bytes
  | 0, _ => .error (start, "unterminated string")
  | _ + 1, [] => .error (start, "unterminated string")
  | steps + 1, c :: rest =>
    if c < 0x20 then .error ((c :: rest).length, "raw control character in string")
    else if c = quote then .ok ([quote], rest)
    else if c ≠ backslash then written [c] (copyChars start steps rest)
    else
      match rest with
      | [] => .error (start, "unterminated escape")
      | esc :: rest =>
        if esc = 0x75 then
          if rest.length < 4 then .error (rest.length, "truncated \\u escape")
          else
            match copyHex 4 rest with
            | .error problem => .error problem
            | .ok (digits, rest) =>
              written (backslash :: esc :: digits) (copyChars start steps rest)
        else if (escapedByte esc).isSome then
          written [backslash, esc] (copyChars start steps rest)
        else .error (rest.length + 1, "invalid escape")

/-- `CopyString`, at the opening quote. -/
def copyString : FormatReader Bytes
  | [] => .error (0, "unterminated string")
  | c :: rest => written [c] (copyChars (rest.length + 1) (rest.length + 1) rest)

/-- `CopyNumber`. -/
def copyNumber : FormatReader Bytes := fun src =>
  match takeWhole (takeMinus src).2 with
  | none => .error (src.length, "invalid number")
  | some (_, afterWhole) =>
    match takeFraction afterWhole with
    | none => .error (afterWhole.length - 1, "invalid number")
    | some (_, afterFraction) =>
      match takeExponent afterFraction with
      | none => .error ((takeSign afterFraction.tail).2.length, "invalid number")
      | some (_, rest) => .ok (src.take (src.length - rest.length), rest)

/-- `CopyLiteral`. -/
def copyLiteral (token : Bytes) : FormatReader Bytes := fun src =>
  if src.take token.length = token then .ok (token, src.drop token.length)
  else .error (src.length, "invalid literal")

/-! ### Arrays and objects -/

/-- A member: the spelled key between the quotes, by which it is sorted, and its text. -/
structure FormatMember where
  key : Bytes
  text : Bytes

/-- `"key": value`. -/
def copyMember (value : FormatReader Bytes) : FormatReader FormatMember := fun src =>
  match skipWhitespace src with
  | [] => .error (0, "expected object key")
  | c :: afterBlank =>
    if c ≠ quote then .error ((c :: afterBlank).length, "expected object key")
    else do
      let (key, src) ← copyString (c :: afterBlank)
      match skipWhitespace src with
      | [] => .error (0, "expected ':' after key")
      | c :: rest =>
        if c ≠ colon then .error ((c :: rest).length, "expected ':' after key")
        else do
          let (text, src) ← value rest
          pure (⟨(key.drop 1).dropLast, key ++ colon :: 0x20 :: text⟩, src)

/-- The loop of `Array` and of `Object`, from an entry on. -/
def copyEntries {α : Type} (entry : FormatReader α) (close : UInt8) (message : String) :
    Nat → FormatReader (List α)
  | 0, _ => .error (0, message)
  | steps + 1, src => do
    let (first, src) ← entry src
    match skipWhitespace src with
    | [] => .error (0, message)
    | c :: rest =>
      if c = comma then do
        let (more, src) ← copyEntries entry close message steps rest
        pure (first :: more, src)
      else if c = close then pure ([first], rest)
      else .error ((c :: rest).length, message)

def copyBracketed {α : Type} (entry : FormatReader α) (close : UInt8) (message : String) :
    FormatReader (List α) := fun src =>
  match skipWhitespace src with
  | [] => copyEntries entry close message 1 []
  | c :: rest =>
    if c = close then .ok ([], rest)
    else copyEntries entry close message (c :: rest).length (c :: rest)

/-- The entries between brackets, a line each. -/
def laidOut (unit : Bytes) (level : Nat) (opening closing : UInt8) : List Bytes → Bytes
  | [] => [opening, closing]
  | first :: more =>
    opening :: 0x0A :: (writeIndent unit (level + 1) ++ (first ++
      (more.flatMap (fun text => comma :: 0x0A :: (writeIndent unit (level + 1) ++ text)) ++
        (0x0A :: (writeIndent unit level ++ [closing])))))

/-- The stable sort of the members. -/
def sortedMembers (members : List FormatMember) : List FormatMember :=
  members.insertionSort fun a b => ¬ naturalCompareIgnoreCase b.key a.key < 0

section Format

variable (unit : Bytes)

/-- `Object` after the opening brace. -/
def formatObject (value : FormatReader Bytes) (level : Nat) : FormatReader Bytes := fun src => do
  let (members, src) ← copyBracketed (copyMember value) 0x7D "expected ',' or '\x7d'" src
  pure (laidOut unit level 0x7B 0x7D ((sortedMembers members).map (·.text)), src)

/-- `Array` after the opening bracket. -/
def formatArray (value : FormatReader Bytes) (level : Nat) : FormatReader Bytes := fun src => do
  let (items, src) ← copyBracketed value 0x5D "expected ',' or ']'" src
  pure (laidOut unit level 0x5B 0x5D items, src)

/-- `Value` at a level of the layout, with `levels` levels left. -/
def formatValue : Nat → Nat → FormatReader Bytes
  | levels, level, src =>
    match skipWhitespace src with
    | [] => .error (0, "unexpected end of input")
    | c :: rest =>
      if c = quote then copyString (c :: rest)
      else if c = 0x7B then
        match levels with
        | 0 => .error ((c :: rest).length, "nesting too deep")
        | deeper + 1 => formatObject unit (formatValue deeper (level + 1)) level rest
      else if c = 0x5B then
        match levels with
        | 0 => .error ((c :: rest).length, "nesting too deep")
        | deeper + 1 => formatArray unit (formatValue deeper (level + 1)) level rest
      else if c = 0x74 then copyLiteral (booleanText true) (c :: rest)
      else if c = 0x66 then copyLiteral (booleanText false) (c :: rest)
      else if c = 0x6E then copyLiteral nullText (c :: rest)
      else if c = 0x2D ∨ (0x30 ≤ c ∧ c ≤ 0x39) then copyNumber (c :: rest)
      else .error ((c :: rest).length, "unexpected character")

/-- `FormatJson`. -/
def formatJson (src : Bytes) : JsonFormatResult :=
  match formatValue unit kMaxDepth 0 src with
  | .error (left, message) => { errorOffset := src.length - left, error := message }
  | .ok (out, rest) =>
    match skipWhitespace rest with
    | [] => { ok := true, text := out }
    | c :: rest =>
      { errorOffset := src.length - (c :: rest).length,
        error := "trailing characters after JSON value" }

end Format

end Microide.Util
