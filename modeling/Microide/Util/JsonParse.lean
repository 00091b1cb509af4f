/-
`ParseJson`.

The recursive-descent parser over the bytes not yet read. A reader answers what it read and
the bytes after it, or refuses; `DepthGuard` is the number of levels still allowed, and the
loops of arrays and objects run over the bytes left. The members of an object are sorted at
its closing brace, by the length and then the bytes of their keys, and of equal keys the last
is kept.
-/

import Microide.Lib.LastWins
import Microide.Util.JsonNumber

namespace Microide.Util

open Lib.Json Lib

/-- A part of the parser. -/
abbrev JsonReader (α : Type) := Bytes → Option (α × Bytes)

def kMaxParseDepth : Nat := 200

/-- `SkipWhitespace`. -/
def skipWhitespace : Bytes → Bytes
  | [] => []
  | b :: rest => if isBlank b then skipWhitespace rest else b :: rest

/-- `ParseLiteral`. -/
def parseLiteral {α : Type} (token : Bytes) (value : α) : JsonReader α := fun src =>
  if src.take token.length = token then some (value, src.drop token.length) else none

/-! ### Numbers -/

def digit? (b : UInt8) : Option (Fin 10) :=
  if 0x30 ≤ b ∧ b ≤ 0x39 then some (Fin.ofNat 10 (b.toNat - 0x30)) else none

/-- The digits at the front. -/
def takeDigits : Bytes → List (Fin 10) × Bytes
  | [] => ([], [])
  | b :: rest =>
    match digit? b with
    | some d => (d :: (takeDigits rest).1, (takeDigits rest).2)
    | none => ([], b :: rest)

/-- One digit at least. -/
def takeDigits₁ : JsonReader Digits
  | [] => none
  | b :: rest => (digit? b).map fun d => (⟨d, (takeDigits rest).1⟩, (takeDigits rest).2)

def takeMinus : Bytes → Bool × Bytes
  | [] => (false, [])
  | b :: rest => if b = 0x2D then (true, rest) else (false, b :: rest)

/-- The integer part: a leading zero stands alone. -/
def takeWhole : JsonReader Whole
  | [] => none
  | b :: rest => do
    let d ← digit? b
    if h : d = 0 then pure (.zero, rest)
    else pure (.nonzero d h (takeDigits rest).1, (takeDigits rest).2)

def takeFraction : JsonReader (Option Digits)
  | [] => some (none, [])
  | b :: rest =>
    if b = 0x2E then (takeDigits₁ rest).map fun (ds, rest) => (some ds, rest)
    else some (none, b :: rest)

def takeSign : Bytes → Option Sign × Bytes
  | [] => (none, [])
  | b :: rest =>
    if b = 0x2B then (some .plus, rest)
    else if b = 0x2D then (some .minus, rest)
    else (none, b :: rest)

def takeExponent : JsonReader (Option Exponent)
  | [] => some (none, [])
  | b :: rest =>
    if b = 0x65 ∨ b = 0x45 then
      (takeDigits₁ (takeSign rest).2).map fun (ds, rest') =>
        (some ⟨b = 0x45, (takeSign rest).1, ds⟩, rest')
    else some (none, b :: rest)

/-- The token of a number, by its parts. -/
def takeNumber : JsonReader Number := fun src => do
  let (minus, src) := takeMinus src
  let (whole, src) ← takeWhole src
  let (fraction, src) ← takeFraction src
  let (exponent, src) ← takeExponent src
  pure (⟨minus, whole, fraction, exponent⟩, src)

/-- `ParseNumber`. -/
def parseNumber : JsonReader JsonValue := fun src => do
  let (tok, src) ← takeNumber src
  let value ← numberValue tok
  pure (value, src)

/-! ### Strings -/

def hexDigitValue (b : UInt8) : Option Nat :=
  if 0x30 ≤ b ∧ b ≤ 0x39 then some (b.toNat - 0x30)
  else if 0x61 ≤ b ∧ b ≤ 0x66 then some (b.toNat - 0x61 + 10)
  else if 0x41 ≤ b ∧ b ≤ 0x46 then some (b.toNat - 0x41 + 10)
  else none

/-- Four hex digits. -/
def hexQuad (b₁ b₂ b₃ b₄ : UInt8) : Option Nat := do
  let d₁ ← hexDigitValue b₁
  let d₂ ← hexDigitValue b₂
  let d₃ ← hexDigitValue b₃
  let d₄ ← hexDigitValue b₄
  pure (((d₁ * 16 + d₂) * 16 + d₃) * 16 + d₄)

def isHighSurrogate (cp : Nat) : Bool := 0xD800 ≤ cp && cp ≤ 0xDBFF

def isLowSurrogate (cp : Nat) : Bool := 0xDC00 ≤ cp && cp ≤ 0xDFFF

def kReplacement : Nat := 0xFFFD

/-- `AppendUtf8`: the bytes of a code point. -/
def utf8 (codepoint : Nat) : Bytes :=
  let cp := if 0x10FFFF < codepoint ∨ (0xD800 ≤ codepoint ∧ codepoint ≤ 0xDFFF) then kReplacement
    else codepoint
  if cp ≤ 0x7F then [UInt8.ofNat cp]
  else if cp ≤ 0x7FF then [UInt8.ofNat (0xC0 + cp / 64), UInt8.ofNat (0x80 + cp % 64)]
  else if cp ≤ 0xFFFF then
    [UInt8.ofNat (0xE0 + cp / 4096), UInt8.ofNat (0x80 + cp / 64 % 64),
      UInt8.ofNat (0x80 + cp % 64)]
  else
    [UInt8.ofNat (0xF0 + cp / 262144), UInt8.ofNat (0x80 + cp / 4096 % 64),
      UInt8.ofNat (0x80 + cp / 64 % 64), UInt8.ofNat (0x80 + cp % 64)]

/-- The low half of a pair whose escape comes next. -/
def pairedLow (b₁ b₂ h₁ h₂ h₃ h₄ : UInt8) : Option Nat :=
  if b₁ = backslash ∧ b₂ = 0x75 then (hexQuad h₁ h₂ h₃ h₄).filter isLowSurrogate else none

def combined (high low : Nat) : Nat := 0x10000 + (high - 0xD800) * 1024 + (low - 0xDC00)

/-- The byte an escape of one letter stands for. -/
def escapedByte (esc : UInt8) : Option UInt8 :=
  if esc = 0x22 then some 0x22
  else if esc = 0x5C then some 0x5C
  else if esc = 0x2F then some 0x2F
  else if esc = 0x62 then some 0x08
  else if esc = 0x66 then some 0x0C
  else if esc = 0x6E then some 0x0A
  else if esc = 0x72 then some 0x0D
  else if esc = 0x74 then some 0x09
  else none

/-- `result` before what is read next. -/
def appended (result : Bytes) (more : Option (Bytes × Bytes)) : Option (Bytes × Bytes) :=
  more.map fun (bytes, rest) => (result ++ bytes, rest)

/-- `ParseString` after the opening quote. -/
def parseChars : JsonReader Bytes
  | [] => none
  | c :: rest =>
    if c < 0x20 then none
    else if c = quote then some ([], rest)
    else if c ≠ backslash then appended [c] (parseChars rest)
    else
      match rest with
      | [] => none
      | esc :: rest =>
        if esc = 0x75 then
          match rest with
          | h₁ :: h₂ :: h₃ :: h₄ :: rest =>
            match hexQuad h₁ h₂ h₃ h₄ with
            | none => none
            | some cp =>
              if isHighSurrogate cp then
                match rest with
                | b₁ :: b₂ :: l₁ :: l₂ :: l₃ :: l₄ :: after =>
                  match pairedLow b₁ b₂ l₁ l₂ l₃ l₄ with
                  | some low => appended (utf8 (combined cp low)) (parseChars after)
                  -- the escape after a lone half is read on its own
                  | none =>
                    appended (utf8 kReplacement)
                      (parseChars (b₁ :: b₂ :: l₁ :: l₂ :: l₃ :: l₄ :: after))
                | rest => appended (utf8 kReplacement) (parseChars rest)
              else if isLowSurrogate cp then appended (utf8 kReplacement) (parseChars rest)
              else appended (utf8 cp) (parseChars rest)
          | _ => none
        else
          match escapedByte esc with
          | some byte => appended [byte] (parseChars rest)
          | none => none

/-- `ParseString`. -/
def parseString : JsonReader Bytes
  | [] => none
  | c :: rest => if c = quote then parseChars rest else none

/-! ### Arrays and objects -/

/-- What `JsonKeyOrderLess` orders keys by: the length, then the bytes. -/
def jsonKeyRank (key : Bytes) : ℕ ×ₗ List ℕ := toLex (key.length, key.map UInt8.toNat)

/-- `SortAfterParse`: a stable sort, and of each run of equal keys the last. -/
def sortAfterParse (entries : List (Bytes × JsonValue)) : List (Bytes × JsonValue) :=
  lastOfRuns (jsonKeyRank ·.1) (sortBy (jsonKeyRank ·.1) entries)

/-- The loop of `ParseArray` and of `ParseObject`, from an entry on: entries with a comma
between two, up to the closing bracket. -/
def parseEntries {α : Type} (entry : JsonReader α) (close : UInt8) : Nat → JsonReader (List α)
  | 0, _ => none
  | steps + 1, src => do
    let (first, src) ← entry src
    match skipWhitespace src with
    | [] => none
    | c :: rest =>
      if c = close then some ([first], rest)
      else if c = comma then
        (parseEntries entry close steps rest).map fun (more, rest) => (first :: more, rest)
      else none

/-- What an opening bracket begins. -/
def parseBracketed {α : Type} (entry : JsonReader α) (close : UInt8) : JsonReader (List α) :=
  fun src =>
    match skipWhitespace src with
    | [] => none
    | c :: rest =>
      if c = close then some ([], rest)
      else parseEntries entry close (c :: rest).length (c :: rest)

/-- A member of an object: its key, a colon and its value. -/
def parseMember (value : JsonReader JsonValue) : JsonReader (Bytes × JsonValue) := fun src => do
  let (key, src) ← parseString (skipWhitespace src)
  match skipWhitespace src with
  | [] => none
  | c :: rest =>
    if c = colon then (value rest).map fun (v, rest) => ((key, v), rest) else none

/-- `ParseArray`, with `value` for what stands one level deeper. -/
def parseArray (value : JsonReader JsonValue) : JsonReader JsonValue := fun src =>
  (parseBracketed value 0x5D src).map fun (items, rest) => (.array items, rest)

/-- `ParseObject`. -/
def parseObject (value : JsonReader JsonValue) : JsonReader JsonValue := fun src =>
  (parseBracketed (parseMember value) 0x7D src).map fun (members, rest) =>
    (.object (sortAfterParse members), rest)

/-- `ParseValue` with `levels` levels left. -/
def parseValue : Nat → JsonReader JsonValue
  | levels, src =>
    match skipWhitespace src with
    | [] => none
    | c :: rest =>
      if c = quote then (parseString (c :: rest)).map fun (bytes, rest) => (.string bytes, rest)
      else if c = 0x7B then
        match levels with
        | 0 => none
        | deeper + 1 => parseObject (parseValue deeper) rest
      else if c = 0x5B then
        match levels with
        | 0 => none
        | deeper + 1 => parseArray (parseValue deeper) rest
      else if c = 0x74 then parseLiteral (booleanText true) (.bool true) (c :: rest)
      else if c = 0x66 then parseLiteral (booleanText false) (.bool false) (c :: rest)
      else if c = 0x6E then parseLiteral nullText .null (c :: rest)
      else if c = 0x2D ∨ (0x30 ≤ c ∧ c ≤ 0x39) then parseNumber (c :: rest)
      else none

/-- `ParseJson`. -/
def parseJson (text : Bytes) : Option JsonValue :=
  match parseValue kMaxParseDepth text with
  | none => none
  | some (value, rest) => if skipWhitespace rest = [] then some value else none

end Microide.Util
