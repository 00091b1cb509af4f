/-
JSON values.

A value is one of JSON's seven forms as the program holds them (a whole number apart from a
double, which is kept as its 64 bits); an object keeps each key once. Looking up what is not
there, or in what is no object, gives null, and reading a value as another form its default.
The text of a value and the clamping of a double are a parameter.
-/

namespace Microide.Util

inductive JsonValue where
  | null
  | bool (value : Bool)
  | int (value : Int)
  | double (bits : UInt64)
  | string (bytes : List UInt8)
  | array (items : List JsonValue)
  | object (entries : List (List UInt8 × JsonValue))

/-- `ParseJson`, `SerializeJson`, and the whole number a double is clamped to, where it is
one. -/
class JsonText where
  parseJson : List UInt8 → Option JsonValue
  serializeJson : JsonValue → List UInt8
  clampedInt : UInt64 → Option Int

namespace JsonValue

def ofText (text : String) : JsonValue := .string text.toUTF8.toList

def isObject : JsonValue → Bool
  | object _ => true
  | _ => false

/-- `operator[]`. -/
def field (value : JsonValue) (key : String) : JsonValue :=
  match value with
  | object entries => (entries.lookup key.toUTF8.toList).getD .null
  | _ => .null

def hasKey (value : JsonValue) (key : String) : Bool :=
  match value with
  | object entries => (entries.lookup key.toUTF8.toList).isSome
  | _ => false

/-- The bytes of a string. -/
def string? : JsonValue → Option (List UInt8)
  | string bytes => some bytes
  | _ => none

def asString (value : JsonValue) : List UInt8 := value.string?.getD []

def asInt [JsonText] (value : JsonValue) (fallback : Int) : Int :=
  match value with
  | int n => n
  | double bits => (JsonText.clampedInt bits).getD fallback
  | _ => fallback

/-- An object of the given members. -/
def ofMembers (members : List (String × JsonValue)) : JsonValue :=
  object (members.map fun (key, value) => (key.toUTF8.toList, value))

end JsonValue

end Microide.Util
