/-
The pen of a terminal.

Cells are written in the style that SGR sequences set. The bit that marks the second half of a
wide glyph is one of a style's attributes, but none that SGR can set: a pen is never one.

**Main results.** `Pen.applySgr`: an SGR sequence keeps the pen a pen; `sgrRun_tracksBold`: basic
colours follow bold.
-/

import Mathlib.Data.Nat.Bitwise
import Microide.Terminal.TerminalCell

namespace Microide.Terminal

/-! ### Attributes -/

namespace CellAttr

/-! `cell_attr::Bit`. -/

def kBold : UInt16 := 0x001
def kDim : UInt16 := 0x002
def kItalic : UInt16 := 0x004
def kUnderline : UInt16 := 0x008
def kDoubleUnderline : UInt16 := 0x010
def kBlink : UInt16 := 0x020
def kInverse : UInt16 := 0x040
def kHidden : UInt16 := 0x080
def kStrikethrough : UInt16 := 0x100
def kWideTrailing : UInt16 := 0x200
def kFgBasic : UInt16 := 0x400

end CellAttr

open CellAttr TerminalStyle

namespace TerminalStyle

def has (style : TerminalStyle) (bit : UInt16) : Bool := style.attrs &&& bit != 0

def set (style : TerminalStyle) (bit : UInt16) (on : Bool) : TerminalStyle :=
  { style with attrs := if on then style.attrs ||| bit else style.attrs &&& ~~~bit }

/-- The cell is the second half of a wide glyph. -/
def wideTrailing (style : TerminalStyle) : Bool := style.has kWideTrailing

def kFgBasicIndexShift : UInt16 := 11

def kFgBasicIndexMask : UInt16 := 0x7 <<< kFgBasicIndexShift

def basicForegroundIndex (style : TerminalStyle) : Nat :=
  ((style.attrs &&& kFgBasicIndexMask) >>> kFgBasicIndexShift).toNat

def setBasicForeground (style : TerminalStyle) (index : Nat) : TerminalStyle :=
  TerminalStyle.set
    { style with
      attrs := (style.attrs &&& ~~~kFgBasicIndexMask) |||
        ((UInt16.ofNat index &&& 7) <<< kFgBasicIndexShift) }
    kFgBasic true

def clearBasicForeground (style : TerminalStyle) : TerminalStyle := style.set kFgBasic false

section

variable {style : TerminalStyle} {bit mask : UInt16} {on : Bool}

theorem masked_or (a b : UInt16) : (a ||| b) &&& mask = a &&& mask ||| b &&& mask := by
  rw [← UInt16.toBitVec_inj]
  refine BitVec.eq_of_getLsbD_eq fun i inside => ?_
  simp
  grind

theorem not_masked (apart : bit &&& mask = 0) : ~~~bit &&& mask = mask := by
  rw [← UInt16.toBitVec_inj] at apart ⊢
  refine BitVec.eq_of_getLsbD_eq fun i inside => ?_
  have bits := congrArg (·.getLsbD i) apart
  simp at bits ⊢
  grind

theorem masked_set (apart : bit &&& mask = 0) :
    (style.set bit on).attrs &&& mask = style.attrs &&& mask := by
  unfold TerminalStyle.set
  cases on
  · simp [UInt16.and_assoc, not_masked apart]
  · simp [masked_or, apart]

theorem has_set (apart : bit &&& mask = 0) : (style.set bit on).has mask = style.has mask := by
  rw [has, masked_set apart, has]

theorem has_set_self (one : bit ≠ 0) : (style.set bit on).has bit = on := by
  have absorbed : (style.attrs ||| bit) &&& bit = bit := by
    rw [← UInt16.toBitVec_inj]
    refine BitVec.eq_of_getLsbD_eq fun i inside => ?_
    simp
    grind
  unfold has TerminalStyle.set
  cases on <;> simp [UInt16.and_assoc, absorbed, one]

theorem index_set (apart : bit &&& kFgBasicIndexMask = 0) :
    (style.set bit on).basicForegroundIndex = style.basicForegroundIndex := by
  rw [basicForegroundIndex, masked_set apart, basicForegroundIndex]

/-- The index has its own bits. -/
theorem has_setBasicForeground (apart : kFgBasicIndexMask &&& mask = 0)
    (other : kFgBasic &&& mask = 0) (index : Nat) :
    (style.setBasicForeground index).has mask = style.has mask := by
  have within : (UInt16.ofNat index &&& 7) <<< kFgBasicIndexShift =
      (UInt16.ofNat index <<< kFgBasicIndexShift) &&& kFgBasicIndexMask := by
    rw [← UInt16.toBitVec_inj]
    refine BitVec.eq_of_getLsbD_eq fun i inside => ?_
    have moved : ∀ i < 16, 11 ≤ i → (7#16).getLsbD (i - 11) = (14336#16).getLsbD i := by decide
    simp [kFgBasicIndexMask, kFgBasicIndexShift]
    grind
  rw [setBasicForeground, has_set other, has, within]
  dsimp only
  rw [masked_or, UInt16.and_assoc, UInt16.and_assoc, apart, not_masked apart, UInt16.and_zero,
    UInt16.or_zero, has]

theorem index_setBasicForeground {index : Nat} (inside : index < 8) :
    (style.setBasicForeground index).basicForegroundIndex = index := by
  have field : ∀ index < 8, (((UInt16.ofNat index &&& 7) <<< kFgBasicIndexShift &&&
      kFgBasicIndexMask) >>> kFgBasicIndexShift).toNat = index := by decide
  rw [setBasicForeground, index_set (by decide), basicForegroundIndex]
  dsimp only
  rw [masked_or, UInt16.and_assoc, UInt16.not_and_self, UInt16.and_zero, UInt16.zero_or,
    field index inside]

end

end TerminalStyle

/-! ### Colours -/

def kNormal : List Rgb :=
  [⟨0x1f, 0x24, 0x2c⟩, ⟨0xc3, 0x4b, 0x59⟩, ⟨0x8a, 0xb1, 0x66⟩, ⟨0xd8, 0xb2, 0x5d⟩,
    ⟨0x5a, 0x8c, 0xe6⟩, ⟨0xb0, 0x72, 0xd1⟩, ⟨0x56, 0xa8, 0xc9⟩, ⟨0xb8, 0xc0, 0xcc⟩]

def kBright : List Rgb :=
  [⟨0x4a, 0x51, 0x5c⟩, ⟨0xf0, 0x71, 0x78⟩, ⟨0xa4, 0xc7, 0x6d⟩, ⟨0xe7, 0xc5, 0x47⟩,
    ⟨0x72, 0xa7, 0xff⟩, ⟨0xcb, 0x8f, 0xf8⟩, ⟨0x74, 0xc7, 0xec⟩, ⟨0xf5, 0xf7, 0xfa⟩]

/-- `util::BasicAnsiColor`. -/
def basicAnsiColor (index : Nat) (bright : Bool) : Rgb :=
  (if bright then kBright else kNormal).getD (min index 7) ⟨0, 0, 0⟩

def kCube : List UInt8 := [0x00, 0x5f, 0x87, 0xaf, 0xd7, 0xff]

/-- `util::Ansi256Color`. -/
def ansi256Color (index : Nat) : Rgb :=
  if index > 255 then basicAnsiColor 0 false
  else if index < 8 then basicAnsiColor index false
  else if index < 16 then basicAnsiColor (index - 8) true
  else if index < 232 then
    let value := index - 16
    ⟨kCube.getD (value / 36) 0, kCube.getD (value / 6 % 6) 0, kCube.getD (value % 6) 0⟩
  else
    let gray := UInt8.ofNat (8 + (index - 232) * 10)
    ⟨gray, gray, gray⟩

/-! ### SGR -/

/-- `ParseSgrParametersInto` at work: the groups that are done, the one it is in, and the value of
its last field. -/
structure SgrParse where
  done : List (List Nat) := []
  group : List Nat := []
  value : Nat := 0

def kMaxParam : Nat := 65535

def SgrParse.flushField (parse : SgrParse) : SgrParse :=
  { parse with group := parse.group ++ [min parse.value kMaxParam], value := 0 }

def SgrParse.step (parse : SgrParse) (character : UInt8) : SgrParse :=
  if character = 0x3B then
    let flushed := parse.flushField
    { done := flushed.done ++ [flushed.group] }
  else if character = 0x3A then parse.flushField
  else if 0x30 ≤ character ∧ character ≤ 0x39 then
    if parse.value < 100000 then
      { parse with value := parse.value * 10 + (character.toNat - 0x30) }
    else parse
  else parse

/-- `ParseSgrParameters`: groups between `;`, of fields between `:`. -/
def parseSgrParameters (body : List UInt8) : List (List Nat) :=
  let parse := (body.foldl SgrParse.step {}).flushField
  parse.done ++ [parse.group]

def clampColorComponent (value : Nat) : UInt8 := UInt8.ofNat (min value 255)

/-- The colour of a sequence of a space and its components. -/
def extendedSgrColor (fields : List Nat) : Option Rgb :=
  let n := fields.length
  let component (i : Nat) := clampColorComponent (fields.getD i 0)
  if fields.head? = some 5 ∧ 2 ≤ n then some (ansi256Color (fields.getD 1 0))
  else if fields.head? = some 2 ∧ 4 ≤ n then
    some ⟨component (n - 3), component (n - 2), component (n - 1)⟩
  else none

/-- `ParseExtendedSgrColor`, and how many of the groups that follow it takes. -/
def parseExtendedSgrColor (leading : List Nat) : List (List Nat) → Option Rgb × Nat
  | following =>
    if leading.length > 1 then (extendedSgrColor leading.tail, 0)
    else
      match following with
      | [] => (none, 0)
      | group :: groups =>
        let space := group.headD 0
        let need := if space = 2 then 3 else if space = 5 then 1 else 0
        let fields := (groups.take need).map fun group => group.headD 0
        (extendedSgrColor (space :: fields), fields.length + 1)

/-- The underline that SGR 4 sets. -/
def setUnderline (style : TerminalStyle) (single double : Bool) : TerminalStyle :=
  (style.set kUnderline single).set kDoubleUnderline double

/-- The style behind a group, and how many of the groups that follow it takes. -/
def applySgrGroup (style : TerminalStyle) (group : List Nat) (following : List (List Nat)) :
    TerminalStyle × Nat :=
  let code := group.headD 0
  match code with
  | 0 => ({}, 0)
  | 1 =>
    let bold := style.set kBold true
    (if bold.has kFgBasic then
      { bold with foreground := some (basicAnsiColor bold.basicForegroundIndex true) } else bold, 0)
  | 2 => (style.set CellAttr.kDim true, 0)
  | 3 => (style.set kItalic true, 0)
  | 4 =>
    (if group.length > 1 ∧ group.getD 1 0 = 0 then setUnderline style false false
      else if group.length > 1 ∧ group.getD 1 0 = 2 then setUnderline style false true
      else setUnderline style true false, 0)
  | 5 => (style.set kBlink true, 0)
  | 6 => (style.set kBlink true, 0)
  | 7 => (style.set kInverse true, 0)
  | 8 => (style.set kHidden true, 0)
  | 9 => (style.set kStrikethrough true, 0)
  | 21 => (setUnderline style false true, 0)
  | 22 =>
    let plain := (style.set kBold false).set CellAttr.kDim false
    (if plain.has kFgBasic then
      { plain with foreground := some (basicAnsiColor plain.basicForegroundIndex false) }
      else plain, 0)
  | 23 => (style.set kItalic false, 0)
  | 24 => (setUnderline style false false, 0)
  | 25 => (style.set kBlink false, 0)
  | 27 => (style.set kInverse false, 0)
  | 28 => (style.set kHidden false, 0)
  | 29 => (style.set kStrikethrough false, 0)
  | 38 =>
    let color := parseExtendedSgrColor group following
    (if color.1.isSome then { style with foreground := color.1 }.clearBasicForeground else style,
      color.2)
  | 39 => ({ style with foreground := none }.clearBasicForeground, 0)
  | 48 =>
    let color := parseExtendedSgrColor group following
    (if color.1.isSome then { style with background := color.1 } else style, color.2)
  | 49 => ({ style with background := none }, 0)
  | 58 => (style, (parseExtendedSgrColor group following).2)
  | code =>
    (if 30 ≤ code ∧ code ≤ 37 then
      { style.setBasicForeground (code - 30) with
        foreground := some (basicAnsiColor (code - 30) (style.has kBold)) }
      else if 40 ≤ code ∧ code ≤ 47 then
        { style with background := some (basicAnsiColor (code - 40) false) }
      else if 90 ≤ code ∧ code ≤ 97 then
        { style.clearBasicForeground with foreground := some (basicAnsiColor (code - 90) true) }
      else if 100 ≤ code ∧ code ≤ 107 then
        { style with background := some (basicAnsiColor (code - 100) true) }
      else style, 0)

/-- The loop of `ApplySgrParameters`, over the groups behind those that are `taken`. -/
def applySgrGroups : Nat → List (List Nat) → TerminalStyle → TerminalStyle
  | _, [], style => style
  | taken + 1, _ :: groups, style => applySgrGroups taken groups style
  | 0, group :: groups, style =>
    let applied := applySgrGroup style group groups
    applySgrGroups applied.2 groups applied.1

/-- `ApplySgrParameters`. -/
def applySgrParameters (style : TerminalStyle) (body : List UInt8) : TerminalStyle :=
  applySgrGroups 0 (parseSgrParameters body) style

section Sgr

variable {style : TerminalStyle} {groups : List (List Nat)}

theorem wideTrailing_applySgrGroup (narrow : style.wideTrailing = false) (group : List Nat) :
    (applySgrGroup style group groups).1.wideTrailing = false := by
  have colored (style : TerminalStyle) (foreground background : TerminalColor) :
      has ⟨foreground, background, style.attrs⟩ kWideTrailing = style.has kWideTrailing := rfl
  unfold wideTrailing at narrow ⊢
  unfold applySgrGroup setUnderline clearBasicForeground
  dsimp only
  split
  · rfl
  all_goals try split_ifs
  all_goals simp (disch := decide) only [colored, has_set, has_setBasicForeground, narrow]

/-- What every group keeps, the loop keeps. -/
theorem applySgrGroups_keeps (Keeps : TerminalStyle → Prop)
    (step : ∀ {style}, Keeps style → ∀ group following,
      Keeps (applySgrGroup style group following).1)
    (kept : Keeps style) (taken : Nat) : Keeps (applySgrGroups taken groups style) := by
  induction groups generalizing taken style with
  | nil => exact kept
  | cons group groups ih =>
    cases taken with
    | zero => exact ih (step kept group groups) _
    | succ taken => exact ih kept taken

/-- A foreground from the basic palette has the brightness that bold asks for. -/
def TerminalStyle.TracksBold (style : TerminalStyle) : Prop :=
  style.has kFgBasic = true →
    style.foreground = some (basicAnsiColor style.basicForegroundIndex (style.has kBold))

theorem tracksBold_reset : TerminalStyle.TracksBold {} := fun basic => absurd basic (by decide)

theorem tracksBold_applySgrGroup (tracks : style.TracksBold) (group : List Nat)
    (following : List (List Nat)) : (applySgrGroup style group following).1.TracksBold := by
  have colored (style : TerminalStyle) (foreground background : TerminalColor) (bit : UInt16) :
      has ⟨foreground, background, style.attrs⟩ bit = style.has bit := rfl
  have indexed (style : TerminalStyle) (foreground background : TerminalColor) :
      basicForegroundIndex ⟨foreground, background, style.attrs⟩ = style.basicForegroundIndex := rfl
  unfold applySgrGroup setUnderline clearBasicForeground
  dsimp only
  split
  · exact tracksBold_reset
  all_goals try split_ifs
  all_goals unfold TerminalStyle.TracksBold at tracks ⊢
  all_goals simp (disch := decide) only [colored, indexed, has_set, has_set_self, index_set,
    has_setBasicForeground] at *
  all_goals try first | exact fun _ => trivial | exact tracks |
    exact fun basic => absurd basic Bool.false_ne_true | exact fun basic => absurd basic ‹_›
  next inside =>
    rw [index_setBasicForeground (by omega)]
    exact fun _ => rfl

end Sgr

/-! ### The pen -/

/-- `current_style_`: no cell is written as the second half of a wide glyph by the pen alone. -/
abbrev Pen := { style : TerminalStyle // style.wideTrailing = false }

/-- The pen of a session that starts, and behind a reset. -/
def Pen.reset : Pen := ⟨{}, rfl⟩

/-- **An SGR sequence** sets the pen. -/
def Pen.applySgr (pen : Pen) (body : List UInt8) : Pen :=
  ⟨applySgrParameters pen.val body, applySgrGroups_keeps (·.wideTrailing = false)
    (fun narrow group _ => wideTrailing_applySgrGroup narrow group) pen.property 0⟩

/-- **Over every run of SGR sequences** a basic foreground is as bright as bold asks for, and the
pen is never the second half of a wide glyph. -/
theorem sgrRun_tracksBold (bodies : List (List UInt8)) :
    (bodies.foldl Pen.applySgr Pen.reset).val.TracksBold ∧
      (bodies.foldl Pen.applySgr Pen.reset).val.wideTrailing = false := by
  refine ⟨?_, (bodies.foldl Pen.applySgr Pen.reset).property⟩
  suffices run : ∀ pen : Pen, pen.val.TracksBold →
      (bodies.foldl Pen.applySgr pen).val.TracksBold from
    run Pen.reset tracksBold_reset
  induction bodies with
  | nil => exact fun _ tracks => tracks
  | cons body bodies ih =>
    exact fun pen tracks => ih (pen.applySgr body)
      (applySgrGroups_keeps TerminalStyle.TracksBold tracksBold_applySgrGroup tracks 0)

end Microide.Terminal
