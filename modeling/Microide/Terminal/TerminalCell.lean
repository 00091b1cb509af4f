/-
Terminal cells and lines.

A cell shows at most five bytes of UTF-8 in a style, and may carry a hyperlink id. A colour is
opaque, or the theme's default. Cells and lines are the same where they show the same: the
bytes past a glyph's length are not modelled.
-/

import Mathlib.Init

namespace Microide.Terminal

structure Rgb where
  r : UInt8
  g : UInt8
  b : UInt8
  deriving DecidableEq

/-- `none` is the default colour; every other has alpha 0xff. -/
abbrev TerminalColor := Option Rgb

structure TerminalStyle where
  foreground : TerminalColor := none
  background : TerminalColor := none
  attrs : UInt16 := 0
  deriving DecidableEq

/-- The used bytes of a cell's five; none marks an empty cell. -/
abbrev Glyph := { bytes : List UInt8 // bytes.length ≤ 5 }

/-- `SetUtf8`: what does not fit is dropped. -/
def Glyph.ofBytes (bytes : List UInt8) : Glyph := ⟨bytes.take 5, List.length_take_le 5 bytes⟩

@[simp] theorem Glyph.ofBytes_val (glyph : Glyph) : Glyph.ofBytes glyph.val = glyph :=
  Subtype.ext (List.take_of_length_le glyph.property)

def Glyph.empty : Glyph := ⟨[], Nat.zero_le 5⟩

structure TerminalCell where
  glyph : Glyph := Glyph.empty
  style : TerminalStyle := {}
  link : UInt16 := 0

structure TerminalLine where
  cells : List TerminalCell := []
  wrappedFromPrevious : Bool := false

end Microide.Terminal
