/-
Path texts.

A path is its native bytes. `lexicallyNormal` is `std::filesystem::path::lexically_normal` on
POSIX texts: names of `.` and empty names go, a name and the `..` after it go together, and what
ends as a directory keeps its separator. `pathTextNeedsNormalizing` is the scan that tells
without building anything that a text is normal.
-/

import Microide.Text.Lines

namespace Microide.Util

/-- The native text of a path. -/
abbrev PathText := List UInt8

def slash : UInt8 := 0x2F

/-- `.`. -/
def dotName : PathText := [0x2E]

/-- `..`. -/
def dotDotName : PathText := [0x2E, 0x2E]

/-- One name of the text, after the names kept so far (the last first). -/
def normalStep (rooted : Bool) (kept : List PathText) (name : PathText) : List PathText :=
  if name = [] ∨ name = dotName then kept
  else if name = dotDotName then
    match kept with
    | [] => if rooted then [] else [dotDotName]
    | last :: more => if last = dotDotName then dotDotName :: kept else more
  else name :: kept

/-- `path.lexically_normal()`. -/
def lexicallyNormal (text : PathText) : PathText :=
  if text = [] then []
  else
    let rooted : Bool := text.head? = some slash
    let names := text.splitOn slash
    let kept := (names.foldl (normalStep rooted) []).reverse
    let last := names.getLastD []
    let directory : Bool := kept ≠ [] ∧ kept.getLast? ≠ some dotDotName ∧
      (last = [] ∨ last = dotName ∨ last = dotDotName)
    let body := List.intercalate [slash] kept ++ if directory then [slash] else []
    let whole := if rooted then slash :: body else body
    if whole = [] then dotName else whole

def pathTextNeedsNormalizing (text : PathText) : Bool :=
  if text = [] then false
  else
    let names := text.splitOn slash
    names.any (fun name => name = dotName || name = dotDotName) ||
      names.tail.dropLast.any (fun name => name = [])

end Microide.Util
