/-
The highlighted spans of a changed row.

A model of `PopulateChangedSpans` in `compare/CompareModel.cpp`: which bytes of a row's
two texts are marked as changed. A deleted or an added row is marked whole. A modified
row is refined by its tokens, or by its code points when its tokens say too little, and
the spans are then clipped to what the two texts do not share at their ends.

**The model.** Tokens and code points are the pieces they cut the text into, so an offset
is the length of the pieces before it. The spans a row gets depend on its texts and on
the cells its hunk may still spend on refinement.
-/

import Microide.Compare.CompareModel

namespace Microide.Compare

open Lib Text

/-! ### Spans of changed pieces -/

structure CompareTextSpan where
  start : Nat
  stop : Nat

/-- The code points of `BuildUtf8OffsetsInto`. -/
def codepointsFrom : Nat → List UInt8 → List Line
  | 0, _ => []
  | _ + 1, [] => []
  | fuel + 1, text@(_ :: _) =>
    text.take (utf8SequenceLength text) :: codepointsFrom fuel (text.drop (utf8SequenceLength text))

def codepoints (text : Line) : List Line :=
  codepointsFrom text.length text

/-- The offset at which piece `n` starts, and the end of the text for `n` past the last. -/
def pieceOffset (pieces : List Line) (n : Nat) : Nat :=
  (pieces.take n).flatten.length

/-- `ForEachChangedRun`: the maximal runs of set flags. `open?` is the start of the run that
reaches up to `index`. -/
def changedRunsFrom : Option Nat → Nat → List Bool → List (Nat × Nat)
  | none, _, [] => []
  | some first, index, [] => [(first, index)]
  | none, index, true :: flags => changedRunsFrom (some index) (index + 1) flags
  | none, index, false :: flags => changedRunsFrom none (index + 1) flags
  | some first, index, true :: flags => changedRunsFrom (some first) (index + 1) flags
  | some first, index, false :: flags => (first, index) :: changedRunsFrom none (index + 1) flags

/-- `BuildSpansFromChangedTokensInto` and `BuildSpansFromChangedCodepointsInto`. -/
def buildSpansFromChanged (pieces : List Line) (changed : List Bool) : List CompareTextSpan :=
  if pieces.isEmpty || changed.isEmpty then []
  else (changedRunsFrom none 0 changed).map fun run =>
    ⟨pieceOffset pieces run.1, pieceOffset pieces run.2⟩

/-- `TrimSpansToByteWindowInPlace`. -/
def trimSpansToByteWindow (spans : List CompareTextSpan) (start stop : Nat) :
    List CompareTextSpan :=
  spans.filterMap fun span =>
    if span.stop ≤ start ∨ span.start ≥ stop then none
    else
      let clippedStart := max span.start start
      let clippedStop := min span.stop stop
      if clippedStop > clippedStart then some ⟨clippedStart, clippedStop⟩ else none

/-- The spans of both sides of a row. -/
structure ChangedSpans where
  left : List CompareTextSpan := []
  right : List CompareTextSpan := []

/-- `TrimChangedSpansToSharedEdges`, for a modified row. -/
def trimChangedSpansToSharedEdges (leftText rightText : Line) (spans : ChangedSpans) :
    ChangedSpans :=
  let lefts := codepoints leftText
  let rights := codepoints rightText
  let ends := equalEnds (fun l r => l == r) lefts rights
  { left := trimSpansToByteWindow spans.left (pieceOffset lefts ends.1)
      (pieceOffset lefts (lefts.length - ends.2))
    right := trimSpansToByteWindow spans.right (pieceOffset rights ends.1)
      (pieceOffset rights (rights.length - ends.2)) }

/-! ### Refinement by tokens and by code points -/

/-- The flags of both sides: the shared ends are unchanged, the middle has its own. -/
def flagsAround (ends : Nat × Nat) (middle : List Bool) : List Bool :=
  List.replicate ends.1 false ++ middle ++ List.replicate ends.2 false

/-- `TokenMatchWeight`. -/
def tokenMatchWeight : LineTokenKind × Line → Nat
  | (.word, token) => token.length + 4
  | (.whitespace, token) => if token.length > 0 then 1 else 0
  | (.symbol, token) => if token.length > 0 then 1 else 0

/-- One row of the token table, filled from the right; `below` is the next row. -/
def tokenDpRow (left : LineTokenKind × Line) : List (LineTokenKind × Line) → List Nat → List Nat
  | [], _ => [0]
  | right :: rights, below =>
    let row := tokenDpRow left rights below.tail
    let best := max (below.headD 0) (row.headD 0)
    (if left = right then max best (tokenMatchWeight left + below.tail.headD 0) else best) :: row

/-- One row of the code point table. -/
def codepointDpRow (left : Line) : List Line → List Nat → List Nat
  | [], _ => [0]
  | right :: rights, below =>
    let row := codepointDpRow left rights below.tail
    (if left = right then below.tail.headD 0 + 1 else max (below.headD 0) (row.headD 0)) :: row

/-- A table, top row first, whose last row is zero. -/
def spanTable {α : Type} (dpRow : α → List α → List Nat → List Nat) (rights : List α) :
    List α → List (List Nat)
  | [] => [List.replicate (rights.length + 1) 0]
  | left :: lefts =>
    let table := spanTable dpRow rights lefts
    dpRow left rights (table.headD []) :: table

/-- `at(i, j)`. -/
def cellAt (dp : List (List Nat)) (i j : Nat) : Nat :=
  (dp.getD i []).getD j 0

/-- Where the token walk takes the diagonal. -/
def takesTokenDiagonal (dp : List (List Nat)) (left right : LineTokenKind × Line) (i j : Nat) :
    Bool :=
  let diagonal := tokenMatchWeight left + cellAt dp (i + 1) (j + 1)
  left == right && (diagonal ≥ cellAt dp (i + 1) j && (diagonal ≥ cellAt dp i (j + 1) &&
    cellAt dp i j == diagonal))

/-- The walk along a table: the flags of the pieces from `i` and from `j` on. Every step
passes a piece, so the pieces left bound the steps. -/
def walkSpans {α : Type} (takesDiagonal : α → α → Nat → Nat → Bool) (dp : List (List Nat)) :
    Nat → Nat → Nat → List α → List α → List Bool × List Bool
  | fuel + 1, i, j, left :: lefts, right :: rights =>
    if takesDiagonal left right i j then
      let rest := walkSpans takesDiagonal dp fuel (i + 1) (j + 1) lefts rights
      (false :: rest.1, false :: rest.2)
    else if cellAt dp (i + 1) j ≥ cellAt dp i (j + 1) then
      let rest := walkSpans takesDiagonal dp fuel (i + 1) j lefts (right :: rights)
      (true :: rest.1, rest.2)
    else
      let rest := walkSpans takesDiagonal dp fuel i (j + 1) (left :: lefts) rights
      (rest.1, true :: rest.2)
  | _, _, _, lefts, rights => (List.replicate lefts.length true, List.replicate rights.length true)

/-- `PopulateTokenChangedSpans`; `none` where it returns `false`. -/
def populateTokenChangedSpans (leftText rightText : Line) : Option ChangedSpans :=
  let lefts := tokensFrom leftText.length leftText
  let rights := tokensFrom rightText.length rightText
  if lefts.length < 2 ∨ rights.length < 2 ∨
      productExceeds (lefts.length + 1) (rights.length + 1) kMaxIntralineLcsMatrixCells then none
  else
    let ends := equalEnds (fun l r => l == r) lefts rights
    let leftMiddle := slice lefts ends.1 (lefts.length - ends.2)
    let rightMiddle := slice rights ends.1 (rights.length - ends.2)
    if leftMiddle.length = 0 ∧ rightMiddle.length = 0 then some {}
    else
      let build (flags : List Bool × List Bool) : ChangedSpans :=
        { left := buildSpansFromChanged (lefts.map Prod.snd) (flagsAround ends flags.1)
          right := buildSpansFromChanged (rights.map Prod.snd) (flagsAround ends flags.2) }
      if leftMiddle.length = 0 ∨ rightMiddle.length = 0 then
        some (build (List.replicate leftMiddle.length true, List.replicate rightMiddle.length true))
      else
        let dp := spanTable tokenDpRow rightMiddle leftMiddle
        let spans := build (walkSpans (takesTokenDiagonal dp) dp
          (leftMiddle.length + rightMiddle.length) 0 0 leftMiddle rightMiddle)
        if spans.left.isEmpty && spans.right.isEmpty then none else some spans

/-- `PopulateCodepointChangedSpans`: a middle too large for the table is marked whole. -/
def populateCodepointChangedSpans (leftText rightText : Line) : ChangedSpans :=
  let lefts := codepoints leftText
  let rights := codepoints rightText
  let ends := equalEnds (fun l r => l == r) lefts rights
  let leftMiddle := slice lefts ends.1 (lefts.length - ends.2)
  let rightMiddle := slice rights ends.1 (rights.length - ends.2)
  let flags :=
    if leftMiddle.length > 0 ∧ rightMiddle.length > 0 ∧
        ¬ productExceeds (leftMiddle.length + 1) (rightMiddle.length + 1)
          kMaxIntralineLcsMatrixCells then
      let dp := spanTable codepointDpRow rightMiddle leftMiddle
      walkSpans (fun left right _ _ => left == right) dp (leftMiddle.length + rightMiddle.length)
        0 0 leftMiddle rightMiddle
    else (List.replicate leftMiddle.length true, List.replicate rightMiddle.length true)
  { left := buildSpansFromChanged lefts (flagsAround ends flags.1)
    right := buildSpansFromChanged rights (flagsAround ends flags.2) }

/-! ### The spans of a row -/

/-- `kMaxHunkIntralineTotalCells`. -/
def kMaxHunkIntralineTotalCells : Nat := 8388608

/-- `kMaxIntralineTextBytes`. -/
def kMaxIntralineTextBytes : Nat := 64 * 1024

/-- The whole text, unless it is empty. -/
def wholeText (text : Line) : List CompareTextSpan :=
  if text.isEmpty then [] else [⟨0, text.length⟩]

/-- What the refinement of one pair of lines is charged. -/
def intralinePairCost (leftText rightText : Line) : Nat :=
  if productExceeds (leftText.length + 1) (rightText.length + 1) kMaxIntralineLcsMatrixCells then
    kMaxIntralineLcsMatrixCells
  else (leftText.length + 1) * (rightText.length + 1)

/-- `PopulateChangedSpans`: the spans of a row, and the cells its hunk has left. -/
def populateChangedSpans (row : CompareRow) (cells : Nat) : ChangedSpans × Nat :=
  match row.kind with
  | .unchanged => ({}, cells)
  | .deleted => ({ left := wholeText row.leftText }, cells)
  | .added => ({ right := wholeText row.rightText }, cells)
  | .modified =>
    let whole : ChangedSpans := { left := wholeText row.leftText, right := wholeText row.rightText }
    if row.leftText.length > kMaxIntralineTextBytes ∨
        row.rightText.length > kMaxIntralineTextBytes then (whole, cells)
    else if cells = 0 then (whole, cells)
    else
      let refined := (populateTokenChangedSpans row.leftText row.rightText).getD
        (populateCodepointChangedSpans row.leftText row.rightText)
      (trimChangedSpansToSharedEdges row.leftText row.rightText refined,
        cells - intralinePairCost row.leftText row.rightText)

end Microide.Compare
