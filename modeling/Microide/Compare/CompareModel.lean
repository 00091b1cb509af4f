/-
The compare model.

A model of `BuildCompareModelProfiledInto` in `compare/CompareModel.cpp`: the rows of a
side-by-side comparison, their line numbers, and the hunks. The line differ finds the
runs of changed lines, each run's deleted and inserted lines are aligned with each other
by similarity, and the trailing *phantom* element of a text that ends in a newline gets
a row of its own.

**The model.** The alignment of a hunk weighs its choices in `double`. The weights decide
only which lines share a row, so the aligner is written over any arithmetic `Doubles K`
that offers the operations the source uses: what is proved holds for IEEE doubles as for
any other, and a concrete comparison is evaluated over exact rationals. Line numbers are
natural numbers, `0` for a side a row does not have; a row outside every hunk has
`hunk = none`.
-/

import Mathlib.Algebra.Group.Nat.Defs
import Mathlib.Data.Rat.Defs
import Microide.Compare.LineDiffSoundness

namespace Microide.Compare

open Lib Text

/-! ### Arithmetic of the alignment costs -/

/-- The floating-point operations of the hunk aligner. `decimal n d` is the literal
`n · 10⁻ᵈ`. -/
structure Doubles (K : Type) where
  ofNat : Nat → K
  decimal : Nat → Nat → K
  add : K → K → K
  sub : K → K → K
  mul : K → K → K
  div : K → K → K
  abs : K → K
  lt : K → K → Bool

/-- Exact rational arithmetic. -/
def rationals : Doubles Rat where
  ofNat n := (n : Rat)
  decimal n d := (n : Rat) / ((10 ^ d : Nat) : Rat)
  add := (· + ·)
  sub := (· - ·)
  mul := (· * ·)
  div := (· / ·)
  abs q := if q < 0 then -q else q
  lt a b := decide (a < b)

/-! ### Similarity of two lines -/

/-- The loop of `TokenizeLineInto`: runs of one kind, except that every symbol is a token
of its own. -/
def tokensFrom : Nat → List UInt8 → List (LineTokenKind × Line)
  | 0, _ => []
  | _ + 1, [] => []
  | fuel + 1, text@(_ :: _) =>
    let kind := classifyCodepoint text
    let lead := utf8SequenceLength text
    let length :=
      if kind = .symbol then lead
      else lead + tokenRunLength kind text.length (text.drop lead)
    (kind, text.take length) :: tokensFrom fuel (text.drop length)

/-- The significant tokens of `TokenizeLineInto`, as their texts. -/
def significantTokens (text : Line) : List Line :=
  (tokensFrom text.length text).filterMap fun (kind, token) =>
    if kind = .whitespace then none else some token

/-- One row of the token table of `CommonSignificantTokenBytes`; `below` is the row of the
next left token. -/
def commonTokenRow (leftToken : Line) : List Line → List Nat → List Nat
  | [], _ => [0]
  | rightToken :: rightTokens, below =>
    let row := commonTokenRow leftToken rightTokens below.tail
    let value :=
      if rightToken.length = leftToken.length ∧ rightToken = leftToken then
        leftToken.length + below.tail.headD 0
      else max (below.headD 0) (row.headD 0)
    value :: row

/-- `kMaxIntralineLcsMatrixCells`. -/
def kMaxIntralineLcsMatrixCells : Nat := 65536

/-- `CommonSignificantTokenBytes`. -/
def commonSignificantTokenBytes (left right : List Line) : Nat :=
  if left.isEmpty || right.isEmpty then 0
  else if productExceeds (left.length + 1) (right.length + 1) kMaxIntralineLcsMatrixCells then 0
  else
    (left.foldr (fun token below => commonTokenRow token right below)
      (List.replicate (right.length + 1) 0)).headD 0

section Alignment

variable {K : Type} (A : Doubles K)

/-- `std::clamp(x, 0.0, 1.0)`. -/
def clampUnit (x : K) : K :=
  if A.lt x (A.ofNat 0) then A.ofNat 0 else if A.lt (A.ofNat 1) x then A.ofNat 1 else x

/-- `LineSimilarity`. -/
def lineSimilarity (left right : Line) : K :=
  let leftTokens := significantTokens left
  let rightTokens := significantTokens right
  let leftBytes := significantTokenBytes left
  let rightBytes := significantTokenBytes right
  if left = right then A.ofNat 1
  else if leftTokens.isEmpty && rightTokens.isEmpty then A.ofNat 1
  else if leftBytes = 0 ∨ rightBytes = 0 then A.ofNat 0
  else
    let commonBytes := commonSignificantTokenBytes leftTokens rightTokens
    if commonBytes = 0 then A.ofNat 0
    else clampUnit A
      (A.div (A.mul (A.ofNat 2) (A.ofNat commonBytes)) (A.ofNat (leftBytes + rightBytes)))

/-- `similarity_at`: below the pairing gate only an upper bound is computed. -/
def similarityAt (leftCount rightCount : Nat) (left right : Line) : K :=
  let leftBytes := significantTokenBytes left
  let rightBytes := significantTokenBytes right
  let ceiling := A.div (A.mul (A.ofNat 2) (A.ofNat (min leftBytes rightBytes)))
    (A.ofNat (leftBytes + rightBytes))
  if ¬(leftCount = 1 ∧ rightCount = 1) ∧ leftBytes + rightBytes > 0 ∧
      A.lt ceiling (A.decimal 35 2) then ceiling
  else lineSimilarity A left right

/-- `AlignmentPairCost`. -/
def alignmentPairCost (similarity : K) : K :=
  A.sub (A.decimal 115 2) (A.mul (A.decimal 85 2) (clampUnit A similarity))

/-- `CanPairAlignedLines`. -/
def canPairAlignedLines (similarity : K) (leftCount rightCount : Nat) : Bool :=
  if leftCount = 1 ∧ rightCount = 1 then true
  else if (leftCount = 1 ∧ rightCount > 1) ∨ (rightCount = 1 ∧ leftCount > 1) then false
  else !A.lt similarity (A.decimal 35 2)

inductive HunkAlignmentKind where
  | pair
  | delete
  | insert
  deriving DecidableEq

/-- The best choice of one table cell so far; no cost yet is `infinity`. -/
structure CellChoice (K : Type) where
  cost : Option K := none
  kind : HunkAlignmentKind := .delete
  similarity : Option K := none

/-- `consider`: a clearly cheaper candidate wins, and a pair wins a tie. -/
def consider (best : CellChoice K) (cost : K) (kind : HunkAlignmentKind) (similarity : Option K) :
    CellChoice K :=
  let epsilon := A.decimal 1 6
  match best.cost with
  | none => { cost := some cost, kind, similarity }
  | some bestCost =>
    if A.lt (A.add cost epsilon) bestCost then { cost := some cost, kind, similarity }
    else if A.lt epsilon (A.abs (A.sub cost bestCost)) then best
    else
      let moreSimilar : Bool :=
        match similarity, best.similarity with
        | some s, some s' => A.lt (A.add s' epsilon) s
        | some _, none => true
        | none, _ => false
      if kind = .pair ∧ (best.kind ≠ .pair ∨ moreSimilar = true) then
        { best with kind, similarity }
      else best

/-- One row of the alignment table, filled from the right: the cost and the choice at
every column. `deletesLeft` is the cost of deleting from this line on. -/
def alignRow (leftCount rightCount : Nat) (left : Line) (deletesLeft : Nat) :
    List Line → List K → List (K × HunkAlignmentKind)
  | [], _ => [(A.ofNat deletesLeft, .delete)]
  | right :: rights, nextRow =>
    let row := alignRow leftCount rightCount left deletesLeft rights nextRow.tail
    let zero := A.ofNat 0
    let one := A.ofNat 1
    let pairingPossible : Bool :=
      !((leftCount = 1 ∧ rightCount > 1) ∨ (rightCount = 1 ∧ leftCount > 1))
    let similarity :=
      if pairingPossible then similarityAt A leftCount rightCount left right else zero
    let paired :=
      if pairingPossible && canPairAlignedLines A similarity leftCount rightCount then
        consider A {} (A.add (alignmentPairCost A similarity) (nextRow.tail.headD zero)) .pair
          (some similarity)
      else {}
    let deleted := consider A paired (A.add one (nextRow.headD zero)) .delete none
    let inserted := consider A deleted (A.add one ((row.headD (zero, .delete)).1)) .insert none
    (inserted.cost.getD zero, inserted.kind) :: row

/-- The table, top row first, with the costs of the bottom row. -/
def alignTable (leftCount : Nat) (rights : List Line) :
    List Line → List (List (K × HunkAlignmentKind))
  | [] => [(List.range (rights.length + 1)).map fun j =>
      (A.ofNat (rights.length - j), .insert)]
  | left :: lefts =>
    let table := alignTable leftCount rights lefts
    alignRow A leftCount rights.length left (lefts.length + 1) rights
      ((table.headD []).map Prod.fst) :: table

/-- The walk along the choices. Every step passes a line, so the lines left bound the
steps. -/
def traceAlignment (leftCount rightCount : Nat) (choices : List (List HunkAlignmentKind)) :
    Nat → Nat → Nat → List HunkAlignmentKind
  | 0, _, _ => []
  | fuel + 1, i, j =>
    if i ≥ leftCount ∧ j ≥ rightCount then []
    else if i ≥ leftCount then .insert :: traceAlignment leftCount rightCount choices fuel i (j + 1)
    else if j ≥ rightCount then .delete :: traceAlignment leftCount rightCount choices fuel (i + 1) j
    else
      match (choices.getD i []).getD j .pair with
      | .pair => .pair :: traceAlignment leftCount rightCount choices fuel (i + 1) (j + 1)
      | .delete => .delete :: traceAlignment leftCount rightCount choices fuel (i + 1) j
      | .insert => .insert :: traceAlignment leftCount rightCount choices fuel i (j + 1)

/-- `kMaxHunkAlignmentMatrixCells`. -/
def kMaxHunkAlignmentMatrixCells : Nat := 65536

/-- `AlignHunkLinesInto`. -/
def alignHunkLines (deletedLines insertedLines : List Line) : List HunkAlignmentKind :=
  let leftCount := deletedLines.length
  let rightCount := insertedLines.length
  if leftCount = 0 then List.replicate rightCount .insert
  else if rightCount = 0 then List.replicate leftCount .delete
  else if productExceeds (leftCount + 1) (rightCount + 1) kMaxHunkAlignmentMatrixCells then
    let paired := min leftCount rightCount
    List.replicate paired .pair ++ List.replicate (leftCount - paired) .delete ++
      List.replicate (rightCount - paired) .insert
  else
    traceAlignment leftCount rightCount
      ((alignTable A leftCount insertedLines deletedLines).map fun row => row.map Prod.snd)
      (leftCount + rightCount) 0 0

end Alignment

/-! ### Rows, hunks and the model -/

inductive CompareRowKind where
  | unchanged
  | added
  | deleted
  | modified
  deriving DecidableEq

structure CompareRow where
  leftText : Line := []
  rightText : Line := []
  leftLine : Nat := 0
  rightLine : Nat := 0
  kind : CompareRowKind := .unchanged
  hunk : Option Nat := none
  deriving DecidableEq

structure CompareHunk where
  index : Nat
  startRow : Nat
  endRow : Nat
  deriving DecidableEq

structure CompareModel where
  leftSource : List UInt8
  rightSource : List UInt8
  rows : List CompareRow
  hunks : List CompareHunk
  leftFinalNewlineMissing : Bool
  rightFinalNewlineMissing : Bool
  leftAbsent : Bool
  rightAbsent : Bool
  leftUsesCrlf : Bool
  rightUsesCrlf : Bool

/-- The rows and hunks built so far, and the next line number of each side. -/
structure RowSink where
  rows : List CompareRow := []
  hunks : List CompareHunk := []
  leftLine : Nat := 1
  rightLine : Nat := 1

namespace RowSink

/-- A row of two matched lines. -/
def pushEqual (sink : RowSink) (left right : Line) : RowSink :=
  { sink with
    rows := sink.rows ++
      [{ leftText := left, rightText := right, leftLine := sink.leftLine
         rightLine := sink.rightLine }]
    leftLine := sink.leftLine + 1
    rightLine := sink.rightLine + 1 }

def pushEquals (sink : RowSink) : List (Line × Line) → RowSink
  | [] => sink
  | (left, right) :: pairs => (sink.pushEqual left right).pushEquals pairs

/-- The rows of one hunk: each alignment step takes the next deleted line, the next
inserted line or both. -/
def pushAligned (hunk : Nat) (sink : RowSink) :
    List HunkAlignmentKind → List Line → List Line → RowSink
  | [], _, _ => sink
  | .pair :: kinds, deleted, inserted =>
    pushAligned hunk
      { sink with
        rows := sink.rows ++
          [{ leftText := deleted.headD [], rightText := inserted.headD []
             leftLine := sink.leftLine, rightLine := sink.rightLine
             kind := .modified, hunk := some hunk }]
        leftLine := sink.leftLine + 1
        rightLine := sink.rightLine + 1 }
      kinds deleted.tail inserted.tail
  | .delete :: kinds, deleted, inserted =>
    pushAligned hunk
      { sink with
        rows := sink.rows ++
          [{ leftText := deleted.headD [], leftLine := sink.leftLine
             kind := .deleted, hunk := some hunk }]
        leftLine := sink.leftLine + 1 }
      kinds deleted.tail inserted
  | .insert :: kinds, deleted, inserted =>
    pushAligned hunk
      { sink with
        rows := sink.rows ++
          [{ rightText := inserted.headD [], rightLine := sink.rightLine
             kind := .added, hunk := some hunk }]
        rightLine := sink.rightLine + 1 }
      kinds deleted inserted.tail

end RowSink

section Build

variable {K : Type} (A : Doubles K)

/-- The end of a run of changed lines: align it and close its hunk. -/
def flushRun (sink : RowSink) (deleted inserted : List Line) : RowSink :=
  if deleted.isEmpty && inserted.isEmpty then sink
  else
    let hunkIndex := sink.hunks.length
    let aligned := RowSink.pushAligned hunkIndex sink (alignHunkLines A deleted inserted)
      deleted inserted
    { aligned with
      hunks := aligned.hunks ++
        [{ index := hunkIndex, startRow := sink.rows.length, endRow := aligned.rows.length - 1 }] }

/-- The loop over the operations; `deleted` and `inserted` collect the current run. -/
def rowsFromOps (sink : RowSink) (deleted inserted : List Line) : List DiffOp → RowSink
  | [] => flushRun A sink deleted inserted
  | op :: ops =>
    match op.kind with
    | .equal => rowsFromOps ((flushRun A sink deleted inserted).pushEqual op.text op.rightText) [] [] ops
    | .delete => rowsFromOps sink (deleted ++ [op.text]) inserted ops
    | .insert => rowsFromOps sink deleted (inserted ++ [op.text]) ops

/-- The row of the trailing phantoms: unchanged when both sides have one, else a
one-sided row that joins the hunk it touches or is a hunk of its own. -/
def pushPhantom (sink : RowSink) (leftPhantom rightPhantom : Bool) : RowSink :=
  if leftPhantom && rightPhantom then sink.pushEqual [] []
  else if leftPhantom || rightPhantom then
    let rowIndex := sink.rows.length
    let hunks :=
      match sink.hunks.getLast? with
      | some last =>
        if last.endRow + 1 = rowIndex then sink.hunks.dropLast ++ [{ last with endRow := rowIndex }]
        else sink.hunks ++ [{ index := sink.hunks.length, startRow := rowIndex, endRow := rowIndex }]
      | none => [{ index := 0, startRow := rowIndex, endRow := rowIndex }]
    { rows := sink.rows ++
        [{ kind := if leftPhantom then .deleted else .added
           leftLine := if leftPhantom then sink.leftLine else 0
           rightLine := if rightPhantom then sink.rightLine else 0
           hunk := hunks.getLast?.map CompareHunk.index }]
      hunks
      leftLine := if leftPhantom then sink.leftLine + 1 else sink.leftLine
      rightLine := if rightPhantom then sink.rightLine + 1 else sink.rightLine }
  else sink

/-- The lines that take part in the alignment: the phantom is cut off. -/
def realLinesOf (source : List UInt8) (phantom : Bool) : List Line :=
  let lines := splitLineViews source
  if phantom && lines.getLast? == some [] then lines.dropLast else lines

/-- `uses_crlf`. -/
def usesCrlf (source : List UInt8) : Bool :=
  match source.findIdx? (· == lf) with
  | some newline => newline > 0 && source[newline - 1]? == some cr
  | none => false

/-- `*_final_newline_missing`. -/
def finalNewlineMissing (source : List UInt8) : Bool :=
  !source.isEmpty && source.getLast? != some lf

/-- `BuildCompareModelProfiledInto`. -/
def buildCompareModel (left right : List UInt8) (options : CompareBuildOptions := {}) :
    CompareModel :=
  let leftPhantom := !finalNewlineMissing left
  let rightPhantom := !finalNewlineMissing right
  let leftLines := realLinesOf left leftPhantom
  let rightLines := realLinesOf right rightPhantom
  let ends := findEqualEnds leftLines rightLines options
  let ops := buildLineDiffOps (slice leftLines ends.prefixLength ends.leftSuffix)
    (slice rightLines ends.prefixLength ends.rightSuffix) options
  let started := RowSink.pushEquals {}
    ((leftLines.take ends.prefixLength).zip (rightLines.take ends.prefixLength))
  let middle := rowsFromOps A started [] [] ops
  let ended := middle.pushEquals
    ((leftLines.drop ends.leftSuffix).zip (rightLines.drop ends.rightSuffix))
  let sink := pushPhantom ended leftPhantom rightPhantom
  { leftSource := left, rightSource := right
    rows := sink.rows, hunks := sink.hunks
    leftFinalNewlineMissing := finalNewlineMissing left
    rightFinalNewlineMissing := finalNewlineMissing right
    leftAbsent := match options.leftExists with
      | some e => !e
      | none => left.isEmpty
    rightAbsent := match options.rightExists with
      | some e => !e
      | none => right.isEmpty
    leftUsesCrlf := usesCrlf left, rightUsesCrlf := usesCrlf right }

end Build

end Microide.Compare
