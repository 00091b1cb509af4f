/-
The line differ.

A model of the line-alignment half of `compare/CompareModel.cpp`, from the equality
test of two lines up to `BuildLineDiffOpsInto`. The differ trims the common ends,
aligns a middle that is small enough by an exact weighted dynamic program, and
otherwise looks for lines that occur once on both sides, recurses between these
anchors and falls back to "delete all, insert all" where there are none or the depth
cap is reached.

**The model.** A `std::string_view` is the bytes it views. `FlatDedupSet` is read
through what `Intern` returns, the index of the first key that is equal, so ids
are dense and in first-occurrence order.

**Main result.** `buildLineDiffOps_placed`: whatever route the differ takes, its
operations run through both files in order, each line once, and pair only lines that
`LinesEqualForDiff` accepts.
-/

import Microide.Lib.EditScript
import Microide.Lib.Separated
import Microide.Text.Lines
import Mathlib.Data.List.Sort

namespace Microide.Compare

open Lib Text

/-! ### Operations and options -/

/-- `CompareBuildOptions`. The existence flags matter to the patch header only. -/
structure CompareBuildOptions where
  ignoreWhitespace : Bool := false
  leftExists : Option Bool := none
  rightExists : Option Bool := none

inductive DiffOpKind where
  | equal
  | delete
  | insert
  deriving DecidableEq

/-- `DiffOp`: `text` is the left line of an `Equal` or `Delete` and the right line of an
`Insert`; `rightText` is the matched right line of an `Equal` and unused otherwise. -/
structure DiffOp where
  kind : DiffOpKind := .equal
  text : Line := []
  rightText : Line := []

namespace DiffOp

def equal (left right : Line) : DiffOp := { kind := .equal, text := left, rightText := right }

def delete (left : Line) : DiffOp := { kind := .delete, text := left }

def insert (right : Line) : DiffOp := { kind := .insert, text := right }

/-- The operation as a step of an edit script from the left file to the right file. -/
def edit (op : DiffOp) : Edit Line Line :=
  match op.kind with
  | .equal => .keep op.text op.rightText
  | .delete => .drop op.text
  | .insert => .add op.text

end DiffOp

/-! ### Equality of two lines -/

/-- The two-cursor walk of `LinesEqualIgnoringWhitespace`: skip spaces on both sides,
then compare one byte. -/
def linesEqualIgnoringWhitespace (left right : Line) : Bool :=
  match _h : left.dropWhile isAsciiSpace, right.dropWhile isAsciiSpace with
  | [], rest => rest.isEmpty
  | _ :: _, [] => false
  | a :: left', b :: right' => a == b && linesEqualIgnoringWhitespace left' right'
termination_by left.length
decreasing_by
  have hle := (List.dropWhile_sublist isAsciiSpace (l := left)).length_le
  rw [_h, List.length_cons] at hle
  omega

/-- `LinesEqualForDiff`. -/
def linesEqualForDiff (left right : Line) (options : CompareBuildOptions) : Bool :=
  left == right || (options.ignoreWhitespace && linesEqualIgnoringWhitespace left right)

/-- The bytes of a line that are no space. -/
def withoutSpaces (line : Line) : Line :=
  line.filter fun c => !isAsciiSpace c

theorem withoutSpaces_dropWhile (line : Line) :
    withoutSpaces (line.dropWhile isAsciiSpace) = withoutSpaces line := by
  induction line with
  | nil => rfl
  | cons c line ih =>
      rw [List.dropWhile_cons]
      split
      · next hc => simpa [withoutSpaces, hc] using ih
      · rfl

theorem withoutSpaces_eq_cons {line rest : Line} {a : UInt8}
    (h : line.dropWhile isAsciiSpace = a :: rest) :
    withoutSpaces line = a :: withoutSpaces rest := by
  have ha : isAsciiSpace a = false := by
    have hhead := List.head?_dropWhile_not isAsciiSpace line
    simpa [h] using hhead
  rw [← withoutSpaces_dropWhile, h]
  simp [withoutSpaces, ha]

/-- Skipping spaces in step compares what is left when every space is removed. -/
theorem linesEqualIgnoringWhitespace_iff (left right : Line) :
    linesEqualIgnoringWhitespace left right = true ↔ withoutSpaces left = withoutSpaces right := by
  fun_induction linesEqualIgnoringWhitespace left right with
  | case1 left right hl =>
      rw [← withoutSpaces_dropWhile left, hl]
      cases hr : right.dropWhile isAsciiSpace with
      | nil =>
          rw [← withoutSpaces_dropWhile right, hr]
          simp
      | cons b rest =>
          rw [withoutSpaces_eq_cons hr]
          simp [withoutSpaces]
  | case2 left right a left' hl hr =>
      rw [withoutSpaces_eq_cons hl, ← withoutSpaces_dropWhile right, hr]
      simp [withoutSpaces]
  | case3 left right a left' b right' hl hr ih =>
      rw [withoutSpaces_eq_cons hl, withoutSpaces_eq_cons hr]
      simp [ih]

/-- The part of a line that decides equality under `options`. -/
def lineKey (options : CompareBuildOptions) (line : Line) : Line :=
  if options.ignoreWhitespace then withoutSpaces line else line

/-- Either way `LinesEqualForDiff` is equality of a key, hence an equivalence. -/
theorem linesEqualForDiff_iff (left right : Line) (options : CompareBuildOptions) :
    linesEqualForDiff left right options = true ↔ lineKey options left = lineKey options right := by
  unfold linesEqualForDiff lineKey
  cases options.ignoreWhitespace with
  | false => simp
  | true =>
      simp only [Bool.true_and, Bool.or_eq_true, beq_iff_eq, linesEqualIgnoringWhitespace_iff,
        if_true]
      exact ⟨fun h => h.elim (congrArg withoutSpaces) id, Or.inr⟩

/-! ### The weight of a matched line -/

inductive LineTokenKind where
  | word
  | whitespace
  | symbol
  deriving DecidableEq

/-- `ClassifyCodepoint`, on the bytes from the offset on. -/
def classifyCodepoint : List UInt8 → LineTokenKind
  | [] => .symbol
  | byte :: _ =>
    if byte > 0x7F then .word
    else if isAsciiSpace byte then .whitespace
    else if isAsciiAlnum byte || byte == 0x5F then .word
    else .symbol

/-- The inner loop of the tokenizer: how many bytes the run of code points of `kind`
takes. Every step consumes a byte, so the number of bytes left bounds the steps. -/
def tokenRunLength (kind : LineTokenKind) : Nat → List UInt8 → Nat
  | 0, _ => 0
  | _ + 1, [] => 0
  | fuel + 1, text@(_ :: _) =>
    if classifyCodepoint text = kind then
      utf8SequenceLength text + tokenRunLength kind fuel (text.drop (utf8SequenceLength text))
    else 0

/-- The loop of `SignificantTokenBytes`. -/
def significantTokenBytesFrom : Nat → List UInt8 → Nat
  | 0, _ => 0
  | _ + 1, [] => 0
  | fuel + 1, text@(_ :: _) =>
    let kind := classifyCodepoint text
    let lead := utf8SequenceLength text
    let length :=
      if kind = .symbol then lead
      else lead + tokenRunLength kind text.length (text.drop lead)
    (if kind = .whitespace then 0 else length) + significantTokenBytesFrom fuel (text.drop length)

/-- `SignificantTokenBytes`. -/
def significantTokenBytes (text : Line) : Nat :=
  significantTokenBytesFrom text.length text

/-- `LineMatchWeight`. -/
def lineMatchWeight (text : Line) (significantBytes occurrences : Nat) : Nat :=
  let informativeBytes :=
    if significantBytes > 0 then significantBytes else if text.isEmpty then 1 else 2
  max 1 ((informativeBytes + 8) / max 1 occurrences)

/-! ### Emitting runs of operations -/

/-- `AppendDeleteOps`. -/
def appendDeleteOps (leftLines : List Line) (leftBegin leftEnd : Nat) : List DiffOp :=
  (slice leftLines leftBegin leftEnd).map DiffOp.delete

/-- `AppendInsertOps`. -/
def appendInsertOps (rightLines : List Line) (rightBegin rightEnd : Nat) : List DiffOp :=
  (slice rightLines rightBegin rightEnd).map DiffOp.insert

/-- `AppendEqualPairs`. -/
def appendEqualPairs (leftLines : List Line) (leftBegin leftEnd : Nat)
    (rightLines : List Line) (rightBegin : Nat) : List DiffOp :=
  List.zipWith DiffOp.equal (slice leftLines leftBegin leftEnd) (rightLines.drop rightBegin)

/-! ### The exact dynamic program -/

/-- `ProductExceeds`. -/
def productExceeds (left right limit : Nat) : Bool :=
  if left = 0 ∨ right = 0 then false else left > limit / right

/-- `kMaxLineLcsMatrixCells`. -/
def kMaxLineLcsMatrixCells : Nat := 250000

/-- The `Eq` of the interning set the options select. -/
def internEq (options : CompareBuildOptions) (key line : Line) : Bool :=
  if options.ignoreWhitespace then linesEqualIgnoringWhitespace key line else key == line

/-- `FlatDedupSet::Intern`: the index of the first equal key, and the keys afterwards. -/
def intern (options : CompareBuildOptions) (keys : List Line) (line : Line) : Nat × List Line :=
  let id := keys.findIdx fun key => internEq options key line
  (id, if id < keys.length then keys else keys ++ [line])

/-- `assign_ids` over one side: the ids of its lines, and the keys afterwards. -/
def assignIds (options : CompareBuildOptions) (keys : List Line) :
    List Line → List Nat × List Line
  | [] => ([], keys)
  | line :: lines =>
    let (id, keys') := intern options keys line
    let (ids, keys'') := assignIds options keys' lines
    (id :: ids, keys'')

/-- One row of the table, filled from the right: `nextRow` is the row below. -/
def dpRow (leftId weight : Nat) : List Nat → List Nat → List Nat
  | [], _ => [0]
  | rightId :: rightIds, nextRow =>
    let row := dpRow leftId weight rightIds nextRow.tail
    let best := max (nextRow.headD 0) (row.headD 0)
    let diagonal := weight + nextRow.tail.headD 0
    (if leftId = rightId ∧ diagonal > best then diagonal else best) :: row

/-- The table, top row first: `rows` lists the id and the weight of each left line. -/
def dpTable (rightIds : List Nat) : List (Nat × Nat) → List (List Nat)
  | [] => [List.replicate (rightIds.length + 1) 0]
  | (leftId, weight) :: rows =>
    let table := dpTable rightIds rows
    dpRow leftId weight rightIds (table.headD []) :: table

/-- What the traceback reads: both sides, their ids, the weights and the table. -/
structure ExactTables where
  leftLines : List Line
  rightLines : List Line
  leftIds : List Nat
  rightIds : List Nat
  leftMatchWeight : List Nat
  dp : List (List Nat)

/-- `at(i, j)`. -/
def ExactTables.at (t : ExactTables) (i j : Nat) : Nat :=
  (t.dp.getD i []).getD j 0

/-- The condition under which the traceback takes the diagonal. -/
def ExactTables.takesDiagonal (t : ExactTables) (i j : Nat) : Bool :=
  let diagonal := t.leftMatchWeight.getD i 1 + t.at (i + 1) (j + 1)
  t.leftIds.getD i 0 == t.rightIds.getD j 0 && (diagonal ≥ t.at (i + 1) j &&
    (diagonal ≥ t.at i (j + 1) && t.at i j == diagonal))

/-- The traceback loop. Every iteration advances `i` or `j`, so the lines left bound
the iterations. -/
def traceback (t : ExactTables) : Nat → Nat → Nat → List DiffOp
  | 0, i, j =>
    appendDeleteOps t.leftLines i t.leftLines.length ++
      appendInsertOps t.rightLines j t.rightLines.length
  | fuel + 1, i, j =>
    match t.leftLines[i]?, t.rightLines[j]? with
    | some left, some right =>
      if t.takesDiagonal i j then DiffOp.equal left right :: traceback t fuel (i + 1) (j + 1)
      else if t.at (i + 1) j ≥ t.at i (j + 1) then DiffOp.delete left :: traceback t fuel (i + 1) j
      else DiffOp.insert right :: traceback t fuel i (j + 1)
    | _, _ =>
      appendDeleteOps t.leftLines i t.leftLines.length ++
        appendInsertOps t.rightLines j t.rightLines.length

/-- The interning and the table of `AppendExactLineOps`. -/
def exactTables (options : CompareBuildOptions) (leftLines rightLines : List Line) : ExactTables :=
  let (leftIds, keys) := assignIds options [] leftLines
  let (rightIds, _) := assignIds options keys rightLines
  let classOccurrences (id : Nat) : Nat := (leftIds ++ rightIds).count id
  let leftMatchWeight := List.zipWith
    (fun line id => lineMatchWeight line (significantTokenBytes line) (classOccurrences id))
    leftLines leftIds
  { leftLines, rightLines, leftIds, rightIds, leftMatchWeight
    dp := dpTable rightIds (leftIds.zip leftMatchWeight) }

/-- `AppendExactLineOps`. -/
def appendExactLineOps (options : CompareBuildOptions) (leftLines rightLines : List Line) :
    List DiffOp :=
  traceback (exactTables options leftLines rightLines) (leftLines.length + rightLines.length) 0 0

/-! ### Unique-line anchors -/

structure AnchorInfo where
  leftCount : Nat := 0
  rightCount : Nat := 0
  leftIndex : Nat := 0
  rightIndex : Nat := 0

/-- `info_for(line)` followed by an update: the keys and their infos are one list, in
first-occurrence order. -/
def updateInfo (line : Line) (f : AnchorInfo → AnchorInfo) :
    List (Line × AnchorInfo) → List (Line × AnchorInfo)
  | [] => [(line, f {})]
  | (key, info) :: rest =>
    if key == line then (key, f info) :: rest else (key, info) :: updateInfo line f rest

/-- The two counting loops of `BuildUniqueLineAnchors`. -/
def anchorInfos (leftLines : List Line) (leftBegin leftEnd : Nat)
    (rightLines : List Line) (rightBegin rightEnd : Nat) : List (Line × AnchorInfo) :=
  let afterLeft := ((slice leftLines leftBegin leftEnd).zipIdx leftBegin).foldl
    (fun infos (line, i) =>
      updateInfo line (fun info => { info with leftCount := info.leftCount + 1, leftIndex := i }) infos)
    []
  ((slice rightLines rightBegin rightEnd).zipIdx rightBegin).foldl
    (fun infos (line, i) =>
      updateInfo line (fun info => { info with rightCount := info.rightCount + 1, rightIndex := i }) infos)
    afterLeft

/-- `std::pair`'s `operator<=`. -/
def pairLe (a b : Nat × Nat) : Bool :=
  a.1 < b.1 || (a.1 == b.1 && a.2 ≤ b.2)

/-- The sorted candidates: non-empty lines that occur once on each side. -/
def anchorCandidates (infos : List (Line × AnchorInfo)) : List (Nat × Nat) :=
  (infos.filterMap fun (line, info) =>
    if line.isEmpty then none
    else if info.leftCount == 1 && info.rightCount == 1 then some (info.leftIndex, info.rightIndex)
    else none).mergeSort pairLe

/-- The piles of the increasing-subsequence search. `kNoIndex` is `none`. -/
structure Piles where
  pileTops : List Nat := []
  pileCandidateIndices : List Nat := []
  predecessor : List (Option Nat) := []

/-- One candidate goes onto its pile. Candidates come in order, so the index of this one
is the number of predecessors recorded so far. -/
def Piles.place (p : Piles) (rightIndex : Nat) : Piles :=
  let candidateIndex := p.predecessor.length
  let pileIndex := lowerBound p.pileTops rightIndex
  let predecessor :=
    p.predecessor ++ [if pileIndex > 0 then p.pileCandidateIndices[pileIndex - 1]? else none]
  if pileIndex = p.pileTops.length then
    { pileTops := p.pileTops ++ [rightIndex]
      pileCandidateIndices := p.pileCandidateIndices ++ [candidateIndex]
      predecessor }
  else
    { pileTops := p.pileTops.set pileIndex rightIndex
      pileCandidateIndices := p.pileCandidateIndices.set pileIndex candidateIndex
      predecessor }

/-- The chain of predecessors from `index` on. A predecessor comes before its
successor, so the number of candidates bounds the chain. -/
def anchorChain (candidates : List (Nat × Nat)) (predecessor : List (Option Nat)) :
    Nat → Option Nat → List (Nat × Nat)
  | 0, _ => []
  | _ + 1, none => []
  | fuel + 1, some index =>
    candidates.getD index (0, 0) ::
      anchorChain candidates predecessor fuel (predecessor.getD index none)

/-- `BuildUniqueLineAnchors`. -/
def buildUniqueLineAnchors (leftLines : List Line) (leftBegin leftEnd : Nat)
    (rightLines : List Line) (rightBegin rightEnd : Nat) : List (Nat × Nat) :=
  let candidates := anchorCandidates
    (anchorInfos leftLines leftBegin leftEnd rightLines rightBegin rightEnd)
  let piles := candidates.foldl (fun (p : Piles) candidate => p.place candidate.2) {}
  (anchorChain candidates piles.predecessor candidates.length
    piles.pileCandidateIndices.getLast?).reverse

/-! ### The anchored fallback and the whole differ -/

/-- `kMaxAnchoredFallbackDepth`. -/
def kMaxAnchoredFallbackDepth : Nat := 256

/-- The loop over the anchors: `recur` aligns the gap before each anchor and the one
after the last. -/
def anchoredSegments (recur : Nat → Nat → Nat → Nat → List DiffOp)
    (leftLines rightLines : List Line) (leftSuffix rightSuffix : Nat) :
    List (Nat × Nat) → Nat → Nat → List DiffOp
  | [], segmentLeft, segmentRight => recur segmentLeft leftSuffix segmentRight rightSuffix
  | (anchorLeft, anchorRight) :: anchors, segmentLeft, segmentRight =>
    recur segmentLeft anchorLeft segmentRight anchorRight ++
      DiffOp.equal (leftLines.getD anchorLeft []) (rightLines.getD anchorRight []) ::
        anchoredSegments recur leftLines rightLines leftSuffix rightSuffix anchors
          (anchorLeft + 1) (anchorRight + 1)

/-- `AppendAnchoredFallbackOps`. -/
def appendAnchoredFallbackOps (options : CompareBuildOptions) (leftLines rightLines : List Line)
    (leftStart leftEnd rightStart rightEnd depth : Nat) : List DiffOp :=
  let ends := equalEnds (fun l r => linesEqualForDiff l r options)
    (slice leftLines leftStart leftEnd) (slice rightLines rightStart rightEnd)
  let leftBegin := leftStart + ends.1
  let rightBegin := rightStart + ends.1
  let leftSuffix := leftEnd - ends.2
  let rightSuffix := rightEnd - ends.2
  let coarse := appendDeleteOps leftLines leftBegin leftSuffix ++
    appendInsertOps rightLines rightBegin rightSuffix
  let middle :=
    if leftBegin = leftSuffix ∧ rightBegin = rightSuffix then []
    else if leftBegin = leftSuffix then appendInsertOps rightLines rightBegin rightSuffix
    else if rightBegin = rightSuffix then appendDeleteOps leftLines leftBegin leftSuffix
    else if !productExceeds (leftSuffix - leftBegin + 1) (rightSuffix - rightBegin + 1)
        kMaxLineLcsMatrixCells then
      appendExactLineOps options (slice leftLines leftBegin leftSuffix)
        (slice rightLines rightBegin rightSuffix)
    else if depth ≥ kMaxAnchoredFallbackDepth then coarse
    else
      let anchors := buildUniqueLineAnchors leftLines leftBegin leftSuffix
        rightLines rightBegin rightSuffix
      if anchors.isEmpty then coarse
      else
        anchoredSegments
          (fun lb le rb re =>
            appendAnchoredFallbackOps options leftLines rightLines lb le rb re (depth + 1))
          leftLines rightLines leftSuffix rightSuffix anchors leftBegin rightBegin
  appendEqualPairs leftLines leftStart leftBegin rightLines rightStart ++ middle ++
    appendEqualPairs leftLines leftSuffix leftEnd rightLines rightSuffix
termination_by kMaxAnchoredFallbackDepth - depth
decreasing_by omega

/-- `FindEqualEnds`. -/
structure EqualEnds where
  prefixLength : Nat
  leftSuffix : Nat
  rightSuffix : Nat

def findEqualEnds (leftLines rightLines : List Line) (options : CompareBuildOptions) : EqualEnds :=
  let ends := equalEnds (fun l r => linesEqualForDiff l r options) leftLines rightLines
  { prefixLength := ends.1
    leftSuffix := leftLines.length - ends.2
    rightSuffix := rightLines.length - ends.2 }

/-- `BuildLineDiffOpsInto`. -/
def buildLineDiffOps (leftLines rightLines : List Line) (options : CompareBuildOptions := {}) :
    List DiffOp :=
  let ends := findEqualEnds leftLines rightLines options
  let leftMiddle := slice leftLines ends.prefixLength ends.leftSuffix
  let rightMiddle := slice rightLines ends.prefixLength ends.rightSuffix
  let middle :=
    if leftMiddle.isEmpty && rightMiddle.isEmpty then []
    else if productExceeds (leftMiddle.length + 1) (rightMiddle.length + 1)
        kMaxLineLcsMatrixCells then
      appendAnchoredFallbackOps options leftMiddle rightMiddle 0 leftMiddle.length
        0 rightMiddle.length 0
    else appendExactLineOps options leftMiddle rightMiddle
  appendEqualPairs leftLines 0 ends.prefixLength rightLines 0 ++ middle ++
    appendEqualPairs leftLines ends.leftSuffix leftLines.length rightLines ends.rightSuffix

end Microide.Compare
