/-
The three-way merge model.

A model of `compare/MergeModel.cpp`: two diffs against the base are read as changes of
the base, changes that overlap or touch are grouped into hunks, and each hunk carries
the base, incoming and current text of its slice. A merge result is the base with each
hunk replaced by the text its choice names.

**The model.** Line numbers are natural numbers (`int` in the source). The three source
buffers are the texts themselves, and a view is the line it views. The file-level
conflict metadata and the display rows are not part of the merge and are left out.

What the model gives back is proved in `Microide.Compare.MergeProjections`.
-/

import Microide.Compare.LineDiffSoundness
import Microide.Lib.Changes

namespace Microide.Compare

open Lib Text

/-! ### Changes of one side -/

/-- `SideChange`: `start` is `base_start`, `stop` is `base_end`. -/
abbrev SideChange := Change Line

/-- The loop of `BuildSideChanges`. `baseLine` counts the base lines passed, and `pending` is
the change whose run of deletions and insertions is being read; its `stop` is
`baseLine`. -/
def sideChangesFrom (baseLine : Nat) (pending : Option SideChange) : List DiffOp → List SideChange
  | [] => pending.toList
  | op :: ops =>
    let change := pending.getD { start := baseLine, stop := baseLine, lines := [] }
    match op.kind with
    | .equal => pending.toList ++ sideChangesFrom (baseLine + 1) none ops
    | .delete => sideChangesFrom (baseLine + 1) (some { change with stop := baseLine + 1 }) ops
    | .insert =>
      sideChangesFrom baseLine (some { change with lines := change.lines ++ [op.text] }) ops

/-- `BuildSideChanges`. -/
def buildSideChanges (baseLines variantLines : List Line) : List SideChange :=
  sideChangesFrom 0 none (buildLineDiffOps baseLines variantLines)

/-- `SliceBaseLines`; a position is never negative here, so clamping only cuts at the
end. -/
def sliceBaseLines (baseLines : List Line) (start stop : Nat) : List Line :=
  slice baseLines start stop

/-- `std::clamp`, for `lo ≤ hi`. -/
def clamp (value lo hi : Nat) : Nat :=
  if value < lo then lo else if hi < value then hi else value

/-- The order by which `ApplySideChangesToSlice` sorts. -/
def sideChangeLe (a b : SideChange) : Bool :=
  if a.start ≠ b.start then a.start < b.start else a.stop ≤ b.stop

/-- The loop of `ApplySideChangesToSlice` from `cursor` on. -/
def applySortedChanges (baseLines : List Line) (stop : Nat) : Nat → List SideChange → List Line
  | cursor, [] => slice baseLines cursor stop
  | cursor, change :: changes =>
    let unchangedEnd := clamp change.start cursor stop
    slice baseLines cursor unchangedEnd ++ change.lines ++
      applySortedChanges baseLines stop (clamp change.stop unchangedEnd stop) changes

/-- `ApplySideChangesToSlice`. -/
def applySideChangesToSlice (baseLines : List Line) (start stop : Nat)
    (changes : List SideChange) : List Line :=
  applySortedChanges baseLines stop start (changes.mergeSort sideChangeLe)

/-! ### Hunks and the model -/

inductive MergeSide where
  | incoming
  | current
  deriving DecidableEq

structure TaggedChange where
  side : MergeSide
  change : SideChange

inductive MergeChoice where
  | base
  | incoming
  | current
  | both
  | bothCurrentFirst
  | bothIncomingFirst

structure MergeHunk where
  index : Nat := 0
  baseStart : Nat := 0
  baseEnd : Nat := 0
  baseLines : List Line := []
  incomingLines : List Line := []
  currentLines : List Line := []
  conflict : Bool := false
  choice : MergeChoice := .base
  bootstrapChoice : MergeChoice := .base

structure MergeModel where
  baseSource : List UInt8
  incomingSource : List UInt8
  currentSource : List UInt8
  baseLines : List Line
  incomingLines : List Line
  currentLines : List Line
  hunks : List MergeHunk

/-- `BootstrapMergeChoice`. -/
def bootstrapMergeChoice (hunk : MergeHunk) : MergeChoice :=
  if hunk.incomingLines = hunk.currentLines then .incoming
  else if hunk.incomingLines = hunk.baseLines then .current
  else if hunk.currentLines = hunk.baseLines then .incoming
  else .base

/-- `MergeChoiceLineViews`: the two runs of lines a choice contributes. -/
def mergeChoiceLineViews (hunk : MergeHunk) : MergeChoice → List Line × List Line
  | .base => (hunk.baseLines, [])
  | .incoming => (hunk.incomingLines, [])
  | .current => (hunk.currentLines, [])
  | .bothIncomingFirst =>
    if hunk.incomingLines = hunk.currentLines then (hunk.incomingLines, [])
    else if hunk.incomingLines = hunk.baseLines then (hunk.currentLines, [])
    else if hunk.currentLines = hunk.baseLines then (hunk.incomingLines, [])
    else (hunk.incomingLines, hunk.currentLines)
  | .both | .bothCurrentFirst =>
    if hunk.incomingLines = hunk.currentLines then (hunk.currentLines, [])
    else if hunk.incomingLines = hunk.baseLines then (hunk.currentLines, [])
    else if hunk.currentLines = hunk.baseLines then (hunk.incomingLines, [])
    else (hunk.currentLines, hunk.incomingLines)

/-- The order of `all_changes`: by start, then by end, incoming before current. -/
def taggedChangeLe (a b : TaggedChange) : Bool :=
  if a.change.start ≠ b.change.start then a.change.start < b.change.start
  else if a.change.stop ≠ b.change.stop then a.change.stop < b.change.stop
  else a.side = .incoming ∨ b.side = .current

/-- `TaggedChanges`. -/
def taggedChanges (changes : List SideChange) (side : MergeSide) : List TaggedChange :=
  changes.map fun change => { side, change }

/-- The linear pass over the sorted changes: `group` is the group being collected and
`groupMaxEnd` the furthest base line it reaches. A change joins when it overlaps or
touches the group. -/
def groupChanges (group : List TaggedChange) (groupMaxEnd : Nat) :
    List TaggedChange → List (List TaggedChange)
  | [] => if group.isEmpty then [] else [group]
  | c :: cs =>
    if group.isEmpty || c.change.start ≤ groupMaxEnd then
      groupChanges (group ++ [c]) (max groupMaxEnd c.change.stop) cs
    else group :: groupChanges [c] (max 0 c.change.stop) cs

/-- The changes of one side in a group, in the group's order. -/
def changesOfSide (side : MergeSide) (group : List TaggedChange) : List SideChange :=
  (group.filter fun c => c.side = side).map TaggedChange.change

/-- `flush_group`, on a non-empty group. -/
def flushGroup (baseLines : List Line) (group : List TaggedChange) : MergeHunk :=
  let first := group.headD { side := .incoming, change := { start := 0, stop := 0, lines := [] } }
  let baseStart := group.foldl (fun b c => min b c.change.start) first.change.start
  let baseEnd := group.foldl (fun e c => max e c.change.stop) first.change.stop
  let hunk : MergeHunk :=
    { baseStart, baseEnd
      baseLines := sliceBaseLines baseLines baseStart baseEnd
      incomingLines := applySideChangesToSlice baseLines baseStart baseEnd
        (changesOfSide .incoming group)
      currentLines := applySideChangesToSlice baseLines baseStart baseEnd
        (changesOfSide .current group) }
  { hunk with
    conflict := hunk.incomingLines ≠ hunk.currentLines ∧ hunk.incomingLines ≠ hunk.baseLines ∧
      hunk.currentLines ≠ hunk.baseLines
    choice := bootstrapMergeChoice hunk
    bootstrapChoice := bootstrapMergeChoice hunk }

/-- The order of the finished hunks. -/
def hunkLe (a b : MergeHunk) : Bool :=
  if a.baseStart ≠ b.baseStart then a.baseStart < b.baseStart else a.baseEnd ≤ b.baseEnd

/-- `has_phantom`: the splitter leaves an empty line after the text's last terminator. -/
def hasPhantom (source : List UInt8) : Bool :=
  source.isEmpty || source.getLast? == some lf

/-- `BuildMergeModel`. -/
def buildMergeModel (base incoming current : List UInt8) : MergeModel :=
  let baseLines := splitLineViews base
  let incomingLines := splitLineViews incoming
  let currentLines := splitLineViews current
  let phantomsAgree := hasPhantom base && hasPhantom incoming && hasPhantom current
  let realLines (lines : List Line) : List Line :=
    lines.take (if phantomsAgree && !lines.isEmpty then lines.length - 1 else lines.length)
  let incomingChanges := buildSideChanges (realLines baseLines) (realLines incomingLines)
  let currentChanges := buildSideChanges (realLines baseLines) (realLines currentLines)
  let allChanges := (taggedChanges incomingChanges .incoming ++
    taggedChanges currentChanges .current).mergeSort taggedChangeLe
  let hunks := ((groupChanges [] 0 allChanges).map (flushGroup baseLines)).mergeSort hunkLe
  { baseSource := base, incomingSource := incoming, currentSource := current
    baseLines, incomingLines, currentLines
    hunks := hunks.mapIdx fun i hunk => { hunk with index := i } }

/-- `ForEachMergeResultLine` from `baseCursor` on; `bootstrap` takes each hunk's
bootstrap choice instead of the recorded one. -/
def mergeResultFrom (baseLines : List Line) (bootstrap : Bool) :
    Nat → List MergeHunk → List Line
  | baseCursor, [] => slice baseLines baseCursor baseLines.length
  | baseCursor, hunk :: hunks =>
    let spans := mergeChoiceLineViews hunk
      (if bootstrap then bootstrapMergeChoice hunk else hunk.choice)
    slice baseLines baseCursor hunk.baseStart ++ (spans.1 ++ spans.2) ++
      mergeResultFrom baseLines bootstrap hunk.baseEnd hunks

/-- `CollectMergeResultLines`. -/
def collectMergeResultLines (model : MergeModel) (bootstrap : Bool) : List Line :=
  let lines := mergeResultFrom model.baseLines bootstrap 0 model.hunks
  if lines.isEmpty then [[]] else lines

/-- `MergeResultLines`. -/
def mergeResultLines (model : MergeModel) : List Line :=
  collectMergeResultLines model false

/-- The model after the same choice was made for every hunk. -/
def chooseAll (choice : MergeChoice) (model : MergeModel) : MergeModel :=
  { model with hunks := model.hunks.map fun hunk => { hunk with choice } }

end Microide.Compare
