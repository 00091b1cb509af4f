/-
The fold-region model of an editor tab.

Folds come from two facts of each line: its bracket bytes and the width of its indent. Both are
cached a line and spliced across an edit. The lines are partitioned into blocks, each with the
reduced word of its lines: the brackets and indent levels it leaves unmatched on either side.
A refresh brings the caches up to an edit, walks block words to the window it is asked for,
walks the window by line and goes on, by words again, until what the window left open is closed.
The collapsed folds are a list of their own, moved by each edit.

Stacks stand with their innermost entry first. A block whose word is invalid holds no word; the
starts of the blocks and the slices of the boundary states are computed where they are read.
-/

import Mathlib
import Microide.Editor.LineEditSpan
import Microide.Lib.BinarySearch
import Microide.Lib.LastWins
import Microide.Text.Lines

namespace Microide.Editor

open Text Lib

inductive FoldSource where
  | bracket
  | indent
  deriving DecidableEq

structure FoldRange where
  openerLine : Nat
  closerLine : Nat
  source : FoldSource
  deriving DecidableEq

abbrev BracketPairs := List (UInt8 × UInt8)

structure ComputeOptions where
  bracketPairs : BracketPairs
  useIndentSource : Bool := true
  tabSize : Nat := 4

namespace FoldingModel

def kTargetBlockLines : Nat := 1024

def kWindowPadLines : Nat := 96

def kMaxOpenDepth : Nat := 256

def kMaxForwardResolveLines : Nat := 8192

def kMaxBracketScanLineBytes : Nat := 100000

/-! ### Facts of a line -/

/-- `BracketTable`: the first of the pairs that a byte belongs to. -/
def pairForByte (pairs : BracketPairs) (byte : UInt8) : Option (UInt8 × UInt8) :=
  (pairs.take 31).find? fun pair => pair.1 = byte || pair.2 = byte

structure CachedBracket where
  column : Nat
  byte : UInt8

/-- `ScanLineAt`: the bracket bytes of a line that is not too long. -/
def scanLine (pairs : BracketPairs) (line : Line) : List CachedBracket :=
  if kMaxBracketScanLineBytes < line.length then []
  else line.zipIdx.filterMap fun entry =>
    if (pairForByte pairs entry.1).isSome then some ⟨entry.2, entry.1⟩ else none

/-- A slot of the indent cache. -/
inductive IndentSlot where
  | unmeasured
  | blank
  | width (columns : Nat)

/-- The visual width of the leading spaces and tabs; `none` where nothing follows them. -/
def measureIndentFrom (tabSize : Nat) : Nat → Line → Option Nat
  | _, [] => none
  | visual, byte :: rest =>
    if byte = 0x20 then measureIndentFrom tabSize (visual + 1) rest
    else if byte = 0x09 then measureIndentFrom tabSize (visual + tabSize - visual % tabSize) rest
    else some visual

/-- Widths stay below the two values the cache reserves. -/
def kMaxIndentWidth : Nat := 4294967293

def measuredSlot (tabSize : Nat) (line : Line) : IndentSlot :=
  match measureIndentFrom tabSize 0 line with
  | none => .blank
  | some columns => .width (min columns kMaxIndentWidth)

/-! ### Work budget -/

/-- The lines a call may still scan or measure; `none` is no bound. -/
abbrev WorkBudget := Option Nat

def available (budget : WorkBudget) : Bool := budget ≠ some 0

def spend (budget : WorkBudget) : WorkBudget := budget.map (· - 1)

/-! ### Walk state -/

structure StackBracket where
  close : UInt8
  line : Nat

structure StackIndent where
  level : Nat
  line : Nat

structure WalkState where
  brackets : List StackBracket := []
  indents : List StackIndent := []
  lastNonblank : Option Nat := none
  pendingLimit : Nat := 0
  pendingBrackets : Nat := 0
  pendingIndents : Nat := 0

namespace WalkState

def armPending (limit : Nat) (s : WalkState) : WalkState :=
  { s with
    pendingLimit := limit
    pendingBrackets := s.brackets.length
    pendingIndents := s.indents.length }

/-- A push; past twice the cap the outermost entries go and stop being pending. -/
def pushBracket (entry : StackBracket) (s : WalkState) : WalkState :=
  let brackets := entry :: s.brackets
  if 2 * kMaxOpenDepth < brackets.length then
    { s with
      brackets := brackets.take (brackets.length - kMaxOpenDepth)
      pendingBrackets := s.pendingBrackets - kMaxOpenDepth }
  else { s with brackets := brackets }

def pushIndent (entry : StackIndent) (s : WalkState) : WalkState :=
  let indents := entry :: s.indents
  if 2 * kMaxOpenDepth < indents.length then
    { s with
      indents := indents.take (indents.length - kMaxOpenDepth)
      pendingIndents := s.pendingIndents - kMaxOpenDepth }
  else { s with indents := indents }

def pendingResolved (s : WalkState) : Bool := s.pendingBrackets = 0 && s.pendingIndents = 0

end WalkState

/-- What a walk reports: nothing, or the folds that open at or before a line. -/
abbrev EmitLimit := Option Nat

/-- A fold as it is reported; one without a closer, or within a line, is none. -/
def foldRange? (emit : EmitLimit) (opener : Nat) (closer : Option Nat) (source : FoldSource) :
    Option FoldRange :=
  match emit, closer with
  | some limit, some closer =>
    if opener < closer ∧ opener ≤ limit then some ⟨opener, closer, source⟩ else none
  | _, _ => none

/-- The state of a walk and the folds it has reported. -/
structure Walk where
  state : WalkState := {}
  out : List FoldRange := []

namespace Walk

/-- A closer meets the innermost open bracket or is dropped. -/
def closeBracket (emit : EmitLimit) (close : UInt8) (line : Nat) (w : Walk) : Walk :=
  match w.state.brackets with
  | [] => w
  | top :: rest =>
    if top.close = close then
      { state :=
          { w.state with
            brackets := rest
            pendingBrackets :=
              if top.line ≤ w.state.pendingLimit then w.state.pendingBrackets - 1
              else w.state.pendingBrackets }
        out := w.out ++ (foldRange? emit top.line (some line) .bracket).toList }
    else w

/-- Every open level at or above `threshold` closes. -/
def closeIndents (emit : EmitLimit) (threshold : Nat) (closer : Option Nat) (w : Walk) : Walk :=
  let popped := w.state.indents.takeWhile fun top => threshold ≤ top.level
  { state :=
      { w.state with
        indents := w.state.indents.dropWhile fun top => threshold ≤ top.level
        pendingIndents :=
          w.state.pendingIndents - popped.countP fun top => top.line ≤ w.state.pendingLimit }
    out := w.out ++ popped.filterMap fun top => foldRange? emit top.line closer .indent }

/-- One cached bracket of a line. -/
def bracket (pairs : BracketPairs) (suppressed : Nat → Bool) (emit : EmitLimit) (line : Nat)
    (w : Walk) (event : CachedBracket) : Walk :=
  match pairForByte pairs event.byte with
  | none => w
  | some pair =>
    if suppressed event.column || pair.1 = pair.2 then w
    else if event.byte = pair.1 then { w with state := w.state.pushBracket ⟨pair.2, line⟩ }
    else w.closeBracket emit event.byte line

/-- The indent of a line that is not blank. -/
def indent (emit : EmitLimit) (line columns : Nat) (w : Walk) : Walk :=
  let closed := w.closeIndents emit columns w.state.lastNonblank
  { closed with
    state := { closed.state.pushIndent ⟨columns, line⟩ with lastNonblank := some line } }

/-- `FlushIndentsAtEof`. -/
def flushIndentsAtEof (emit : EmitLimit) (w : Walk) : Walk :=
  { state := { w.state with indents := [] }
    out := w.out ++
      w.state.indents.filterMap fun top => foldRange? emit top.line w.state.lastNonblank .indent }

end Walk

/-! ### Blocks -/

/-- A bracket or closer with its line in the block. -/
structure WordBracket where
  close : UInt8
  line : Nat

structure WordIndent where
  level : Nat
  line : Nat

/-- Every level at or above `threshold` that was open before the block closes, at a line of the
block or, with `none`, at the last nonblank line before it. -/
structure WordDedent where
  threshold : Nat
  closerLine : Option Nat

structure Block where
  lineCount : Nat
  eventCount : Nat := 0
  valid : Bool := false
  lastNonblank : Option Nat := none
  bracketClosers : List WordBracket := []
  bracketOpeners : List WordBracket := []
  indentDedents : List WordDedent := []
  indentOpeners : List WordIndent := []

/-- `ApplyBlockWord`. -/
def applyBlockWord (block : Block) (blockStart : Nat) (emit : EmitLimit) (w : Walk) : Walk :=
  let w := block.bracketClosers.foldl
    (fun w closer => w.closeBracket emit closer.close (blockStart + closer.line)) w
  let w := block.indentDedents.foldl (fun w dedent =>
    w.closeIndents emit dedent.threshold
      (match dedent.closerLine with
        | none => w.state.lastNonblank
        | some line => some (blockStart + line))) w
  let s := block.bracketOpeners.foldl
    (fun s opener => s.pushBracket ⟨opener.close, blockStart + opener.line⟩) w.state
  let s := block.indentOpeners.foldl
    (fun s opener => s.pushIndent ⟨opener.level, blockStart + opener.line⟩) s
  { w with
    state :=
      match block.lastNonblank with
      | none => s
      | some line => { s with lastNonblank := some (blockStart + line) } }

/-- The brackets of a block so far: the closers that reach before it, and its open brackets. -/
structure BracketWord where
  closers : List WordBracket := []
  stack : List WordBracket := []

namespace BracketWord

def bracket (pairs : BracketPairs) (line : Nat) (word : BracketWord) (event : CachedBracket) :
    BracketWord :=
  match pairForByte pairs event.byte with
  | none => word
  | some pair =>
    if pair.1 = pair.2 then word
    else if event.byte = pair.1 then { word with stack := ⟨pair.2, line⟩ :: word.stack }
    else
      match word.stack with
      | top :: rest => if top.close = event.byte then { word with stack := rest } else word
      | [] => { word with closers := word.closers ++ [⟨event.byte, line⟩] }

end BracketWord

/-- The indents of a block so far; only a threshold below all before it is recorded. -/
structure IndentWord where
  dedents : List WordDedent := []
  stack : List WordIndent := []
  minThreshold : Option Nat := none
  lastNonblank : Option Nat := none

namespace IndentWord

def indent (line columns : Nat) (word : IndentWord) : IndentWord :=
  let stack := word.stack.dropWhile fun top => columns ≤ top.level
  let reaches : Bool := stack.isEmpty && word.minThreshold.all fun least => columns < least
  { dedents := if reaches then word.dedents ++ [⟨columns, word.lastNonblank⟩] else word.dedents
    stack := ⟨columns, line⟩ :: stack
    minThreshold := if reaches then some columns else word.minThreshold
    lastNonblank := some line }

end IndentWord

/-- The walk state at a block boundary. -/
structure PrefixState where
  brackets : List StackBracket := []
  indents : List StackIndent := []
  eventIndex : Nat := 0
  lastNonblank : Option Nat := none

end FoldingModel

open FoldingModel in
structure FoldingModel where
  lineBrackets : List CachedBracket := []
  lineBracketCount : List Nat := []
  bracketCacheValidThrough : Nat := 0
  bracketCachePairs : BracketPairs := []
  lineIndent : List IndentSlot := []
  lineIndentTabSize : Nat := 0
  blocks : List Block := []
  prefixStates : List PrefixState := []
  /-- The ranges of the last refresh, one an opener. -/
  ranges : List FoldRange := []
  resolvedFirstLine : Nat := 0
  resolvedLastLine : Nat := 0
  isResolved : Bool := false
  collapsed : List FoldRange := []
  documentLineCount : Nat := 0
  budgetMultiplier : Nat := 1
  indentSourceEnabled : Bool := true
  complete : Bool := true

namespace FoldingModel

/-! ### Block partition -/

def blockStart (m : FoldingModel) (block : Nat) : Nat :=
  ((m.blocks.take block).map (·.lineCount)).sum

def blockStarts (m : FoldingModel) : List Nat := (List.range m.blocks.length).map m.blockStart

def blockIndexForLine (m : FoldingModel) (line : Nat) : Nat :=
  if m.blocks = [] then 0 else partitionPoint (fun start => decide (start ≤ line)) m.blockStarts - 1

/-- The events of lines `start` to `stop`, as the cache counts them. -/
def eventsBetween (m : FoldingModel) (start stop : Nat) : Nat :=
  ((m.lineBracketCount.drop start).take (stop - start)).sum

def eventIndexForLine (m : FoldingModel) (line : Nat) : Nat :=
  if m.blocks = [] then 0
  else
    let block := m.blockIndexForLine line
    ((m.blocks.take block).map (·.eventCount)).sum +
      m.eventsBetween (m.blockStart block) (min line m.lineBracketCount.length)

def recomputeBlockEventCount (m : FoldingModel) (block : Nat) : FoldingModel :=
  let start := m.blockStart block
  { m with
    blocks := m.blocks.modify block fun b =>
      { b with
        eventCount :=
          m.eventsBetween start (min (start + b.lineCount) m.lineBracketCount.length) } }

/-- Blocks of the target size for so many lines, their words to be built. -/
def freshBlocks (lineCount : Nat) : List Block :=
  (List.range ((lineCount + kTargetBlockLines - 1) / kTargetBlockLines)).map fun i =>
    { lineCount := min (lineCount - i * kTargetBlockLines) kTargetBlockLines }

def invalidatePrefixFrom (m : FoldingModel) (boundary : Nat) : FoldingModel :=
  { m with prefixStates := m.prefixStates.take boundary }

def repartitionAll (m : FoldingModel) (lineCount : Nat) : FoldingModel :=
  let m := { m with blocks := freshBlocks lineCount, documentLineCount := lineCount }
  (List.range m.blocks.length).foldl recomputeBlockEventCount (m.invalidatePrefixFrom 0)

/-- The last block an edit of the known lines `begin` to `cachedEnd` reaches. -/
def lastEditedBlock (m : FoldingModel) (begin cachedEnd : Nat) : Nat :=
  if begin < cachedEnd then m.blockIndexForLine (cachedEnd - 1) else m.blockIndexForLine begin

/-- Blocks `firstBlock` to `lastBlock` give way to fresh ones for the lines they hold now. -/
def replaceBlocks (m : FoldingModel) (lineCount firstBlock lastBlock cachedEnd currentEnd : Nat) :
    FoldingModel :=
  let region := (m.blocks.drop firstBlock).take (lastBlock + 1 - firstBlock)
  let regionOldLines := (region.map (·.lineCount)).sum
  if regionOldLines + currentEnd < cachedEnd then m.repartitionAll lineCount
  else
    let fresh := freshBlocks (regionOldLines + currentEnd - cachedEnd)
    let m :=
      { m with
        blocks := m.blocks.take firstBlock ++ fresh ++ m.blocks.drop (lastBlock + 1)
        documentLineCount := lineCount }
    -- the state at the start of the first of them still holds, the next one's does not
    (List.range' firstBlock fresh.length).foldl recomputeBlockEventCount
      (m.invalidatePrefixFrom (firstBlock + 1))

def syncBlocks (m : FoldingModel) (lineCount : Nat) (span : LineEditSpan) (resetAll : Bool) :
    FoldingModel :=
  if resetAll || m.blocks.isEmpty then m.repartitionAll lineCount
  else
    match span.begin with
    | none => if m.documentLineCount ≠ lineCount then m.repartitionAll lineCount else m
    | some begin =>
      let cachedEnd := span.resolvedCachedEnd m.documentLineCount
      let currentEnd := span.resolvedCurrentEnd lineCount
      if cachedEnd < begin ∨ m.documentLineCount < begin ∨ m.documentLineCount < cachedEnd ∨
          lineCount < currentEnd ∨ m.documentLineCount - cachedEnd ≠ lineCount - currentEnd then
        m.repartitionAll lineCount
      else
        m.replaceBlocks lineCount (m.blockIndexForLine begin) (m.lastEditedBlock begin cachedEnd)
          cachedEnd currentEnd

/-! ### Per-line caches -/

def syncLineIndentCache (m : FoldingModel) (lineCount tabSize : Nat) (span : LineEditSpan) :
    FoldingModel :=
  let cached := m.lineIndent.length
  let tabSizeChanged := m.lineIndentTabSize ≠ tabSize
  let cachedEnd := span.resolvedCachedEnd cached
  let currentEnd := span.resolvedCurrentEnd lineCount
  let lineIndent :=
    match span.begin with
    | none =>
      if ¬ tabSizeChanged ∧ cached = lineCount then m.lineIndent
      else List.replicate lineCount .unmeasured
    | some begin =>
      -- the lines behind the edit must be as many on both sides
      if ¬ tabSizeChanged ∧ begin ≤ cachedEnd ∧ begin ≤ cached ∧
          cached - cachedEnd = lineCount - currentEnd then
        m.lineIndent.take begin ++ List.replicate (currentEnd - begin) .unmeasured ++
          m.lineIndent.drop cachedEnd
      else List.replicate lineCount .unmeasured
  { m with lineIndent := lineIndent, lineIndentTabSize := tabSize }

/-- The bracket cache cut to its first `keep` lines. -/
def keepBracketLines (m : FoldingModel) (keep : Nat) : FoldingModel :=
  { m with
    lineBracketCount := m.lineBracketCount.take keep
    lineBrackets := m.lineBrackets.take (m.eventsBetween 0 keep)
    bracketCacheValidThrough := keep }

def syncLineBracketCache (m : FoldingModel) (lines : List Line) (pairs : BracketPairs)
    (span : LineEditSpan) (pairsChanged : Bool) : FoldingModel :=
  if pairsChanged then
    { m with
      bracketCachePairs := pairs
      lineBrackets := []
      lineBracketCount := []
      bracketCacheValidThrough := 0 }
  else
    let m := if lines.length < m.bracketCacheValidThrough then m.keepBracketLines lines.length else m
    match span.begin with
    | none => m
    | some begin =>
      if m.bracketCacheValidThrough ≤ begin then m
      else
        match span.cachedEnd, span.currentEnd with
        | some cachedEnd, some currentEnd =>
          if m.bracketCacheValidThrough < cachedEnd ∨ lines.length < currentEnd then
            m.keepBracketLines begin
          else
            -- the replaced lines are scanned again and both arrays spliced
            let firstEvent := m.eventIndexForLine begin
            let lastEvent := firstEvent + m.eventsBetween begin cachedEnd
            let scanned := ((lines.drop begin).take (currentEnd - begin)).map (scanLine pairs)
            let counts := m.lineBracketCount.take begin ++ scanned.map (·.length) ++
              m.lineBracketCount.drop cachedEnd
            { m with
              lineBrackets :=
                m.lineBrackets.take firstEvent ++ scanned.flatten ++ m.lineBrackets.drop lastEvent
              lineBracketCount := counts
              bracketCacheValidThrough := counts.length }
        | _, _ => m.keepBracketLines begin

/-- The next line's brackets scanned and counted to its block. -/
def extendOneLine (pairs : BracketPairs) (lines : List Line) (m : FoldingModel) : FoldingModel :=
  let line := m.bracketCacheValidThrough
  let events := scanLine pairs (lines.getD line [])
  { m with
    lineBrackets := m.lineBrackets ++ events
    lineBracketCount := m.lineBracketCount ++ [events.length]
    bracketCacheValidThrough := line + 1
    blocks := m.blocks.modify (m.blockIndexForLine line) fun b =>
      { b with eventCount := b.eventCount + events.length } }

/-- The loop of `ExtendBracketCache` over so many lines. -/
def extendLines (pairs : BracketPairs) (lines : List Line) :
    Nat → FoldingModel → WorkBudget → Bool × FoldingModel × WorkBudget
  | 0, m, budget => (true, m, budget)
  | count + 1, m, budget =>
    if available budget then extendLines pairs lines count (m.extendOneLine pairs lines) (spend budget)
    else (false, m, budget)

/-- `ExtendBracketCache`: whether the lines before `neededEnd` are cached. -/
def extendBracketCache (pairs : BracketPairs) (lines : List Line) (neededEnd : Nat)
    (m : FoldingModel) (budget : WorkBudget) : Bool × FoldingModel × WorkBudget :=
  let target := min neededEnd lines.length
  if pairs = [] ∨ target ≤ m.bracketCacheValidThrough then (true, m, budget)
  else extendLines pairs lines (target - m.bracketCacheValidThrough) m budget

/-- `IndentAt`: a slot, measured when it was not. -/
def indentAt (tabSize : Nat) (lines : List Line) (line : Nat) (m : FoldingModel)
    (budget : WorkBudget) : IndentSlot × FoldingModel × WorkBudget :=
  match m.lineIndent.getD line .unmeasured with
  | .unmeasured =>
    let slot := measuredSlot tabSize (lines.getD line [])
    (slot, { m with lineIndent := m.lineIndent.set line slot }, spend budget)
  | slot => (slot, m, budget)

/-! ### Block summaries -/

/-- The bracket word of lines `line` to `line + count`, their events from `event` on. -/
def reduceBrackets (pairs : BracketPairs) (m : FoldingModel) (start : Nat) :
    Nat → Nat → Nat → BracketWord → BracketWord
  | 0, _, _, word => word
  | count + 1, line, event, word =>
    let events := m.lineBracketCount.getD line 0
    reduceBrackets pairs m start count (line + 1) (event + events)
      (((m.lineBrackets.drop event).take events).foldl (BracketWord.bracket pairs (line - start))
        word)

def reduceIndents (tabSize : Nat) (lines : List Line) (start : Nat) :
    Nat → Nat → IndentWord → FoldingModel → WorkBudget → IndentWord × FoldingModel × WorkBudget
  | 0, _, word, m, budget => (word, m, budget)
  | count + 1, line, word, m, budget =>
    let measured := m.indentAt tabSize lines line budget
    reduceIndents tabSize lines start count (line + 1)
      (match measured.1 with
        | .width columns => word.indent (line - start) columns
        | _ => word)
      measured.2.1 measured.2.2

/-- `EnsureBlockSummary`: whether the block's word is there. -/
def ensureBlockSummary (options : ComputeOptions) (lines : List Line) (block eventIndex : Nat)
    (m : FoldingModel) (budget : WorkBudget) : Bool × FoldingModel × WorkBudget :=
  match m.blocks[block]? with
  | none => (false, m, budget)
  | some b =>
    if b.valid then (true, m, budget)
    else if !available budget then (false, m, budget)
    else
      let start := m.blockStart block
      let stop := min (start + b.lineCount) lines.length
      let extended := m.extendBracketCache options.bracketPairs lines stop budget
      if !extended.1 then (false, extended.2)
      else
        let m := extended.2.1
        let brackets :=
          if options.bracketPairs = [] then {}
          else reduceBrackets options.bracketPairs m start (stop - start) start eventIndex {}
        let indents :=
          if options.useIndentSource then
            reduceIndents (max options.tabSize 1) lines start (stop - start) start {} m extended.2.2
          else ({}, m, extended.2.2)
        (true,
          { indents.2.1 with
            blocks := indents.2.1.blocks.modify block fun b =>
              { b with
                valid := true
                lastNonblank := indents.1.lastNonblank
                bracketClosers := brackets.closers
                bracketOpeners := brackets.stack.reverse
                indentDedents := indents.1.dedents
                indentOpeners := indents.1.stack.reverse } },
          indents.2.2)

def loadPrefixState (m : FoldingModel) (boundary : Nat) : WalkState :=
  match m.prefixStates[boundary]? with
  | none => {}
  | some p => { brackets := p.brackets, indents := p.indents, lastNonblank := p.lastNonblank }

def prefixEventIndex (m : FoldingModel) (boundary : Nat) : Nat :=
  (m.prefixStates[boundary]?.map (·.eventIndex)).getD 0

/-- Boundaries are only appended in order. -/
def storePrefixState (m : FoldingModel) (state : WalkState) (eventIndex : Nat) : FoldingModel :=
  { m with
    prefixStates := m.prefixStates ++
      [{ brackets := state.brackets
         indents := state.indents
         eventIndex := eventIndex
         lastNonblank := state.lastNonblank }] }

/-- The event count of a block. -/
def eventCountOf (m : FoldingModel) (block : Nat) : Nat :=
  (m.blocks[block]?.map (·.eventCount)).getD 0

/-- The loop of `EnsurePrefixState`: at most so many boundaries more. -/
def growPrefixStates (options : ComputeOptions) (lines : List Line) :
    Nat → WalkState → Nat → FoldingModel → WorkBudget → FoldingModel × WorkBudget
  | 0, _, _, m, budget => (m, budget)
  | count + 1, state, eventIndex, m, budget =>
    let block := m.prefixStates.length - 1
    if m.blocks.length ≤ block then (m, budget)
    else
      let ensured := m.ensureBlockSummary options lines block eventIndex budget
      if !ensured.1 then ensured.2
      else
        let m := ensured.2.1
        let applied := match m.blocks[block]? with
          | none => state
          | some b => (applyBlockWord b (m.blockStart block) none { state := state }).state
        let eventIndex := eventIndex + m.eventCountOf block
        growPrefixStates options lines count applied eventIndex
          (m.storePrefixState applied eventIndex) ensured.2.2

/-- `EnsurePrefixState`: the highest boundary up to `boundary` whose state is known. -/
def ensurePrefixState (options : ComputeOptions) (lines : List Line) (boundary : Nat)
    (m : FoldingModel) (budget : WorkBudget) : Nat × FoldingModel × WorkBudget :=
  if m.blocks = [] then (0, m, budget)
  else
    let m := if m.prefixStates = [] then m.storePrefixState {} 0 else m
    if boundary < m.prefixStates.length then (boundary, m, budget)
    else
      let last := m.prefixStates.length - 1
      let grown := growPrefixStates options lines (boundary - last) (m.loadPrefixState last)
        (m.prefixEventIndex last) m budget
      (grown.1.prefixStates.length - 1, grown)

/-! ### Walking lines -/

/-- A walk by line with the index of the next event. -/
structure LineWalk where
  walk : Walk
  eventIndex : Nat
  model : FoldingModel
  budget : WorkBudget

def walkLine (options : ComputeOptions) (lines : List Line) (suppressed : Nat → Nat → Bool)
    (emit : EmitLimit) (line : Nat) (l : LineWalk) : LineWalk :=
  let events := if options.bracketPairs = [] then 0 else l.model.lineBracketCount.getD line 0
  let walk := ((l.model.lineBrackets.drop l.eventIndex).take events).foldl
    (Walk.bracket options.bracketPairs (suppressed line) emit line) l.walk
  let l := { l with walk := walk, eventIndex := l.eventIndex + events }
  if !options.useIndentSource then l
  else
    let measured := l.model.indentAt (max options.tabSize 1) lines line l.budget
    { l with
      walk := match measured.1 with
        | .width columns => l.walk.indent emit line columns
        | _ => l.walk
      model := measured.2.1
      budget := measured.2.2 }

/-- `WalkLines` over so many lines. -/
def walkLines (options : ComputeOptions) (lines : List Line) (suppressed : Nat → Nat → Bool)
    (emit : EmitLimit) : Nat → Nat → LineWalk → LineWalk
  | 0, _, l => l
  | count + 1, line, l =>
    walkLines options lines suppressed emit count (line + 1)
      (walkLine options lines suppressed emit line l)

/-! ### Ranges -/

/-- The order of the candidates: by opener, brackets first, the widest first. -/
def candidateRank (range : FoldRange) : Nat ×ₗ Nat ×ₗ Natᵒᵈ :=
  toLex (range.openerLine,
    toLex (match range.source with | .bracket => 0 | .indent => 1, OrderDual.toDual range.closerLine))

/-- `FinishRanges`: the first candidate of each opener. -/
def finishRanges (candidates : List FoldRange) : List FoldRange :=
  (sortBy candidateRank candidates).destutter fun a b => a.openerLine ≠ b.openerLine

/-- `std::lower_bound` by opener. -/
def lowerBound (ranges : List FoldRange) (opener : Nat) : Nat :=
  partitionPoint (fun range => decide (range.openerLine < opener)) ranges

/-- `IndexOfOpener`, as the range it finds. -/
def rangeOfOpener (ranges : List FoldRange) (opener : Nat) : Option FoldRange :=
  ranges[lowerBound ranges opener]?.filter fun range => range.openerLine = opener

def foldStartingAt (m : FoldingModel) (line : Nat) : Option FoldRange := rangeOfOpener m.ranges line

/-! ### Collapsed folds -/

def collapseRange (m : FoldingModel) (range : FoldRange) : FoldingModel :=
  if range.closerLine ≤ range.openerLine then m
  else
    let place := lowerBound m.collapsed range.openerLine
    match rangeOfOpener m.collapsed range.openerLine with
    | some _ => { m with collapsed := m.collapsed.set place range }
    | none => { m with collapsed := m.collapsed.insertIdx place range }

def collapse (m : FoldingModel) (opener : Nat) : FoldingModel :=
  match m.foldStartingAt opener with
  | none => m
  | some range => m.collapseRange range

def isCollapsedAtOpener (m : FoldingModel) (line : Nat) : Bool :=
  (rangeOfOpener m.collapsed line).isSome

def expand (m : FoldingModel) (opener : Nat) : FoldingModel :=
  if m.isCollapsedAtOpener opener then
    { m with collapsed := m.collapsed.eraseIdx (lowerBound m.collapsed opener) }
  else m

def toggleFold (m : FoldingModel) (opener : Nat) : FoldingModel :=
  if m.isCollapsedAtOpener opener then m.expand opener else m.collapse opener

/-- Both lists by opener; where they share one the resolved range is the one kept. -/
def mergeRanges : List FoldRange → List FoldRange → List FoldRange
  | collapsed, [] => collapsed
  | [], ranges => ranges
  | c :: collapsed, r :: ranges =>
    if r.openerLine < c.openerLine then r :: mergeRanges (c :: collapsed) ranges
    else if c.openerLine < r.openerLine then c :: mergeRanges collapsed (r :: ranges)
    else r :: mergeRanges collapsed ranges
  termination_by collapsed ranges => collapsed.length + ranges.length

def collapseAllResolved (m : FoldingModel) : FoldingModel :=
  if m.ranges = [] then m else { m with collapsed := mergeRanges m.collapsed m.ranges }

def expandAll (m : FoldingModel) : FoldingModel := { m with collapsed := [] }

/-- A line moved by an edit: those from its begin on go by the change in the number of lines. -/
def shiftLine (begin cachedEnd currentEnd line : Nat) : Nat :=
  if line < begin then line else line + currentEnd - cachedEnd

/-- A fold moved by an edit, unless the edit swallowed it. -/
def shiftRange (begin cachedEnd currentEnd lineCount : Nat) (range : FoldRange) : Option FoldRange :=
  let opener := shiftLine begin cachedEnd currentEnd range.openerLine
  let closer := shiftLine begin cachedEnd currentEnd range.closerLine
  if closer ≤ opener ∨ lineCount ≤ opener then none
  else some { range with openerLine := opener, closerLine := min closer (lineCount - 1) }

def shiftCollapsedRanges (m : FoldingModel) (span : LineEditSpan) (lineCount : Nat) : FoldingModel :=
  match span.begin with
  | none => m
  | some begin =>
    { m with
      collapsed := m.collapsed.filterMap (shiftRange begin
        (span.resolvedCachedEnd m.documentLineCount) (span.resolvedCurrentEnd lineCount) lineCount) }

/-- A collapsed fold that opens inside the resolved window is what is resolved there now. -/
def revalidated (m : FoldingModel) (entry : FoldRange) : Option FoldRange :=
  if m.resolvedFirstLine ≤ entry.openerLine ∧ entry.openerLine ≤ m.resolvedLastLine then
    rangeOfOpener m.ranges entry.openerLine
  else some entry

def revalidateCollapsedInWindow (m : FoldingModel) : FoldingModel :=
  if m.isResolved then { m with collapsed := m.collapsed.filterMap m.revalidated } else m

/-! ### Refresh -/

def clear (m : FoldingModel) : FoldingModel := { indentSourceEnabled := m.indentSourceEnabled }

/-- The bound of a call, more with each call that did not complete. -/
def budgetOf (maxLines multiplier : Nat) : WorkBudget :=
  if maxLines = 0 then none
  else if (2 ^ 64 - 1) / multiplier < maxLines then some (2 ^ 64 - 2)
  else some (maxLines * multiplier)

/-- Words applied from a block on until the limit or until nothing of the window is open: whether
no word was missing, the line that was reached, and the walk. -/
def forwardBlocks (options : ComputeOptions) (lines : List Line) (forwardLimit : Nat)
    (emit : EmitLimit) : Nat → Nat → Nat → LineWalk → Bool × Nat × LineWalk
  | 0, line, _, l => (true, line, l)
  | count + 1, line, block, l =>
    if forwardLimit ≤ line || l.walk.state.pendingResolved then (true, line, l)
    else
      let ensured := l.model.ensureBlockSummary options lines block l.eventIndex l.budget
      let l := { l with model := ensured.2.1, budget := ensured.2.2 }
      if !ensured.1 then (false, line, l)
      else
        match l.model.blocks[block]? with
        | none => (false, line, l)
        | some b =>
          let start := l.model.blockStart block
          forwardBlocks options lines forwardLimit emit count (start + b.lineCount) (block + 1)
            { l with
              walk := applyBlockWord b start emit l.walk
              eventIndex := l.eventIndex + b.eventCount }

/-- The forward walk from the end of the walked lines: it finishes the block by line and takes
whole words then. -/
def walkForward (options : ComputeOptions) (lines : List Line) (suppressed : Nat → Nat → Bool)
    (emit : EmitLimit) (line : Nat) (l : LineWalk) : Bool × Nat × LineWalk :=
  if lines.length ≤ line || l.walk.state.pendingResolved then (true, line, l)
  else
    let forwardLimit :=
      if kMaxForwardResolveLines < lines.length - line then line + kMaxForwardResolveLines
      else lines.length
    let block := l.model.blockIndexForLine line
    let blockLines := (l.model.blocks[block]?.map (·.lineCount)).getD 0
    let partialEnd := min (l.model.blockStart block + blockLines) lines.length
    let extended := l.model.extendBracketCache options.bracketPairs lines partialEnd l.budget
    let l := { l with model := extended.2.1, budget := extended.2.2 }
    if !extended.1 then (false, line, l)
    else
      let l := walkLines options lines suppressed emit (partialEnd - line) line l
      forwardBlocks options lines forwardLimit emit l.model.blocks.length partialEnd (block + 1) l

/-- The candidates of a window and whether they are all of them. -/
def resolveWindow (options : ComputeOptions) (lines : List Line) (suppressed : Nat → Nat → Bool)
    (windowFirst windowLast : Nat) (m : FoldingModel) (budget : WorkBudget) :
    Bool × List FoldRange × FoldingModel :=
  let windowBlock := m.blockIndexForLine windowFirst
  let reached := m.ensurePrefixState options lines windowBlock budget
  let m := reached.2.1
  let scanFrom := m.blockStart reached.1
  let extended :=
    m.extendBracketCache options.bracketPairs lines (windowLast + 1) reached.2.2
  -- a partial resolve stops at the cached lines: a line behind them would read as one without
  -- brackets
  let lineWalkEnd :=
    if extended.1 then windowLast + 1 else max scanFrom extended.2.1.bracketCacheValidThrough
  let emitFrom := max scanFrom (min windowFirst lineWalkEnd)
  let emit : EmitLimit := some windowLast
  let l : LineWalk :=
    { walk := { state := m.loadPrefixState reached.1 }
      eventIndex := m.prefixEventIndex reached.1
      model := extended.2.1
      budget := extended.2.2 }
  let l := walkLines options lines suppressed none (emitFrom - scanFrom) scanFrom l
  let l := walkLines options lines suppressed emit (lineWalkEnd - emitFrom) emitFrom l
  let armed := { l with walk := { l.walk with state := l.walk.state.armPending windowLast } }
  let forward := walkForward options lines suppressed emit lineWalkEnd armed
  let walk :=
    if lines.length ≤ forward.2.1 then forward.2.2.walk.flushIndentsAtEof emit
    else forward.2.2.walk
  (decide (windowBlock ≤ reached.1) && extended.1 && forward.1, walk.out, forward.2.2.model)

/-- What a caller asks of a refresh; no last line means the end of the document. -/
structure RefreshRequest where
  lines : List Line
  options : ComputeOptions
  firstLine : Nat
  lastLine : Option Nat
  maxLines : Nat := 0
  span : LineEditSpan := LineEditSpan.fullRebuild
  /-- The bracket at this line and column is in a string or a comment. -/
  suppressed : Nat → Nat → Bool := fun _ _ => false

namespace RefreshRequest

variable (request : RefreshRequest)

def clampedFirst : Nat := min request.firstLine (request.lines.length - 1)

def clampedLast : Nat :=
  match request.lastLine with
  | none => request.lines.length - 1
  | some last => min last (request.lines.length - 1)

def windowFirst : Nat := request.clampedFirst - kWindowPadLines

def windowLast : Nat :=
  min (request.lines.length - 1) (max request.clampedFirst request.clampedLast + kWindowPadLines)

end RefreshRequest

/-- Every block word is to be built again. -/
def resetsAll (m : FoldingModel) (options : ComputeOptions) : Bool :=
  m.bracketCachePairs ≠ options.bracketPairs ||
    (m.lineIndentTabSize ≠ 0 && m.lineIndentTabSize ≠ max options.tabSize 1) ||
    m.indentSourceEnabled ≠ options.useIndentSource

/-- The caches brought up to the lines of the request. -/
def syncCaches (m : FoldingModel) (request : RefreshRequest) : FoldingModel :=
  let options := request.options
  let shifted := { m with indentSourceEnabled := options.useIndentSource }.shiftCollapsedRanges
    request.span request.lines.length
  let brackets := shifted.syncLineBracketCache request.lines options.bracketPairs request.span
    (m.bracketCachePairs ≠ options.bracketPairs)
  let indents := brackets.syncLineIndentCache request.lines.length (max options.tabSize 1)
    request.span
  indents.syncBlocks request.lines.length request.span (m.resetsAll options)

def refresh (m : FoldingModel) (request : RefreshRequest) : FoldingModel :=
  if request.lines = [] then
    { clear { m with indentSourceEnabled := request.options.useIndentSource } with
      isResolved := true }
  else
    let synced := m.syncCaches request
    let resolved := resolveWindow request.options request.lines request.suppressed
      request.windowFirst request.windowLast synced (budgetOf request.maxLines m.budgetMultiplier)
    revalidateCollapsedInWindow
      { resolved.2.2 with
        complete := resolved.1
        ranges := finishRanges resolved.2.1
        isResolved := resolved.1
        resolvedFirstLine := request.windowFirst
        resolvedLastLine := request.windowLast
        budgetMultiplier := if resolved.1 then 1 else min (m.budgetMultiplier * 2) 4096 }

/-- `ResolveAllFolds`: the whole document by the options of the last refresh. -/
def resolveAllFolds (m : FoldingModel) (lines : List Line) (suppressed : Nat → Nat → Bool) :
    FoldingModel :=
  m.refresh
    { lines := lines
      options :=
        { bracketPairs := m.bracketCachePairs
          useIndentSource := m.indentSourceEnabled
          tabSize := if m.lineIndentTabSize = 0 then 4 else m.lineIndentTabSize }
      firstLine := 0
      lastLine := none
      span := {}
      suppressed := suppressed }

end FoldingModel

end Microide.Editor
