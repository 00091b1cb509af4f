/-
The highlight cache of a viewport.

A viewport keeps the syntax state after each line up to a frontier, the state before every
128th line up to a count, and the tokens of some lines. A query replays what it needs from the
deepest checkpoint; past a bound it takes that checkpoint's state as an approximation instead
and asks for a backfill, and batches computed off the main thread are installed while the
document's revisions are still theirs.

The tokenizer is a parameter: what it gives for a line is a function of the line, the path and
the incoming state, and its two entry points agree on the state after the line.
-/

import Microide.Text.Lines

namespace Microide.Editor

open Text

/-- The shared document, as far as its highlighting reads it. -/
structure DocumentState where
  path : List UInt8
  lines : List Line
  placeholder : Bool := false
  /-- The filetype set by hand; empty where there is none. -/
  languageOverride : List UInt8 := []
  contentRevision : Nat := 0
  syntaxRevision : Nat := 0
  deriving DecidableEq

def DocumentState.syntaxHighlightingEnabled (doc : DocumentState) : Bool := !doc.placeholder

def kMaxHighlightLineBytes : Nat := 100000

def kHighlightCheckpointInterval : Nat := 128

def kHighlightCacheLimit : Nat := 256

def kMaxSyncHighlightReplayLines : Nat := 512

def kCheckpointBackfillChunkLines : Nat := 16384

/-! ### The tokenizer -/

/-- The registry's functions on syntax states `σ` and lines of tokens `τ`. -/
structure Syntax (σ τ : Type) where
  initialState : List UInt8 → List Line → σ
  stateForFiletype : List UInt8 → σ
  /-- `SyntaxState{}`. -/
  noState : σ
  definitionId : σ → Nat
  noTokens : τ
  /-- What an empty line leaves, and one too long to scan. -/
  blankLine : List UInt8 → σ → σ
  scanLine : Line → List UInt8 → σ → τ × σ
  advanceLine : Line → List UInt8 → σ → σ
  agree : ∀ line path state, (scanLine line path state).2 = advanceLine line path state

namespace Syntax

variable {σ τ : Type} (syn : Syntax σ τ)

def highlightLine (line : Line) (path : List UInt8) (state : σ) : τ × σ :=
  if line = [] ∨ kMaxHighlightLineBytes < line.length then
    (syn.noTokens, syn.blankLine path state)
  else syn.scanLine line path state

def advanceState (line : Line) (path : List UInt8) (state : σ) : σ :=
  if line = [] ∨ kMaxHighlightLineBytes < line.length then syn.blankLine path state
  else syn.advanceLine line path state

def isCachedHighlightState (state : σ) : Bool := syn.definitionId state ≠ 0

end Syntax

def DocumentState.tokenizableLine (doc : DocumentState) (line : Nat) : Line :=
  let bytes := doc.lines.getD line []
  if kMaxHighlightLineBytes < bytes.length then [] else bytes

/-! ### State -/

structure HighlightCacheEntry (τ : Type) where
  tokens : τ
  generation : Nat
  deriving DecidableEq

/-- A viewport's highlighting. -/
structure Highlights (σ τ : Type) where
  cache : List (Nat × HighlightCacheEntry τ) := []
  /-- The lines of `cache`, the next to evict first. -/
  order : List Nat := []
  generation : Nat := 1
  initialState : Option σ := none
  lineStates : List σ := []
  lineStatesValidThrough : Nat := 0
  checkpoints : List σ := []
  checkpointsValidThrough : Nat := 0
  pendingBackfillTargetLine : Nat := 0
  contentRevision : Nat := 0
  syntaxRevision : Nat := 0
  lastStateExact : Bool := true
  deriving DecidableEq

namespace Highlights

variable {σ τ : Type}

/-! ### Tokens -/

def dropTokenCache (h : Highlights σ τ) : Highlights σ τ := { h with generation := h.generation + 1 }

/-- Generation 0 is never current, so the suffix goes stale and keeps its entries. -/
def staleTokensFrom (start : Nat) (h : Highlights σ τ) : Highlights σ τ :=
  if start = 0 then h.dropTokenCache
  else
    { h with
      cache := h.cache.map fun entry =>
        if start ≤ entry.1 then (entry.1, { entry.2 with generation := 0 }) else entry }

def currentEntry (h : Highlights σ τ) (line : Nat) : Option (HighlightCacheEntry τ) :=
  (h.cache.lookup line).filter fun entry => entry.generation = h.generation

/-- Room for a line's entry: one that is not there yet evicts the oldest at the limit. -/
def takeSlot (line : Nat) (h : Highlights σ τ) : Highlights σ τ :=
  if (h.cache.lookup line).isSome then h
  else if kHighlightCacheLimit ≤ h.cache.length then
    match h.order with
    | [] => { h with order := [line] }
    | front :: rest =>
      { h with cache := h.cache.filter (fun entry => entry.1 ≠ front), order := rest ++ [line] }
  else { h with order := h.order ++ [line] }

def storeTokens (line : Nat) (tokens : τ) (h : Highlights σ τ) : Highlights σ τ :=
  let h := h.takeSlot line
  { h with
    cache := (line, ⟨tokens, h.generation⟩) :: h.cache.filter (fun entry => entry.1 ≠ line) }

/-! ### The state chain -/

/-- A state above the frontier is dropped; the one at the frontier moves it. -/
def storeLineState (line : Nat) (state : σ) (h : Highlights σ τ) : Highlights σ τ :=
  if line < h.lineStatesValidThrough then { h with lineStates := h.lineStates.set line state }
  else if line ≠ h.lineStatesValidThrough then h
  else
    { h with
      lineStates :=
        if line < h.lineStates.length then h.lineStates.set line state
        else h.lineStates ++ [state]
      lineStatesValidThrough := line + 1 }

section Chain

variable (syn : Syntax σ τ) (doc : DocumentState)

def ensureInitialState (h : Highlights σ τ) : Highlights σ τ :=
  if !doc.syntaxHighlightingEnabled then { h with initialState := none }
  else if h.initialState.isSome ∧ h.syntaxRevision = doc.syntaxRevision then h
  else
    { h with
      initialState :=
        some (if doc.languageOverride = [] then syn.initialState doc.path doc.lines
          else syn.stateForFiletype doc.languageOverride) }

/-- `*initial_highlight_state_`. -/
def firstState (h : Highlights σ τ) : σ := h.initialState.getD syn.noState

/-- `highlight_checkpoints_.resize(count)`. -/
def resizeCheckpoints (count : Nat) (checkpoints : List σ) : List σ :=
  checkpoints.take count ++ List.replicate (count - checkpoints.length) syn.noState

def checkpointCount : Nat :=
  if doc.lines = [] then 0 else (doc.lines.length - 1) / kHighlightCheckpointInterval + 1

/-- A revision this view has not seen resets the cursors, not the storage. -/
def catchUp (h : Highlights σ τ) : Highlights σ τ :=
  if h.contentRevision ≠ doc.contentRevision ∨ h.syntaxRevision ≠ doc.syntaxRevision then
    dropTokenCache
      { h with
        lineStatesValidThrough := 0
        checkpointsValidThrough := 0
        pendingBackfillTargetLine := 0
        contentRevision := doc.contentRevision
        syntaxRevision := doc.syntaxRevision }
  else h

/-- The first checkpoint is the initial state. -/
def seedCheckpoints (h : Highlights σ τ) : Highlights σ τ :=
  if h.checkpoints = [] then h
  else
    { h with
      checkpoints := h.checkpoints.set 0 (h.firstState syn)
      checkpointsValidThrough := max h.checkpointsValidThrough 1 }

def sizeToDocument (h : Highlights σ τ) : Highlights σ τ :=
  let count := checkpointCount doc
  let h := { h with lineStatesValidThrough := min h.lineStatesValidThrough doc.lines.length }
  if h.checkpoints.length ≠ count then
    { h with
      checkpoints := resizeCheckpoints syn count h.checkpoints
      checkpointsValidThrough := min h.checkpointsValidThrough count }
  else h

def ensureCaches (h : Highlights σ τ) : Highlights σ τ :=
  if !doc.syntaxHighlightingEnabled ∨ doc.lines = [] then h
  else (((h.ensureInitialState syn doc).catchUp doc).sizeToDocument syn doc).seedCheckpoints syn

/-- The state after a line where the cache has it. -/
def cachedStateAfter (h : Highlights σ τ) (line : Nat) : Option σ :=
  if line < h.lineStatesValidThrough then
    h.lineStates[line]?.filter fun state => syn.isCachedHighlightState state
  else none

/-- One line of a replay. -/
def advanceThrough (line : Nat) (state : σ) (h : Highlights σ τ) : σ × Highlights σ τ :=
  match h.cachedStateAfter syn line with
  | some cached => (cached, h)
  | none =>
    let state := syn.advanceState (doc.tokenizableLine line) doc.path state
    (state, h.storeLineState line state)

/-- A replay of `count` lines from `line` on; `mark` is done after each. -/
def replay (mark : Nat → σ → Highlights σ τ → Highlights σ τ) :
    Nat → Nat → σ → Highlights σ τ → σ × Highlights σ τ
  | 0, _, state, h => (state, h)
  | count + 1, line, state, h =>
    let advanced := h.advanceThrough syn doc line state
    replay mark count (line + 1) advanced.1 (mark (line + 1) advanced.1 advanced.2)

/-- The checkpoint before `line`, where one stands there. -/
def recordCheckpoint (line : Nat) (state : σ) (h : Highlights σ τ) : Highlights σ τ :=
  if line < doc.lines.length ∧ line % kHighlightCheckpointInterval = 0 then
    let index := line / kHighlightCheckpointInterval
    { h with
      checkpoints := h.checkpoints.set index state
      checkpointsValidThrough := max h.checkpointsValidThrough (index + 1) }
  else h

/-- The checkpoint is valid and its state is one that a definition set. -/
def usable (h : Highlights σ τ) (index : Nat) : Bool :=
  decide (index < h.checkpointsValidThrough) &&
    (h.checkpoints[index]?.any fun state => syn.isCachedHighlightState state)

/-- The deepest usable checkpoint at or below `index`, and 0 where there is none. -/
def usableCheckpoint (h : Highlights σ τ) : Nat → Nat
  | 0 => 0
  | index + 1 => if h.usable syn (index + 1) then index + 1 else h.usableCheckpoint index

def checkpointState (h : Highlights σ τ) (index : Nat) : σ :=
  if index = 0 then h.firstState syn else h.checkpoints.getD index syn.noState

def ensureCheckpoint (index : Nat) (h : Highlights σ τ) : Highlights σ τ :=
  let h := h.ensureCaches syn doc
  if !doc.syntaxHighlightingEnabled ∨ doc.lines = [] ∨ h.checkpoints.length ≤ index then h
  else if h.usable syn index then h
  else
    let previous := h.usableCheckpoint syn index
    let line := previous * kHighlightCheckpointInterval
    let wanted := min doc.lines.length (index * kHighlightCheckpointInterval)
    -- a replay past the bound is cut short and the rest left to a backfill
    let capped := decide (kMaxSyncHighlightReplayLines < wanted - line)
    let h' :=
      if capped then
        { h with pendingBackfillTargetLine := max h.pendingBackfillTargetLine wanted }
      else h
    (h'.replay syn doc (recordCheckpoint doc)
      (if capped then kMaxSyncHighlightReplayLines else wanted - line) line
      (h.checkpointState syn previous)).2

/-- The deepest checkpoint a line can resume from without a replay. -/
def deepestValidCheckpoint (h : Highlights σ τ) (line : Nat) : Nat :=
  h.usableCheckpoint syn
    (min (line / kHighlightCheckpointInterval) (h.checkpointsValidThrough - 1))

/-- `HighlightStateBeforeLine`: the state, and `lastStateExact` for whether it is the chain's. -/
def stateBeforeLine (line : Nat) (h : Highlights σ τ) : σ × Highlights σ τ :=
  let h := { h.ensureCaches syn doc with lastStateExact := true }
  if line = 0 then (h.firstState syn, h)
  else
    let deepest := h.deepestValidCheckpoint syn line
    if kMaxSyncHighlightReplayLines < line - deepest * kHighlightCheckpointInterval then
      -- a deep jump: the nearest checkpoint's state stands in, and the backfill is asked for
      (h.checkpointState syn deepest,
        { h with
          pendingBackfillTargetLine := max h.pendingBackfillTargetLine line
          lastStateExact := false })
    else
      let h := h.ensureCheckpoint syn doc (line / kHighlightCheckpointInterval)
      let resume := h.deepestValidCheckpoint syn line
      let first := resume * kHighlightCheckpointInterval
      h.replay syn doc (fun _ _ h => h) (line - first) first (h.checkpointState syn resume)

def highlightedLineTokens (line : Nat) (h : Highlights σ τ) : τ × Highlights σ τ :=
  if doc.lines.length ≤ line ∨ !doc.syntaxHighlightingEnabled then (syn.noTokens, h)
  else
    let h := h.ensureCaches syn doc
    match h.currentEntry line with
    | some entry => (entry.tokens, h)
    | none =>
      let before := h.stateBeforeLine syn doc line
      let highlighted := syn.highlightLine (doc.tokenizableLine line) doc.path before.1
      let h := before.2.storeTokens line highlighted.1
      -- only a state that was resumed exactly becomes the chain's
      (highlighted.1, if h.lastStateExact then h.storeLineState line highlighted.2 else h)

end Chain

/-! ### Off-thread batches -/

/-- What the worker gets to tokenize. -/
structure PrefetchRequest (σ : Type) where
  path : List UInt8
  contentRevision : Nat
  syntaxRevision : Nat
  startState : σ
  startLine : Nat
  lines : List Line
  deriving DecidableEq

structure PrefetchResult (σ τ : Type) where
  contentRevision : Nat
  syntaxRevision : Nat
  startLine : Nat
  /-- One entry a line: its tokens and the state after it. -/
  highlighted : List (τ × σ)

structure CheckpointRequest (σ : Type) where
  path : List UInt8
  contentRevision : Nat
  syntaxRevision : Nat
  startState : σ
  firstLine : Nat
  checkpointInterval : Nat
  lines : List Line
  deriving DecidableEq

structure CheckpointResult (σ : Type) where
  contentRevision : Nat
  syntaxRevision : Nat
  firstCheckpointIndex : Nat
  checkpointStates : List σ

section Batches

variable (syn : Syntax σ τ)

def highlightLines (path : List UInt8) : σ → List Line → List (τ × σ)
  | _, [] => []
  | state, line :: rest =>
    let highlighted := syn.highlightLine line path state
    highlighted :: highlightLines path highlighted.2 rest

def computeHighlightPrefetch (request : PrefetchRequest σ) : PrefetchResult σ τ where
  contentRevision := request.contentRevision
  syntaxRevision := request.syntaxRevision
  startLine := request.startLine
  highlighted := highlightLines syn request.path request.startState request.lines

/-- The states at the boundaries inside the lines, `line` being the first one's number. -/
def boundaryStates (path : List UInt8) (interval : Nat) : Nat → σ → List Line → List σ
  | _, _, [] => []
  | line, state, bytes :: rest =>
    let state := syn.advanceState bytes path state
    if (line + 1) % interval = 0 then
      state :: boundaryStates path interval (line + 1) state rest
    else boundaryStates path interval (line + 1) state rest

def computeHighlightCheckpoints (request : CheckpointRequest σ) : CheckpointResult σ :=
  let interval := if request.checkpointInterval = 0 then 1 else request.checkpointInterval
  { contentRevision := request.contentRevision
    syntaxRevision := request.syntaxRevision
    firstCheckpointIndex := request.firstLine / interval + 1
    checkpointStates :=
      boundaryStates syn request.path interval request.firstLine request.startState request.lines }

variable (doc : DocumentState)

def buildPrefetchRequest (startLine count : Nat) (h : Highlights σ τ) :
    PrefetchRequest σ × Highlights σ τ :=
  let request : PrefetchRequest σ :=
    { path := doc.path
      contentRevision := doc.contentRevision
      syntaxRevision := doc.syntaxRevision
      startState := syn.noState
      startLine := startLine
      lines := [] }
  if !doc.syntaxHighlightingEnabled ∨ doc.lines = [] ∨ doc.lines.length ≤ startLine ∨ count = 0 then
    (request, h)
  else
    let before := h.stateBeforeLine syn doc startLine
    ({ request with startState := before.1, lines := (doc.lines.drop startLine).take count },
      before.2)

/-- The lines of a batch from `line` on. -/
def installLines : Nat → List (τ × σ) → Highlights σ τ → Highlights σ τ
  | _, [], h => h
  | line, highlighted :: rest, h =>
    if doc.lines.length ≤ line then h
    else
      let h := h.storeLineState line highlighted.2
      -- a current entry is left alone
      installLines (line + 1) rest
        (if (h.currentEntry line).isSome then h else h.storeTokens line highlighted.1)

def installPrefetchedHighlights (result : PrefetchResult σ τ) (h : Highlights σ τ) :
    Highlights σ τ :=
  if !doc.syntaxHighlightingEnabled ∨ doc.lines = [] then h
  else if result.contentRevision ≠ doc.contentRevision ∨
      result.syntaxRevision ≠ doc.syntaxRevision then h
  else installLines doc result.startLine result.highlighted (h.ensureCaches syn doc)

def takeCheckpointBackfillRequest (h : Highlights σ τ) :
    Option (CheckpointRequest σ) × Highlights σ τ :=
  if !doc.syntaxHighlightingEnabled ∨ doc.lines = [] then
    (none, { h with pendingBackfillTargetLine := 0 })
  else if h.pendingBackfillTargetLine = 0 then (none, h)
  else
    let h := h.ensureCaches syn doc
    let target := min h.pendingBackfillTargetLine doc.lines.length
    let checkpoint := h.usableCheckpoint syn (h.checkpointsValidThrough - 1)
    let firstLine := checkpoint * kHighlightCheckpointInterval
    let h' := { h with pendingBackfillTargetLine := 0 }
    if target ≤ firstLine then (none, h')
    else
      (some
        { path := doc.path
          contentRevision := doc.contentRevision
          syntaxRevision := doc.syntaxRevision
          startState := h.checkpointState syn checkpoint
          firstLine := firstLine
          checkpointInterval := kHighlightCheckpointInterval
          lines := (doc.lines.drop firstLine).take
            (min target (firstLine + kCheckpointBackfillChunkLines) - firstLine) },
        h')

def installStates : Nat → List σ → Highlights σ τ → Highlights σ τ
  | _, [], h => h
  | index, state :: rest, h =>
    if h.checkpoints.length ≤ index then h
    else
      installStates (index + 1) rest
        { h with
          checkpoints := h.checkpoints.set index state
          -- the count is contiguous from the front
          checkpointsValidThrough :=
            if index = h.checkpointsValidThrough then index + 1 else h.checkpointsValidThrough }

def installHighlightCheckpoints (result : CheckpointResult σ) (h : Highlights σ τ) :
    Highlights σ τ :=
  if !doc.syntaxHighlightingEnabled ∨ doc.lines = [] then h
  else if result.contentRevision ≠ doc.contentRevision ∨
      result.syntaxRevision ≠ doc.syntaxRevision then h
  else
    let h := h.ensureCaches syn doc
    let installed := installStates result.firstCheckpointIndex result.checkpointStates h
    if installed.checkpointsValidThrough ≠ h.checkpointsValidThrough then installed.dropTokenCache
    else installed

/-! ### Invalidation -/

/-- The caches are the document's at its present revisions. -/
def stamp (h : Highlights σ τ) : Highlights σ τ :=
  { h with contentRevision := doc.contentRevision, syntaxRevision := doc.syntaxRevision }

/-- The cursors and the tokens after an edit at line `start`. -/
def cutFrom (start : Nat) (h : Highlights σ τ) : Highlights σ τ :=
  let h := h.staleTokensFrom start
  { h with
    lineStatesValidThrough := min h.lineStatesValidThrough start
    checkpoints :=
      if h.checkpoints.length ≠ checkpointCount doc then
        resizeCheckpoints syn (checkpointCount doc) h.checkpoints
      else h.checkpoints
    checkpointsValidThrough := min h.checkpointsValidThrough (start / kHighlightCheckpointInterval) }

/-- `InvalidateDerivedCaches` after the viewport's own edit; `doc` is the edited document, its
revision already counted up. -/
def invalidateContent (start : Nat) (h : Highlights σ τ) : Highlights σ τ :=
  let start := min start doc.lines.length
  if start = 0 then
    stamp doc
      { h.dropTokenCache with
        initialState := none
        lineStatesValidThrough := 0
        checkpointsValidThrough := 0 }
  else
    let h := h.cutFrom syn doc start
    stamp doc
      (if h.checkpoints = [] then h else (h.ensureInitialState syn doc).seedCheckpoints syn)

/-- `InvalidateDerivedCaches` for a change of the syntax configuration. -/
def invalidateSyntax (h : Highlights σ τ) : Highlights σ τ :=
  { h.dropTokenCache with
    initialState := none
    lineStates := []
    lineStatesValidThrough := 0
    checkpoints := []
    checkpointsValidThrough := 0
    contentRevision := doc.contentRevision
    syntaxRevision := doc.syntaxRevision }

end Batches

end Highlights

end Microide.Editor
