/-
Runs of a viewport's highlighting.

A session is a document with one viewport on it and the requests that were made: edits, token
queries, requests for batches and the installation of what a worker makes of one, at any later
time and in any order.

**Main results.** `run_chain_exact`: every cached state is the chain's in a run that installs no
prefetch with an approximate start at or below the frontier; `late_prefetch_enters_chain`: such
an install breaks it.
-/

import Microide.Editor.HighlightChain

namespace Microide.Editor

open List Option Lib Text Highlights

/-! ### Sessions -/

namespace DocumentState

/-- Lines from `start` on replaced, as an edit, an undo or a redo does; the view state that goes
with it says whether the document is a placeholder. -/
def edit (doc : DocumentState) (start removed : Nat) (inserted : List Line) (placeholder : Bool) :
    DocumentState :=
  let start := min start doc.lines.length
  let lines := doc.lines.take start ++ inserted ++ doc.lines.drop (start + removed)
  { doc with
    lines := if lines = [] then [[]] else lines
    placeholder := placeholder
    contentRevision := doc.contentRevision + 1 }

def reset (doc : DocumentState) (path : List UInt8) (lines : List Line) (placeholder : Bool) :
    DocumentState :=
  { doc with
    path := path
    lines := lines
    placeholder := placeholder
    contentRevision := doc.contentRevision + 1 }

end DocumentState

structure HighlightSession (σ τ : Type) where
  document : DocumentState
  highlights : Highlights σ τ
  /-- The prefetch requests, each with whether its start state is exact. -/
  prefetches : List (PrefetchRequest σ × Bool) := []
  backfills : List (CheckpointRequest σ) := []
  deriving DecidableEq

namespace HighlightSession

variable {σ τ : Type} {syn : Syntax σ τ}

inductive Action where
  | reset (path : List UInt8) (lines : List Line) (placeholder : Bool)
  | edit (start removed : Nat) (inserted : List Line) (placeholder : Bool)
  | syntaxConfig
  | tokens (line : Nat)
  | prefetch (startLine count : Nat)
  | takeBackfill
  | installPrefetch (request : Nat)
  | installCheckpoints (request : Nat)

/-- A document just opened. -/
def opened (syn : Syntax σ τ) (doc : DocumentState) : HighlightSession σ τ :=
  { document := doc, highlights := Highlights.invalidateContent syn doc 0 {} }

/-- `none` where there is no such request. -/
def step (syn : Syntax σ τ) (s : HighlightSession σ τ) : Action → Option (HighlightSession σ τ)
  | .reset path lines placeholder =>
    let document := s.document.reset path lines placeholder
    some { s with
      document := document
      highlights := s.highlights.invalidateContent syn document 0 }
  | .edit start removed inserted placeholder =>
    let document := s.document.edit start removed inserted placeholder
    some { s with
      document := document
      highlights :=
        s.highlights.invalidateContent syn document (min start s.document.lines.length) }
  | .syntaxConfig =>
    let document := { s.document with syntaxRevision := s.document.syntaxRevision + 1 }
    some { s with document := document, highlights := s.highlights.invalidateSyntax document }
  | .tokens line =>
    some { s with highlights := (s.highlights.highlightedLineTokens syn s.document line).2 }
  | .prefetch startLine count =>
    let built := s.highlights.buildPrefetchRequest syn s.document startLine count
    some { s with
      highlights := built.2
      prefetches := s.prefetches ++ [(built.1, built.2.lastStateExact)] }
  | .takeBackfill =>
    let taken := s.highlights.takeCheckpointBackfillRequest syn s.document
    some { s with highlights := taken.2, backfills := s.backfills ++ taken.1.toList }
  | .installPrefetch n =>
    s.prefetches[n]?.map fun asked =>
      { s with
        highlights := s.highlights.installPrefetchedHighlights syn s.document
          (Highlights.computeHighlightPrefetch syn asked.1) }
  | .installCheckpoints n =>
    s.backfills[n]?.map fun request =>
      { s with
        highlights := s.highlights.installHighlightCheckpoints syn s.document
          (Highlights.computeHighlightCheckpoints syn request) }

/-- A run from an opened document: the states it went through, each with the action taken there
(the last first), and where it got to. -/
inductive Run (syn : Syntax σ τ) :
    List (HighlightSession σ τ × Action) → HighlightSession σ τ → Prop where
  | opened (doc : DocumentState) : Run syn [] (opened syn doc)
  | step {history : List (HighlightSession σ τ × Action)} {s s' : HighlightSession σ τ}
      (action : Action) :
      Run syn history s → s.step syn action = some s' → Run syn ((s, action) :: history) s'

/-- Every state below the frontier and every checkpoint below the count is the fold of
`AdvanceState` over the lines above it. -/
structure ChainExact (syn : Syntax σ τ) (s : HighlightSession σ τ) : Prop where
  states : ∀ line < s.highlights.lineStatesValidThrough, ∃ first,
    s.highlights.initialState = some first ∧
      s.highlights.lineStates[line]? = some (chain syn s.document first (line + 1))
  checkpoints : ∀ index < s.highlights.checkpointsValidThrough, ∃ first,
    s.highlights.initialState = some first ∧
      s.highlights.checkpoints[index]? =
        some (chain syn s.document first (index * kHighlightCheckpointInterval))

/-- The action does not reach what goes wrong: no prefetch of these revisions is installed at or
below the frontier when its start state was approximate, and no placeholder document comes back
by an edit below its first line, where an empty initial state is read. -/
def Safe (s : HighlightSession σ τ) : Action → Prop
  | .edit start _ _ placeholder => placeholder = true → min start s.document.lines.length = 0
  | .installPrefetch n => ∀ request exact, s.prefetches[n]? = some (request, exact) →
      request.contentRevision = s.document.contentRevision →
      request.syntaxRevision = s.document.syntaxRevision → request.lines ≠ [] →
        exact = true ∨ s.highlights.lineStatesValidThrough < request.startLine
  | _ => True

/-! ### What is kept -/

/-- A prefetch request that would still be installed was made on this document. -/
def PrefetchKept (syn : Syntax σ τ) (s : HighlightSession σ τ) (asked : PrefetchRequest σ × Bool) :
    Prop :=
  asked.1.contentRevision ≤ s.document.contentRevision ∧
    asked.1.syntaxRevision ≤ s.document.syntaxRevision ∧
    (asked.1.contentRevision = s.document.contentRevision →
      asked.1.syntaxRevision = s.document.syntaxRevision → asked.1.lines ≠ [] →
      asked.1.path = s.document.path ∧
        ∃ first count, s.highlights.initialState = some first ∧
          asked.1.lines = (s.document.lines.drop asked.1.startLine).take count ∧
          (asked.2 = true → asked.1.startState = chain syn s.document first asked.1.startLine))

def BackfillKept (syn : Syntax σ τ) (s : HighlightSession σ τ) (request : CheckpointRequest σ) :
    Prop :=
  request.contentRevision ≤ s.document.contentRevision ∧
    request.syntaxRevision ≤ s.document.syntaxRevision ∧
    (request.contentRevision = s.document.contentRevision →
      request.syntaxRevision = s.document.syntaxRevision →
      request.path = s.document.path ∧ request.checkpointInterval = kHighlightCheckpointInterval ∧
        ∃ first count, s.highlights.initialState = some first ∧
          request.lines = (s.document.lines.drop request.firstLine).take count ∧
          request.startState = chain syn s.document first request.firstLine)

structure Kept (syn : Syntax σ τ) (s : HighlightSession σ τ) : Prop where
  sound : Sound syn s.document s.highlights
  prefetches : ∀ asked ∈ s.prefetches, PrefetchKept syn s asked
  backfills : ∀ request ∈ s.backfills, BackfillKept syn s request

theorem Kept.chainExact {s : HighlightSession σ τ} (kept : Kept syn s) : ChainExact syn s := by
  rcases kept.sound with cleared | ⟨first, exact⟩
  · constructor
    · intro line below
      exact absurd below (by rw [cleared.states]; exact Nat.not_lt_zero line)
    · intro index below
      exact absurd below (by rw [cleared.checkpoints]; exact Nat.not_lt_zero index)
  · constructor
    · exact fun line below => ⟨first, exact.initial, exact.states.exact line below⟩
    · exact fun index below => ⟨first, exact.initial, exact.checkpoints.exact index below⟩

/-- The caches stay sound on the document and their initial state stays. -/
structure Keeps (syn : Syntax σ τ) (doc : DocumentState) (h h' : Highlights σ τ) : Prop where
  sound : Sound syn doc h'
  initial : ∀ first, h.initialState = some first → h'.initialState = some first

theorem Keeps.refl {doc : DocumentState} {h : Highlights σ τ} (sound : Sound syn doc h) :
    Keeps syn doc h h :=
  ⟨sound, fun _ same => same⟩

/-- An operation that starts by preparing the caches. -/
theorem Keeps.of_ready {doc : DocumentState} {h h' : Highlights σ τ} (sound : Sound syn doc h)
    (enabled : doc.syntaxHighlightingEnabled = true) (some : doc.lines ≠ [])
    (exact : ∀ first, Exact syn doc first (h.ensureCaches syn doc) → Exact syn doc first h') :
    Keeps syn doc h h' := by
  refine ⟨?_, fun first initial => ?_⟩
  · obtain ⟨first, ready⟩ := ensureCaches_sound sound enabled some
    exact .inr ⟨first, exact first ready⟩
  · rcases sound with cleared | ⟨first', before⟩
    · exact nomatch cleared.initial.symm.trans initial
    · obtain rfl : first' = first := Option.some.inj (before.initial.symm.trans initial)
      exact (exact first' (ensureCaches_exact before)).initial

/-- What an operation on the caches alone leaves of the requests. -/
theorem Kept.of_keeps {s : HighlightSession σ τ} (kept : Kept syn s) {h : Highlights σ τ}
    (keeps : Keeps syn s.document s.highlights h) : Kept syn { s with highlights := h } := by
  refine ⟨keeps.sound, fun asked mem => ?_, fun request mem => ?_⟩
  · obtain ⟨content, syntaxes, made⟩ := kept.prefetches asked mem
    refine ⟨content, syntaxes, fun same same' some => ?_⟩
    obtain ⟨path, first, count, initial, rest⟩ := made same same' some
    exact ⟨path, first, count, keeps.initial first initial, rest⟩
  · obtain ⟨content, syntaxes, made⟩ := kept.backfills request mem
    refine ⟨content, syntaxes, fun same same' => ?_⟩
    obtain ⟨path, interval, first, count, initial, rest⟩ := made same same'
    exact ⟨path, interval, first, count, keeps.initial first initial, rest⟩

/-- After a change of the document no request of before is of its revisions. -/
theorem Kept.of_revision {s : HighlightSession σ τ} (kept : Kept syn s) {document : DocumentState}
    {h : Highlights σ τ} (sound : Sound syn document h)
    (newer : s.document.contentRevision < document.contentRevision ∧
        s.document.syntaxRevision ≤ document.syntaxRevision ∨
      s.document.contentRevision ≤ document.contentRevision ∧
        s.document.syntaxRevision < document.syntaxRevision) :
    Kept syn { s with document := document, highlights := h } := by
  refine ⟨sound, fun asked mem => ?_, fun request mem => ?_⟩
  · obtain ⟨content, syntaxes, -⟩ := kept.prefetches asked mem
    dsimp only [PrefetchKept]
    omega
  · obtain ⟨content, syntaxes, -⟩ := kept.backfills request mem
    dsimp only [BackfillKept]
    omega

/-! ### Steps -/

theorem edit_take (doc : DocumentState) (start removed : Nat) (inserted : List Line)
    (placeholder : Bool) :
    (doc.edit start removed inserted placeholder).lines.take (min start doc.lines.length) =
      doc.lines.take (min start doc.lines.length) := by
  unfold DocumentState.edit
  dsimp only
  split_ifs with emptied
  · simp only [append_eq_nil_iff] at emptied
    have zero : min start doc.lines.length = 0 := by
      have := congrArg List.length emptied.1.1
      simpa using this
    rw [zero]
    rfl
  · rw [append_assoc, take_append_of_le_length (by rw [length_take]; omega),
      take_take, Nat.min_self]

theorem kept_edit {s : HighlightSession σ τ} (kept : Kept syn s) {start removed : Nat}
    {inserted : List Line} {placeholder : Bool}
    (safe : placeholder = true → min start s.document.lines.length = 0) :
    let document := s.document.edit start removed inserted placeholder
    Kept syn { s with
      document := document
      highlights :=
        s.highlights.invalidateContent syn document (min start s.document.lines.length) } := by
  refine kept.of_revision ?_ (.inl ⟨Nat.lt_succ_self _, Nat.le_refl _⟩)
  refine invalidateContent_sound kept.sound rfl ?_ rfl ?_
  · exact edit_take s.document start removed inserted placeholder
  · cases placeholder with
    | true => exact .inl (safe rfl)
    | false => exact .inr rfl

theorem kept_reset {s : HighlightSession σ τ} (kept : Kept syn s) (path : List UInt8)
    (lines : List Line) (placeholder : Bool) :
    let document := s.document.reset path lines placeholder
    Kept syn { s with
      document := document
      highlights := s.highlights.invalidateContent syn document 0 } :=
  kept.of_revision (.inl (invalidateContent_start syn (Nat.zero_min _)))
    (.inl ⟨Nat.lt_succ_self _, Nat.le_refl _⟩)

theorem kept_syntaxConfig {s : HighlightSession σ τ} (kept : Kept syn s) :
    let document := { s.document with syntaxRevision := s.document.syntaxRevision + 1 }
    Kept syn { s with
      document := document
      highlights := s.highlights.invalidateSyntax document } :=
  kept.of_revision (.inl ⟨rfl, rfl, rfl, rfl, rfl⟩) (.inr ⟨Nat.le_refl _, Nat.lt_succ_self _⟩)

theorem keeps_tokens {doc : DocumentState} {h : Highlights σ τ} (sound : Sound syn doc h)
    (line : Nat) : Keeps syn doc h (h.highlightedLineTokens syn doc line).2 := by
  by_cases read : line < doc.lines.length ∧ doc.syntaxHighlightingEnabled = true
  · obtain ⟨inside, enabled⟩ := read
    exact .of_ready sound enabled (ne_nil_of_length_pos (Nat.zero_lt_of_lt inside))
      fun first ready => highlightedLineTokens_exact ready inside enabled
  · rw [highlightedLineTokens, if_pos]
    · exact .refl sound
    · by_contra skipped
      simp only [not_or, Bool.not_eq_true', Bool.not_eq_false, Nat.not_le] at skipped
      exact read skipped

/-- A prefetch request and what building it leaves of the caches. -/
theorem kept_prefetch {s : HighlightSession σ τ} (kept : Kept syn s) (startLine count : Nat) :
    let built := s.highlights.buildPrefetchRequest syn s.document startLine count
    Kept syn { s with
      highlights := built.2
      prefetches := s.prefetches ++ [(built.1, built.2.lastStateExact)] } := by
  unfold buildPrefetchRequest
  split_ifs with off
  · refine { kept with prefetches := fun asked mem => ?_ }
    rcases mem_append.mp mem with old | new
    · exact kept.prefetches asked old
    · obtain rfl := mem_singleton.mp new
      exact ⟨Nat.le_refl _, Nat.le_refl _, fun _ _ some => absurd rfl some⟩
  · simp only [not_or, Bool.not_eq_true', Bool.not_eq_false, Nat.not_le] at off
    obtain ⟨enabled, some, inside, -⟩ := off
    have keeps : Keeps syn s.document s.highlights
        (s.highlights.stateBeforeLine syn s.document startLine).2 :=
      .of_ready kept.sound enabled some fun first ready =>
        (stateBeforeLine_exact ready inside).2
    have cached := kept.of_keeps keeps
    refine { cached with prefetches := fun asked mem => ?_ }
    rcases mem_append.mp mem with old | new
    · exact cached.prefetches asked old
    · obtain rfl := mem_singleton.mp new
      obtain ⟨first, ready⟩ := ensureCaches_sound kept.sound enabled some
      obtain ⟨state, exact⟩ := stateBeforeLine_exact ready inside
      exact ⟨Nat.le_refl _, Nat.le_refl _, fun _ _ _ =>
        ⟨rfl, first, count, exact.initial, rfl, state⟩⟩

theorem kept_takeBackfill {s : HighlightSession σ τ} (kept : Kept syn s) :
    let taken := s.highlights.takeCheckpointBackfillRequest syn s.document
    Kept syn { s with highlights := taken.2, backfills := s.backfills ++ taken.1.toList } := by
  have cleared : ∀ {h : Highlights σ τ}, Sound syn s.document h →
      Keeps syn s.document h { h with pendingBackfillTargetLine := 0 } := by
    rintro h (cleared | ⟨first, exact⟩)
    · exact ⟨.inl { cleared with }, fun _ same => same⟩
    · exact ⟨.inr ⟨first, { exact with }⟩, fun _ same => same⟩
  unfold takeCheckpointBackfillRequest
  dsimp only
  split_ifs with off idle reached
  · simp only [toList_none, append_nil]
    exact kept.of_keeps (cleared kept.sound)
  · simp only [toList_none, append_nil]
    exact kept
  all_goals
    simp only [not_or, Bool.not_eq_true', Bool.not_eq_false] at off
    obtain ⟨enabled, some⟩ := off
    have cached := kept.of_keeps (.of_ready kept.sound enabled some fun first ready =>
      askBackfill_exact ready 0)
  · simp only [toList_none, append_nil]
    exact cached
  · refine { cached with backfills := fun request mem => ?_ }
    rcases mem_append.mp mem with old | new
    · exact cached.backfills request old
    · obtain rfl := mem_singleton.mp new
      obtain ⟨first, ready⟩ := ensureCaches_sound kept.sound enabled some
      exact ⟨Nat.le_refl _, Nat.le_refl _, fun _ _ =>
        ⟨rfl, rfl, first, _, ready.initial, rfl,
          checkpointState_exact ready usableCheckpoint_lt⟩⟩

/-- A prefetch that is exact, or wholly above the frontier, leaves the chain as it is. -/
theorem keeps_installPrefetch {s : HighlightSession σ τ} (kept : Kept syn s)
    {asked : PrefetchRequest σ × Bool} (mem : asked ∈ s.prefetches)
    (safe : asked.1.contentRevision = s.document.contentRevision →
      asked.1.syntaxRevision = s.document.syntaxRevision → asked.1.lines ≠ [] →
        asked.2 = true ∨ s.highlights.lineStatesValidThrough < asked.1.startLine) :
    Keeps syn s.document s.highlights
      (s.highlights.installPrefetchedHighlights syn s.document
        (computeHighlightPrefetch syn asked.1)) := by
  unfold installPrefetchedHighlights computeHighlightPrefetch
  dsimp only
  split_ifs with off stale
  · exact .refl kept.sound
  · exact .refl kept.sound
  · simp only [not_or, Bool.not_eq_true', Bool.not_eq_false, not_not] at off stale
    obtain ⟨enabled, some⟩ := off
    obtain ⟨content, syntaxes⟩ := stale
    refine .of_ready kept.sound enabled some fun first ready => ?_
    rcases eq_or_ne asked.1.lines [] with none | nonempty
    · rw [none]
      exact ready
    · rcases safe content syntaxes nonempty with exact | above
      · obtain ⟨path, first', count, initial, slice, state⟩ :=
          (kept.prefetches asked mem).2.2 content syntaxes nonempty
        have prepared := (Keeps.of_ready kept.sound enabled some fun _ ready => ready).initial
          first' initial
        obtain rfl : first = first' := Option.some.inj (ready.initial.symm.trans prepared)
        rw [path, slice, state exact]
        exact installLines_exact count asked.1.startLine ready
      · exact installLines_above _ ready
          (Nat.lt_of_le_of_lt ensureCaches_frontier above)

/-- A backfill always starts on the chain. -/
theorem keeps_installCheckpoints {s : HighlightSession σ τ} (kept : Kept syn s)
    {request : CheckpointRequest σ} (mem : request ∈ s.backfills) :
    Keeps syn s.document s.highlights
      (s.highlights.installHighlightCheckpoints syn s.document
        (computeHighlightCheckpoints syn request)) := by
  unfold installHighlightCheckpoints
  dsimp only
  split_ifs with off stale advanced
  · exact .refl kept.sound
  · exact .refl kept.sound
  all_goals
    simp only [not_or, Bool.not_eq_true', Bool.not_eq_false, not_not] at off stale
    obtain ⟨enabled, some⟩ := off
    refine .of_ready kept.sound enabled some fun first ready => ?_
    have installed : Exact syn s.document first
        ((s.highlights.ensureCaches syn s.document).installStates
          (computeHighlightCheckpoints syn request).firstCheckpointIndex
          (computeHighlightCheckpoints syn request).checkpointStates) := by
      obtain ⟨path, interval, first', count, initial, slice, state⟩ :=
        (kept.backfills request mem).2.2 stale.1 stale.2
      have prepared := (Keeps.of_ready kept.sound enabled some fun _ ready => ready).initial
        first' initial
      obtain rfl : first = first' := Option.some.inj (ready.initial.symm.trans prepared)
      refine installStates_exact _ ready fun j after found => ?_
      unfold computeHighlightCheckpoints at found ⊢
      rw [interval, if_neg (by decide)] at found ⊢
      rw [path, slice, state] at found
      exact boundaryStates_chain count request.firstLine found
  · exact dropTokenCache_exact installed
  · exact installed

/-! ### Runs -/

theorem kept_step {s s' : HighlightSession σ τ} (kept : Kept syn s) {action : Action}
    (safe : Safe s action) (stepped : s.step syn action = some s') : Kept syn s' := by
  cases action with
  | reset path lines placeholder =>
    obtain rfl := Option.some.inj stepped
    exact kept_reset kept path lines placeholder
  | edit start removed inserted placeholder =>
    obtain rfl := Option.some.inj stepped
    exact kept_edit kept safe
  | syntaxConfig =>
    obtain rfl := Option.some.inj stepped
    exact kept_syntaxConfig kept
  | tokens line =>
    obtain rfl := Option.some.inj stepped
    exact kept.of_keeps (keeps_tokens kept.sound line)
  | prefetch startLine count =>
    obtain rfl := Option.some.inj stepped
    exact kept_prefetch kept startLine count
  | takeBackfill =>
    obtain rfl := Option.some.inj stepped
    exact kept_takeBackfill kept
  | installPrefetch n =>
    obtain ⟨asked, found, rfl⟩ := map_eq_some_iff.mp stepped
    exact kept.of_keeps (keeps_installPrefetch kept (mem_of_getElem? found)
      (safe asked.1 asked.2 found))
  | installCheckpoints n =>
    obtain ⟨request, found, rfl⟩ := map_eq_some_iff.mp stepped
    exact kept.of_keeps (keeps_installCheckpoints kept (mem_of_getElem? found))

theorem kept_run {history : List (HighlightSession σ τ × Action)} {s : HighlightSession σ τ}
    (ran : Run syn history s) (safe : ∀ visited ∈ history, Safe visited.1 visited.2) :
    Kept syn s := by
  induction ran with
  | opened doc =>
    have cleared : Cleared doc (opened syn doc).highlights :=
      invalidateContent_start syn (Nat.zero_min _)
    exact ⟨.inl cleared, fun _ mem => (nomatch mem), fun _ mem => nomatch mem⟩
  | step action _ stepped ih =>
    exact kept_step (ih fun visited mem => safe visited (mem_cons_of_mem _ mem))
      (safe _ mem_cons_self) stepped

/-- The cached states are the chain's in every state of a run of safe steps. -/
theorem run_chain_exact {history : List (HighlightSession σ τ × Action)}
    {s : HighlightSession σ τ} (ran : Run syn history s)
    (safe : ∀ visited ∈ history, Safe visited.1 visited.2) : ChainExact syn s :=
  (kept_run ran safe).chainExact

/-- A tokenizer whose state counts the lines. -/
def countingSyntax : Syntax Nat Unit where
  initialState := fun _ _ => 1
  stateForFiletype := fun _ => 1
  noState := 0
  definitionId := id
  noTokens := ()
  blankLine := fun _ state => state + 1
  scanLine := fun _ _ state => ((), state + 1)
  advanceLine := fun _ _ state => state + 1
  agree := fun _ _ _ => rfl

/-- 514 empty lines. -/
def blankDocument : DocumentState := { path := [], lines := List.replicate 514 [] }

/-- A prefetch from line 1 and its batch bring the frontier to line 2. -/
theorem run_chain_exact_prefetched : ∃ s : HighlightSession Nat Unit,
    s.highlights.lineStatesValidThrough = 2 ∧ ChainExact countingSyntax s := by
  obtain ⟨asked, askedStep⟩ : ∃ s, step countingSyntax (opened countingSyntax blankDocument)
      (.prefetch 1 1) = some s := ⟨_, rfl⟩
  have installs : (step countingSyntax (opened countingSyntax blankDocument) (.prefetch 1 1)).any
      (fun s => s.prefetches.map (·.2) == [true] &&
        (step countingSyntax s (.installPrefetch 0)).any fun s =>
          s.highlights.lineStatesValidThrough == 2) = true := by
    decide +kernel
  rw [askedStep, any_some, Bool.and_eq_true, Option.any_eq_true] at installs
  obtain ⟨flags, s, installed, frontier⟩ := installs
  refine ⟨s, by simpa using frontier, run_chain_exact
    (.step _ (.step _ (.opened blankDocument) askedStep) installed) fun visited mem => ?_⟩
  rcases mem_cons.mp mem with rfl | opening
  · intro request exact found _ _ _
    refine .inl ?_
    have flag : exact ∈ asked.prefetches.map (·.2) :=
      mem_map_of_mem (mem_of_getElem? found)
    rw [eq_of_beq flags] at flag
    exact mem_singleton.mp flag
  · obtain rfl := mem_singleton.mp opening
    trivial

open Highlights

/-- The caches of a view of `blankDocument` that was asked for a deep line. -/
def deepHighlights (exact : Bool) : Highlights Nat Unit where
  generation := 2
  initialState := some 1
  checkpoints := [1, 0, 0, 0, 0]
  checkpointsValidThrough := 1
  pendingBackfillTargetLine := 513
  lastStateExact := exact

/-- A query of line 512 after it replays the 512 lines above. -/
theorem deepHighlights_tokens :
    513 ≤ ((deepHighlights false).highlightedLineTokens countingSyntax blankDocument
      512).2.lineStatesValidThrough := by
  have caches : ∀ exact, (deepHighlights exact).ensureCaches countingSyntax blankDocument =
      deepHighlights exact := by
    intro exact
    cases exact <;> decide +kernel
  have length : blankDocument.lines.length = 514 := length_replicate
  have checked : Fills 512 (deepHighlights true)
      ((deepHighlights true).ensureCheckpoint countingSyntax blankDocument 4) := by
    unfold ensureCheckpoint
    rw [caches]
    have off : ¬ ((!blankDocument.syntaxHighlightingEnabled) = true ∨ blankDocument.lines = [] ∨
        (deepHighlights true).checkpoints.length ≤ 4) := by decide
    have unusable : (deepHighlights true).usable countingSyntax 4 = false := by decide
    have resume : (deepHighlights true).usableCheckpoint countingSyntax 4 = 0 := by decide
    have near : decide (kMaxSyncHighlightReplayLines <
        min 514 (4 * kHighlightCheckpointInterval) - 0 * kHighlightCheckpointInterval) = false := by
      decide
    dsimp only
    rw [if_neg off, unusable, resume, length, near, if_neg Bool.false_ne_true,
      if_neg Bool.false_ne_true, if_neg Bool.false_ne_true, Nat.zero_mul]
    have replayed := replay_fills countingSyntax blankDocument (recordCheckpoint blankDocument)
      recordCheckpoint_quiet (min 514 (4 * kHighlightCheckpointInterval) - 0) 0
      ((deepHighlights true).checkpointState countingSyntax 0)
      (Nat.zero_le (deepHighlights true).lineStatesValidThrough)
    rwa [show 0 + (min 514 (4 * kHighlightCheckpointInterval) - 0) = 512 by decide] at replayed
  have before : Fills 512 (deepHighlights true)
      ((deepHighlights false).stateBeforeLine countingSyntax blankDocument 512).2 := by
    have filled := stateBeforeLine_fills countingSyntax blankDocument (deepHighlights false)
      (show 512 ≠ 0 by decide)
    rw [caches] at filled
    exact filled (by decide) checked
  have missing : (deepHighlights false).currentEntry 512 = none := rfl
  rw [highlightedLineTokens, if_neg (by rw [length]; decide), caches]
  dsimp only
  rw [missing]
  dsimp only
  rw [storeTokens_lastStateExact, before.lastStateExact,
    if_pos (show (deepHighlights true).lastStateExact = true from rfl)]
  refine (storeLineState_fills ?_ _).reached
  rw [storeTokens_lineStates.1]
  exact before.reached

/-- A prefetch from line 513, a query that brings the frontier there, and the batch: the state
after line 513 is the approximate one. -/
theorem late_prefetch_enters_chain :
    ¬ ∀ (history : List (HighlightSession Nat Unit × Action)) (s : HighlightSession Nat Unit),
      Run countingSyntax history s → ChainExact countingSyntax s := by
  intro always
  have length : blankDocument.lines.length = 514 := length_replicate
  have chains : ∀ first n, n ≤ 514 → chain countingSyntax blankDocument first n = first + n := by
    intro first n
    induction n with
    | zero => exact fun _ => rfl
    | succ n ih =>
      intro le
      have inside : n < blankDocument.lines.length := length ▸ le
      have next : ∀ line path state, countingSyntax.advanceState line path state = state + 1 := by
        intro line path state
        unfold Syntax.advanceState
        split <;> rfl
      rw [← advanceState_chain inside, next, ih (Nat.le_of_succ_le le), Nat.add_assoc]
  let asked : HighlightSession Nat Unit :=
    { document := blankDocument
      highlights := deepHighlights false
      prefetches := [(⟨[], 0, 0, 1, 513, [[]]⟩, false)] }
  have askedStep : step countingSyntax (opened countingSyntax blankDocument) (.prefetch 513 1) =
      some asked := by decide +kernel
  obtain ⟨queried, query, frontier⟩ : ∃ queried, step countingSyntax asked (.tokens 512) =
      some { asked with highlights := queried } ∧ 513 ≤ queried.lineStatesValidThrough :=
    ⟨((deepHighlights false).highlightedLineTokens countingSyntax blankDocument 512).2, rfl,
      deepHighlights_tokens⟩
  have ran := Run.step (.tokens 512) (.step _ (.opened blankDocument) askedStep) query
  have kept := kept_run ran fun visited mem => by
    rcases mem_cons.mp mem with rfl | mem
    · trivial
    · obtain rfl := mem_singleton.mp mem
      trivial
  obtain ⟨first, exact⟩ : ∃ first, Exact countingSyntax blankDocument first queried := by
    rcases kept.sound with cleared | exact
    · exact absurd (cleared.states ▸ frontier) (by decide)
    · exact exact
  have caches := ensureCaches_exact exact
  have reached := Nat.le_trans (Nat.le_min.mpr ⟨frontier, by rw [length]; decide⟩)
    (ensureCaches_keeps exact)
  obtain ⟨above, state⟩ := storeLineState_stored reached caches.states.stored 2
  obtain ⟨installed, install, frontier, state⟩ : ∃ installed : Highlights Nat Unit,
      step countingSyntax { asked with highlights := queried } (.installPrefetch 0) =
        some { asked with highlights := installed } ∧ 513 < installed.lineStatesValidThrough ∧
        installed.lineStates[513]? = some 2 := by
    refine ⟨installLines blankDocument 513 [((), 2)]
      (queried.ensureCaches countingSyntax blankDocument), ?_, ?_⟩
    · have current : queried.installPrefetchedHighlights countingSyntax blankDocument
          ⟨0, 0, 513, [((), 2)]⟩ = installLines blankDocument 513 [((), 2)]
            (queried.ensureCaches countingSyntax blankDocument) := by
        rw [installPrefetchedHighlights, if_neg (by decide), if_neg (by decide)]
      exact congrArg (fun highlights => some { asked with highlights := highlights }) current
    · rw [installLines, if_neg (by rw [length]; decide), installLines]
      split
      · exact ⟨above, state⟩
      · rw [storeTokens_lineStates.1, storeTokens_lineStates.2]
        exact ⟨above, state⟩
  obtain ⟨initial, -, cached⟩ := (always _ _ (Run.step _ ran install)).states 513 frontier
  rw [state, chains initial 514 (Nat.le_refl _)] at cached
  have impossible : 2 = initial + 514 := Option.some.inj cached
  omega

end HighlightSession

end Microide.Editor
