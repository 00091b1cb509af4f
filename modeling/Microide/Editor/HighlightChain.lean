/-
The state chain of a viewport's highlighting.

The states of a document are a chain from the viewport's initial state, one tokenizer step a
line. Every replay that starts on the chain stays on it, and so does what a worker folds from a
state of the chain; `Exact` says that the cached states below the frontier and the checkpoints
below their count are the chain's.

**Main results.** `ensureCaches_exact`, `stateBeforeLine_exact`, `invalidateContent_exact`,
`installLines_exact`, `installHighlightCheckpoints_exact`: what each operation keeps.
-/

import Microide.Editor.HighlightCache
import Microide.Lib.StateChain

namespace Microide.Editor

open List Lib Text

variable {line start : Nat} {doc' : DocumentState}

namespace Highlights

variable {σ τ : Type} {syn : Syntax σ τ} {doc : DocumentState} {h : Highlights σ τ} {first : σ}

/-- The state before line `n` of the document: `AdvanceState` folded over the lines above. -/
def chain (syn : Syntax σ τ) (doc : DocumentState) (first : σ) (n : Nat) : σ :=
  stateBefore (fun state line => syn.advanceState line doc.path state) first doc.lines n

/-- The cached states are the chain's. -/
structure Exact (syn : Syntax σ τ) (doc : DocumentState) (first : σ) (h : Highlights σ τ) :
    Prop where
  initial : h.initialState = some first
  content : h.contentRevision = doc.contentRevision
  syntaxes : h.syntaxRevision = doc.syntaxRevision
  states :
    Agrees (fun line => chain syn doc first (line + 1)) h.lineStates h.lineStatesValidThrough
  checkpoints :
    Agrees (fun index => chain syn doc first (index * kHighlightCheckpointInterval)) h.checkpoints
      h.checkpointsValidThrough

theorem firstState_of_initial (initial : h.initialState = some first) :
    h.firstState syn = first := by
  rw [firstState, initial]
  rfl

/-! ### The tokenizer -/

/-- An over-long line leaves what an empty one does, so it need not be read. -/
theorem highlightLine_tokenizableLine (path : List UInt8) (state : σ) :
    syn.highlightLine (doc.tokenizableLine line) path state =
      syn.highlightLine (doc.lines.getD line []) path state := by
  unfold DocumentState.tokenizableLine
  by_cases long : kMaxHighlightLineBytes < (doc.lines.getD line []).length
  · rw [if_pos long, Syntax.highlightLine, Syntax.highlightLine, if_pos (.inl rfl),
      if_pos (.inr long)]
  · rw [if_neg long]

theorem advanceState_eq (syn : Syntax σ τ) (line : Line) (path : List UInt8) (state : σ) :
    syn.advanceState line path state = (syn.highlightLine line path state).2 := by
  unfold Syntax.advanceState Syntax.highlightLine
  split
  · rfl
  · exact (syn.agree line path state).symm

/-- One step of the chain. -/
theorem advanceState_chain (inside : line < doc.lines.length) :
    syn.advanceState (doc.tokenizableLine line) doc.path (chain syn doc first line) =
      chain syn doc first (line + 1) := by
  rw [advanceState_eq, highlightLine_tokenizableLine, ← advanceState_eq, chain, chain,
    stateBefore_succ _ _ inside, getD_eq_getElem?_getD, getElem?_eq_getElem inside]
  rfl

/-! ### Storing -/

/-- The chain's own state may be stored at any line. -/
theorem storeLineState_exact (exact : Exact syn doc first h) (line : Nat) :
    Exact syn doc first (h.storeLineState line (chain syn doc first (line + 1))) := by
  unfold storeLineState
  split_ifs with below apart stored
  · exact { exact with states := exact.states.set line }
  · exact exact
  · obtain rfl : line = h.lineStatesValidThrough := by simpa using apart
    refine { exact with states := (exact.states.set h.lineStatesValidThrough).succ ?_ }
    rw [getElem?_set_self stored]
  · obtain rfl : line = h.lineStatesValidThrough := by simpa using apart
    have length := exact.states.stored
    refine { exact with states := (exact.states.append _).succ ?_ }
    rw [getElem?_append_right (by omega),
      show h.lineStatesValidThrough - h.lineStates.length = 0 by omega]
    rfl

/-- A state above the frontier is not stored at all. -/
theorem storeLineState_above (above : h.lineStatesValidThrough < line) (state : σ) :
    h.storeLineState line state = h := by
  rw [storeLineState, if_neg (by omega), if_pos (by omega)]

theorem storeLineState_checkpoints (line : Nat) (state : σ) :
    (h.storeLineState line state).checkpoints = h.checkpoints ∧
      (h.storeLineState line state).checkpointsValidThrough = h.checkpointsValidThrough := by
  unfold storeLineState
  split_ifs <;> exact ⟨rfl, rfl⟩

theorem takeSlot_exact (exact : Exact syn doc first h) (line : Nat) :
    Exact syn doc first (h.takeSlot line) := by
  unfold takeSlot
  split_ifs
  · exact exact
  · split
    · exact { exact with }
    · exact { exact with }
  · exact { exact with }

theorem storeTokens_exact (exact : Exact syn doc first h) (line : Nat) (tokens : τ) :
    Exact syn doc first (h.storeTokens line tokens) :=
  { takeSlot_exact exact line with }

theorem storeTokens_lastStateExact (line : Nat) (tokens : τ) :
    (h.storeTokens line tokens).lastStateExact = h.lastStateExact := by
  unfold storeTokens takeSlot
  split_ifs
  · rfl
  · split <;> rfl
  · rfl

/-- The states are not the tokens'. -/
theorem storeTokens_lineStates {tokens : τ} :
    (h.storeTokens line tokens).lineStatesValidThrough = h.lineStatesValidThrough ∧
      (h.storeTokens line tokens).lineStates = h.lineStates := by
  unfold storeTokens takeSlot
  split_ifs
  · exact ⟨rfl, rfl⟩
  · split
    · exact ⟨rfl, rfl⟩
    · exact ⟨rfl, rfl⟩
  · exact ⟨rfl, rfl⟩

/-- Asking for a backfill touches no state. -/
theorem askBackfill_exact (exact : Exact syn doc first h) (target : Nat) :
    Exact syn doc first { h with pendingBackfillTargetLine := target } :=
  { exact with }

theorem dropTokenCache_exact (exact : Exact syn doc first h) :
    Exact syn doc first h.dropTokenCache :=
  { exact with }

/-! ### Preparing the caches -/

theorem resizeCheckpoints_agrees (syn : Syntax σ τ) {f : Nat → σ} {checkpoints : List σ}
    {valid : Nat} (agrees : Agrees f checkpoints valid) (count : Nat) :
    Agrees f (resizeCheckpoints syn count checkpoints) (min valid count) :=
  (agrees.take count).append _

section

variable (exact : Exact syn doc first h)

include exact

theorem seedCheckpoints_exact : Exact syn doc first (h.seedCheckpoints syn) := by
  unfold seedCheckpoints
  split_ifs with none
  · exact exact
  · rw [firstState_of_initial exact.initial]
    have seeded := exact.checkpoints.set 0
    have there : 0 < h.checkpoints.length := length_pos_iff.mpr none
    refine { exact with checkpoints := ?_ }
    rcases Nat.eq_zero_or_pos h.checkpointsValidThrough with zero | positive
    · rw [zero, show max 0 1 = 0 + 1 from rfl]
      refine (Agrees.nothing _ _).succ ?_
      rw [getElem?_set_self there]
      exact congrArg some (congrArg (chain syn doc first) (Nat.zero_mul _)).symm
    · rwa [Nat.max_eq_left positive]

theorem sizeToDocument_exact : Exact syn doc first (h.sizeToDocument syn doc) := by
  have states := exact.states.mono (Nat.min_le_left h.lineStatesValidThrough doc.lines.length)
  unfold sizeToDocument
  dsimp only
  split_ifs
  · exact { exact with
      states := states
      checkpoints := resizeCheckpoints_agrees syn exact.checkpoints (checkpointCount doc) }
  · exact { exact with states := states }

theorem catchUp_exact : Exact syn doc first (h.catchUp doc) := by
  rw [catchUp, if_neg (by simp [exact.content, exact.syntaxes])]
  exact exact

theorem ensureInitialState_exact (enabled : doc.syntaxHighlightingEnabled = true) :
    Exact syn doc first (h.ensureInitialState syn doc) := by
  rw [ensureInitialState, if_neg (by simp [enabled]),
    if_pos ⟨by rw [exact.initial]; rfl, exact.syntaxes⟩]
  exact exact

theorem ensureCaches_exact : Exact syn doc first (h.ensureCaches syn doc) := by
  unfold ensureCaches
  split_ifs with off
  · exact exact
  · have enabled : doc.syntaxHighlightingEnabled = true := by
      by_contra disabled
      exact off (.inl (by simpa using disabled))
    exact seedCheckpoints_exact
      (sizeToDocument_exact (catchUp_exact (ensureInitialState_exact exact enabled)))

end

/-- Nothing is cached and the revisions are the document's: what an invalidation leaves. -/
structure Cleared (doc : DocumentState) (h : Highlights σ τ) : Prop where
  initial : h.initialState = none
  content : h.contentRevision = doc.contentRevision
  syntaxes : h.syntaxRevision = doc.syntaxRevision
  states : h.lineStatesValidThrough = 0
  checkpoints : h.checkpointsValidThrough = 0

/-- The first preparation after an invalidation picks the initial state. -/
theorem ensureInitialState_cleared (syn : Syntax σ τ) (cleared : Cleared doc h)
    (enabled : doc.syntaxHighlightingEnabled = true) :
    ∃ first, Exact syn doc first (h.ensureInitialState syn doc) := by
  rw [ensureInitialState, if_neg (by simp [enabled]), if_neg (by simp [cleared.initial])]
  refine ⟨_, ⟨rfl, cleared.content, cleared.syntaxes, ?_, ?_⟩⟩
  · rw [cleared.states]
    exact .nothing _ _
  · rw [cleared.checkpoints]
    exact .nothing _ _

theorem ensureCaches_cleared (cleared : Cleared doc h)
    (enabled : doc.syntaxHighlightingEnabled = true) (some : doc.lines ≠ []) :
    ∃ first, Exact syn doc first (h.ensureCaches syn doc) := by
  obtain ⟨first, exact⟩ := ensureInitialState_cleared syn cleared enabled
  refine ⟨first, ?_⟩
  rw [ensureCaches, if_neg (by simp [enabled, some])]
  exact seedCheckpoints_exact (sizeToDocument_exact (catchUp_exact exact))

/-! ### Replays -/

theorem cachedStateAfter_exact (exact : Exact syn doc first h) {state : σ}
    (cached : h.cachedStateAfter syn line = some state) :
    state = chain syn doc first (line + 1) := by
  unfold cachedStateAfter at cached
  split_ifs at cached with below
  rw [exact.states.exact line below, Option.filter_eq_some_iff] at cached
  exact (Option.some.inj cached.1).symm

theorem advanceThrough_exact (exact : Exact syn doc first h) (inside : line < doc.lines.length) :
    (h.advanceThrough syn doc line (chain syn doc first line)).1 = chain syn doc first (line + 1) ∧
      Exact syn doc first (h.advanceThrough syn doc line (chain syn doc first line)).2 := by
  unfold advanceThrough
  split
  next cached found =>
    exact ⟨cachedStateAfter_exact exact found, exact⟩
  · rw [advanceState_chain inside]
    exact ⟨rfl, storeLineState_exact exact line⟩

theorem advanceThrough_checkpoints (syn : Syntax σ τ) (doc : DocumentState) (h : Highlights σ τ)
    (line : Nat) (state : σ) : (h.advanceThrough syn doc line state).2.checkpoints = h.checkpoints ∧
      (h.advanceThrough syn doc line state).2.checkpointsValidThrough =
        h.checkpointsValidThrough := by
  unfold advanceThrough
  split
  · exact ⟨rfl, rfl⟩
  · exact storeLineState_checkpoints _ _

/-- The checkpoints are as many as the document has, and those up to `line` are valid. -/
def Reaches (doc : DocumentState) (line : Nat) (checkpoints : List σ) (valid : Nat) : Prop :=
  checkpoints.length = checkpointCount doc ∧ line < kHighlightCheckpointInterval * valid

/-- A replay from a state of the chain stays on it, where what is done after each line keeps the
caches exact; `reaches` is what that needs of the line and the checkpoints. -/
theorem replay_exact (mark : Nat → σ → Highlights σ τ → Highlights σ τ)
    (reaches : Nat → List σ → Nat → Prop)
    (keeps : ∀ {line : Nat} {h : Highlights σ τ}, Exact syn doc first h →
      reaches line h.checkpoints h.checkpointsValidThrough →
        let marked := mark (line + 1) (chain syn doc first (line + 1)) h
        Exact syn doc first marked ∧
          (line + 1 < doc.lines.length →
            reaches (line + 1) marked.checkpoints marked.checkpointsValidThrough))
    (count line : Nat) (exact : Exact syn doc first h) (inside : line + count ≤ doc.lines.length)
    (reached : line < doc.lines.length → reaches line h.checkpoints h.checkpointsValidThrough) :
    (h.replay syn doc mark count line (chain syn doc first line)).1 =
        chain syn doc first (line + count) ∧
      Exact syn doc first (h.replay syn doc mark count line (chain syn doc first line)).2 := by
  induction count generalizing line h with
  | zero => exact ⟨rfl, exact⟩
  | succ count ih =>
    have here : line < doc.lines.length := by omega
    obtain ⟨state, advanced⟩ := advanceThrough_exact exact here
    obtain ⟨same, count_same⟩ := advanceThrough_checkpoints syn doc h line
      (chain syn doc first line)
    obtain ⟨marked, next⟩ := keeps advanced (by rw [same, count_same]; exact reached here)
    have rest := ih (line + 1) marked (by omega) next
    rw [replay, state, show line + (count + 1) = line + 1 + count by omega]
    exact rest

theorem recordCheckpoint_exact (exact : Exact syn doc first h)
    (reached : Reaches doc line h.checkpoints h.checkpointsValidThrough) :
    let marked := recordCheckpoint doc (line + 1) (chain syn doc first (line + 1)) h
    Exact syn doc first marked ∧
      (line + 1 < doc.lines.length →
        Reaches doc (line + 1) marked.checkpoints marked.checkpointsValidThrough) := by
  obtain ⟨sized, above⟩ := reached
  unfold recordCheckpoint
  split_ifs with boundary
  · obtain ⟨inside, divides⟩ := boundary
    have multiple := Nat.div_mul_cancel (Nat.dvd_of_mod_eq_zero divides)
    generalize index_eq : (line + 1) / kHighlightCheckpointInterval = index at multiple ⊢
    have next : index ≤ h.checkpointsValidThrough := by
      unfold kHighlightCheckpointInterval at *
      omega
    have there : index < h.checkpoints.length := by
      rw [sized, checkpointCount, if_neg (ne_nil_of_length_pos (by omega)), ← index_eq]
      exact Nat.lt_succ_of_le (Nat.div_le_div_right (by omega))
    have written := exact.checkpoints.set index
    rw [multiple] at written
    have grown : Agrees (fun index => chain syn doc first (index * kHighlightCheckpointInterval))
        (h.checkpoints.set index (chain syn doc first (line + 1)))
        (max h.checkpointsValidThrough (index + 1)) := by
      rcases Nat.lt_or_ge index h.checkpointsValidThrough with old | new
      · rwa [Nat.max_eq_left old]
      · obtain rfl : index = h.checkpointsValidThrough := Nat.le_antisymm next new
        rw [Nat.max_eq_right (Nat.le_succ _)]
        refine written.succ ?_
        rw [getElem?_set_self there, multiple]
    refine ⟨{ exact with checkpoints := grown }, fun _ => ⟨by rw [length_set, sized], ?_⟩⟩
    rw [← multiple, Nat.mul_comm]
    exact Nat.mul_lt_mul_of_pos_left (Nat.lt_of_lt_of_le (Nat.lt_succ_self _) (Nat.le_max_right _ _))
      (by decide)
  · refine ⟨exact, fun inside => ⟨sized, ?_⟩⟩
    unfold kHighlightCheckpointInterval at *
    omega

/-! ### The state before a line -/

theorem usableCheckpoint_le (syn : Syntax σ τ) (h : Highlights σ τ) (index : Nat) :
    h.usableCheckpoint syn index ≤ index := by
  induction index with
  | zero => exact Nat.le_refl 0
  | succ index ih =>
    rw [usableCheckpoint]
    split_ifs
    · exact Nat.le_refl _
    · exact Nat.le_succ_of_le ih

theorem usableCheckpoint_lt {index : Nat} (nonzero : h.usableCheckpoint syn index ≠ 0) :
    h.usableCheckpoint syn index < h.checkpointsValidThrough := by
  induction index with
  | zero => exact absurd rfl nonzero
  | succ index ih =>
    rw [usableCheckpoint] at nonzero ⊢
    split_ifs at nonzero ⊢ with usable
    · simp only [Highlights.usable, Bool.and_eq_true, decide_eq_true_eq] at usable
      exact usable.1
    · exact ih nonzero

/-- The state of the checkpoint a replay resumes from is the chain's. -/
theorem checkpointState_exact (exact : Exact syn doc first h) {index : Nat}
    (valid : index ≠ 0 → index < h.checkpointsValidThrough) :
    h.checkpointState syn index = chain syn doc first (index * kHighlightCheckpointInterval) := by
  unfold checkpointState
  split_ifs with zero
  · rw [zero, Nat.zero_mul, firstState_of_initial exact.initial]
    rfl
  · rw [getD_eq_getElem?_getD, exact.checkpoints.exact index (valid zero)]
    rfl

theorem seedCheckpoints_length (syn : Syntax σ τ) (h : Highlights σ τ) :
    (h.seedCheckpoints syn).checkpoints.length = h.checkpoints.length ∧
      (h.checkpoints ≠ [] → 0 < (h.seedCheckpoints syn).checkpointsValidThrough) := by
  unfold seedCheckpoints
  split_ifs with none
  · exact ⟨rfl, fun some => absurd none some⟩
  · exact ⟨length_set, fun _ => Nat.lt_of_lt_of_le Nat.zero_lt_one (Nat.le_max_right _ _)⟩

theorem sizeToDocument_length (h : Highlights σ τ) :
    (h.sizeToDocument syn doc).checkpoints.length = checkpointCount doc := by
  unfold sizeToDocument
  dsimp only
  split_ifs with sized
  · simp only [resizeCheckpoints, length_append, length_take, length_replicate]
    omega
  · simpa using sized

/-- The prepared caches reach line 0. -/
theorem ensureCaches_reaches (syn : Syntax σ τ) (h : Highlights σ τ)
    (enabled : doc.syntaxHighlightingEnabled = true) (some : doc.lines ≠ []) :
    (h.ensureCaches syn doc).checkpoints.length = checkpointCount doc ∧
      0 < (h.ensureCaches syn doc).checkpointsValidThrough := by
  rw [ensureCaches, if_neg (by simp [enabled, some])]
  obtain ⟨length, positive⟩ := seedCheckpoints_length syn
    (((h.ensureInitialState syn doc).catchUp doc).sizeToDocument syn doc)
  rw [length, sizeToDocument_length]
  refine ⟨rfl, positive (ne_nil_of_length_pos ?_)⟩
  rw [sizeToDocument_length, checkpointCount, if_neg some]
  exact Nat.succ_pos _

/-- The prepared caches reach the line of every usable checkpoint. -/
theorem reaches_usableCheckpoint (syn : Syntax σ τ) (h : Highlights σ τ)
    (enabled : doc.syntaxHighlightingEnabled = true) (some : doc.lines ≠ []) (index : Nat) :
    Reaches doc
      ((h.ensureCaches syn doc).usableCheckpoint syn index * kHighlightCheckpointInterval)
      (h.ensureCaches syn doc).checkpoints (h.ensureCaches syn doc).checkpointsValidThrough := by
  obtain ⟨sized, positive⟩ := ensureCaches_reaches syn h enabled some
  have valid : (h.ensureCaches syn doc).usableCheckpoint syn index ≠ 0 →
      (h.ensureCaches syn doc).usableCheckpoint syn index <
        (h.ensureCaches syn doc).checkpointsValidThrough := usableCheckpoint_lt
  refine ⟨sized, ?_⟩
  unfold kHighlightCheckpointInterval
  omega

theorem ensureCheckpoint_exact (exact : Exact syn doc first h) (index : Nat) :
    Exact syn doc first (h.ensureCheckpoint syn doc index) := by
  have ready := ensureCaches_exact exact
  unfold ensureCheckpoint
  dsimp only
  split_ifs with off usable capped
  · exact ready
  · exact ready
  all_goals
    simp only [Bool.not_eq_true', not_or, Bool.not_eq_false] at off
    obtain ⟨enabled, some, inside⟩ := off
    have reached := reaches_usableCheckpoint syn h enabled some index
    have above := usableCheckpoint_le syn (h.ensureCaches syn doc) index
    rw [checkpointState_exact ready usableCheckpoint_lt]
    rw [reached.1, checkpointCount, if_neg some] at inside
    generalize h.ensureCaches syn doc = prepared at *
  · have capped := of_decide_eq_true capped
    generalize kMaxSyncHighlightReplayLines = count at capped ⊢
    have asked := askBackfill_exact ready (max prepared.pendingBackfillTargetLine
      (min doc.lines.length (index * kHighlightCheckpointInterval)))
    exact (replay_exact (recordCheckpoint doc) (Reaches doc) recordCheckpoint_exact count _
      asked (by omega) fun _ => reached).2
  · refine (replay_exact (recordCheckpoint doc) (Reaches doc) recordCheckpoint_exact _ _ ready ?_
      fun _ => reached).2
    unfold kHighlightCheckpointInterval at *
    omega

theorem deepestValidCheckpoint_le (syn : Syntax σ τ) (h : Highlights σ τ) (line : Nat) :
    h.deepestValidCheckpoint syn line * kHighlightCheckpointInterval ≤ line :=
  Nat.le_trans
    (Nat.mul_le_mul_right _ (Nat.le_trans (usableCheckpoint_le syn h _) (Nat.min_le_left _ _)))
    (Nat.div_mul_le_self line _)

/-- The state before a line; where the flag says so it is the chain's. -/
theorem stateBeforeLine_exact (prepared : Exact syn doc first (h.ensureCaches syn doc))
    (inside : line < doc.lines.length) : ((h.stateBeforeLine syn doc line).2.lastStateExact = true →
      (h.stateBeforeLine syn doc line).1 = chain syn doc first line) ∧
      Exact syn doc first (h.stateBeforeLine syn doc line).2 := by
  have ready : Exact syn doc first { h.ensureCaches syn doc with lastStateExact := true } :=
    { prepared with }
  unfold stateBeforeLine
  dsimp only
  split_ifs with zero deep
  · subst zero
    exact ⟨fun _ => firstState_of_initial ready.initial, ready⟩
  · exact ⟨fun approximate => absurd approximate id, { ready with }⟩
  · have checked := ensureCheckpoint_exact ready (line / kHighlightCheckpointInterval)
    generalize ensureCheckpoint syn doc (line / kHighlightCheckpointInterval) _ = h' at checked ⊢
    have resume := deepestValidCheckpoint_le syn h' line
    have valid : h'.deepestValidCheckpoint syn line ≠ 0 →
        h'.deepestValidCheckpoint syn line < h'.checkpointsValidThrough := usableCheckpoint_lt
    rw [checkpointState_exact checked valid]
    obtain ⟨state, replayed⟩ := replay_exact (fun _ _ h => h) (fun _ _ _ => True)
      (fun exact _ => ⟨exact, fun _ => trivial⟩)
      (line - h'.deepestValidCheckpoint syn line * kHighlightCheckpointInterval)
      (h'.deepestValidCheckpoint syn line * kHighlightCheckpointInterval) checked (by omega)
      (fun _ => trivial)
    rw [Nat.add_sub_cancel' resume] at state
    exact ⟨fun _ => state, replayed⟩

/-- A token query inside the document. -/
theorem highlightedLineTokens_exact (ready : Exact syn doc first (h.ensureCaches syn doc))
    (inside : line < doc.lines.length) (enabled : doc.syntaxHighlightingEnabled = true) :
    Exact syn doc first (h.highlightedLineTokens syn doc line).2 := by
  rw [highlightedLineTokens, if_neg (by simp [enabled, inside])]
  dsimp only
  split
  · exact ready
  · obtain ⟨state, before⟩ := stateBeforeLine_exact (ensureCaches_exact ready) inside
    have stored := storeTokens_exact before line
      (syn.highlightLine (doc.tokenizableLine line) doc.path
        ((h.ensureCaches syn doc).stateBeforeLine syn doc line).1).1
    rw [storeTokens_lastStateExact]
    split_ifs with resumed
    · have onChain := storeLineState_exact stored line
      rw [← advanceState_chain inside, advanceState_eq] at onChain
      rw [state resumed]
      rwa [state resumed] at onChain
    · exact stored

/-! ### The frontier -/

/-- The frontier of `h'` is at `line` at least and not above that of `h`. -/
structure Fills (line : Nat) (h h' : Highlights σ τ) : Prop where
  kept : h.lineStatesValidThrough ≤ h'.lineStatesValidThrough
  reached : line ≤ h'.lineStatesValidThrough
  lastStateExact : h'.lastStateExact = h.lastStateExact

theorem storeLineState_fills (reached : line ≤ h.lineStatesValidThrough) (state : σ) :
    Fills (line + 1) h (h.storeLineState line state) := by
  unfold storeLineState
  split_ifs with below apart
  · exact ⟨Nat.le_refl _, below, rfl⟩
  · omega
  all_goals exact ⟨by dsimp only; omega, Nat.le_refl _, rfl⟩

theorem advanceThrough_fills (reached : line ≤ h.lineStatesValidThrough) (state : σ) :
    Fills (line + 1) h (h.advanceThrough syn doc line state).2 := by
  unfold advanceThrough
  split
  next cached found =>
    unfold cachedStateAfter at found
    split_ifs at found with below
    exact ⟨Nat.le_refl _, below, rfl⟩
  · exact storeLineState_fills reached _

/-- A replay from the frontier or before it moves the frontier to its end. -/
theorem replay_fills (syn : Syntax σ τ) (doc : DocumentState)
    (mark : Nat → σ → Highlights σ τ → Highlights σ τ)
    (quiet : ∀ line state (h : Highlights σ τ),
      (mark line state h).lineStatesValidThrough = h.lineStatesValidThrough ∧
        (mark line state h).lastStateExact = h.lastStateExact)
    (count line : Nat) (state : σ) (reached : line ≤ h.lineStatesValidThrough) :
    Fills (line + count) h (h.replay syn doc mark count line state).2 := by
  induction count generalizing line state h with
  | zero => exact ⟨Nat.le_refl _, reached, rfl⟩
  | succ count ih =>
    have advanced : Fills (line + 1) h (h.advanceThrough syn doc line state).2 :=
      advanceThrough_fills reached state
    obtain ⟨frontier, flag⟩ := quiet (line + 1) (h.advanceThrough syn doc line state).1
      (h.advanceThrough syn doc line state).2
    have rest := ih (line + 1) (h.advanceThrough syn doc line state).1
      (advanced.reached.trans_eq frontier.symm)
    rw [replay, show line + (count + 1) = line + 1 + count by omega]
    exact ⟨Nat.le_trans (advanced.kept.trans_eq frontier.symm) rest.kept, rest.reached,
      (rest.lastStateExact.trans flag).trans advanced.lastStateExact⟩

theorem recordCheckpoint_quiet (line : Nat) (state : σ) (h : Highlights σ τ) :
    (recordCheckpoint doc line state h).lineStatesValidThrough = h.lineStatesValidThrough ∧
      (recordCheckpoint doc line state h).lastStateExact = h.lastStateExact := by
  unfold recordCheckpoint
  split
  · exact ⟨rfl, rfl⟩
  · exact ⟨rfl, rfl⟩

/-- Where a checkpoint is built up to a line in reach, the frontier is there too. -/
theorem stateBeforeLine_fills (syn : Syntax σ τ) (doc : DocumentState) (h : Highlights σ τ)
    (positive : line ≠ 0)
    (near : ¬ kMaxSyncHighlightReplayLines <
      line - Highlights.deepestValidCheckpoint syn
        { h.ensureCaches syn doc with lastStateExact := true } line * kHighlightCheckpointInterval)
    (checked : Fills line { h.ensureCaches syn doc with lastStateExact := true }
      (Highlights.ensureCheckpoint syn doc (line / kHighlightCheckpointInterval)
        { h.ensureCaches syn doc with lastStateExact := true })) :
    Fills line { h.ensureCaches syn doc with lastStateExact := true }
      (h.stateBeforeLine syn doc line).2 := by
  unfold stateBeforeLine
  dsimp only
  rw [if_neg positive, if_neg near]
  generalize Highlights.ensureCheckpoint syn doc (line / kHighlightCheckpointInterval) _ = h' at *
  have start := deepestValidCheckpoint_le syn h' line
  have quiet : ∀ (line : Nat) (state : σ) (h : Highlights σ τ),
      h.lineStatesValidThrough = h.lineStatesValidThrough ∧
        h.lastStateExact = h.lastStateExact := fun _ _ _ => ⟨rfl, rfl⟩
  have rest : Fills line h' (h'.replay syn doc (fun _ _ h => h)
      (line - h'.deepestValidCheckpoint syn line * kHighlightCheckpointInterval)
      (h'.deepestValidCheckpoint syn line * kHighlightCheckpointInterval)
      (h'.checkpointState syn (h'.deepestValidCheckpoint syn line))).2 := by
    have filled := replay_fills syn doc _ quiet
      (line - h'.deepestValidCheckpoint syn line * kHighlightCheckpointInterval)
      (h'.deepestValidCheckpoint syn line * kHighlightCheckpointInterval)
      (h'.checkpointState syn (h'.deepestValidCheckpoint syn line)) (Nat.le_trans start checked.reached)
    rwa [Nat.add_sub_cancel' start] at filled
  exact ⟨Nat.le_trans checked.kept rest.kept, rest.reached, rest.lastStateExact.trans checked.lastStateExact⟩

/-- What is stored at the frontier or before it stands there. -/
theorem storeLineState_stored (reached : line ≤ h.lineStatesValidThrough)
    (stored : h.lineStatesValidThrough ≤ h.lineStates.length) (state : σ) :
    line < (h.storeLineState line state).lineStatesValidThrough ∧
      (h.storeLineState line state).lineStates[line]? = some state := by
  refine ⟨(storeLineState_fills reached state).reached, ?_⟩
  unfold storeLineState
  split_ifs with below apart inside
  · exact getElem?_set_self (Nat.lt_of_lt_of_le below stored)
  · omega
  · exact getElem?_set_self inside
  · obtain rfl : line = h.lineStates.length := by omega
    exact getElem?_concat_length

/-- The caches of an unchanged document keep their frontier. -/
theorem ensureCaches_keeps {first : σ} (exact : Exact syn doc first h) :
    min h.lineStatesValidThrough doc.lines.length ≤
      (h.ensureCaches syn doc).lineStatesValidThrough := by
  unfold ensureCaches
  split_ifs with off
  · exact Nat.min_le_left _ _
  · have enabled : ¬ (!doc.syntaxHighlightingEnabled) = true := fun disabled => off (.inl disabled)
    have initial : h.ensureInitialState syn doc = h := by
      rw [ensureInitialState, if_neg enabled, if_pos ⟨by rw [exact.initial]; rfl, exact.syntaxes⟩]
    have caughtUp : h.catchUp doc = h := by
      rw [catchUp, if_neg (by simp [exact.content, exact.syntaxes])]
    rw [initial, caughtUp]
    unfold seedCheckpoints sizeToDocument
    dsimp only
    split_ifs <;> exact Nat.le_refl _

/-! ### Invalidation -/

/-- The chain above an edit is the old one. -/
theorem chain_congr (path : doc'.path = doc.path)
    (same : doc'.lines.take start = doc.lines.take start) {n : Nat} (le : n ≤ start) :
    chain syn doc first n = chain syn doc' first n := by
  unfold chain
  rw [path]
  refine (stateBefore_congr _ _ ?_).symm
  rw [← Nat.min_eq_left le, ← take_take, same, take_take]

theorem staleTokensFrom_exact (exact : Exact syn doc first h) (start : Nat) :
    Exact syn doc first (h.staleTokensFrom start) := by
  unfold staleTokensFrom
  split_ifs
  · exact dropTokenCache_exact exact
  · exact { exact with }

theorem invalidateContent_start (syn : Syntax σ τ) (top : min start doc.lines.length = 0) :
    Cleared doc (h.invalidateContent syn doc start) := by
  rw [invalidateContent, if_pos top]
  exact ⟨rfl, rfl, rfl, rfl, rfl⟩

theorem seedCheckpoints_stamp (doc : DocumentState) (h : Highlights σ τ) :
    (stamp doc h).seedCheckpoints syn = stamp doc (h.seedCheckpoints syn) := by
  unfold seedCheckpoints stamp
  split_ifs <;> rfl

theorem checkpointCount_above (positive : 0 < start) (inside : start ≤ doc.lines.length) :
    start / kHighlightCheckpointInterval ≤ checkpointCount doc := by
  rw [checkpointCount, if_neg (ne_nil_of_length_pos (by omega))]
  unfold kHighlightCheckpointInterval
  omega

/-- What is kept after an edit is of the chain of the edited document. -/
theorem cutFrom_exact (exact : Exact syn doc first h) (path : doc'.path = doc.path)
    (same : doc'.lines.take start = doc.lines.take start) (positive : 0 < start)
    (inside : start ≤ doc'.lines.length) :
    Exact syn doc' first (stamp doc' (h.cutFrom syn doc' start)) := by
  have stale := staleTokensFrom_exact exact start
  have kept := stale.checkpoints.mono (Nat.min_le_left _ (start / kHighlightCheckpointInterval))
  have moved : Agrees (fun index => chain syn doc' first (index * kHighlightCheckpointInterval))
      (h.staleTokensFrom start).checkpoints
      (min (h.staleTokensFrom start).checkpointsValidThrough
        (start / kHighlightCheckpointInterval)) := by
    refine kept.congr fun index below => chain_congr path same ?_
    unfold kHighlightCheckpointInterval at *
    omega
  refine ⟨stale.initial, rfl, rfl, ?_, ?_⟩
  · refine (stale.states.mono (Nat.min_le_left _ start)).congr fun line below => ?_
    exact chain_congr path same (Nat.le_trans below (Nat.min_le_right _ _))
  · unfold stamp cutFrom
    dsimp only
    split_ifs
    · have sized := resizeCheckpoints_agrees syn moved (checkpointCount doc')
      rwa [Nat.min_eq_left (Nat.le_trans (Nat.min_le_right _ _)
        (checkpointCount_above positive inside))] at sized
    · exact moved

/-- Preparing the caches never moves the frontier up. -/
theorem ensureCaches_frontier :
    (h.ensureCaches syn doc).lineStatesValidThrough ≤ h.lineStatesValidThrough := by
  have initial : (h.ensureInitialState syn doc).lineStatesValidThrough = h.lineStatesValidThrough := by
    unfold ensureInitialState
    split_ifs <;> rfl
  have caughtUp : ∀ h : Highlights σ τ,
      (h.catchUp doc).lineStatesValidThrough ≤ h.lineStatesValidThrough := by
    intro h
    unfold catchUp
    split_ifs
    · exact Nat.zero_le _
    · exact Nat.le_refl _
  have sized : ∀ h : Highlights σ τ,
      (h.sizeToDocument syn doc).lineStatesValidThrough ≤ h.lineStatesValidThrough := by
    intro h
    unfold sizeToDocument
    dsimp only
    split_ifs <;> exact Nat.min_le_left _ _
  have seeded : ∀ h : Highlights σ τ,
      (h.seedCheckpoints syn).lineStatesValidThrough = h.lineStatesValidThrough := by
    intro h
    unfold seedCheckpoints
    split_ifs <;> rfl
  unfold ensureCaches
  split_ifs
  · exact Nat.le_refl _
  · rw [seeded]
    exact Nat.le_trans (sized _) (Nat.le_trans (caughtUp _) (Nat.le_of_eq initial))

/-- The caches are empty or the chain's. -/
def Sound (syn : Syntax σ τ) (doc : DocumentState) (h : Highlights σ τ) : Prop :=
  Cleared doc h ∨ ∃ first, Exact syn doc first h

theorem ensureCaches_sound (sound : Sound syn doc h)
    (enabled : doc.syntaxHighlightingEnabled = true) (some : doc.lines ≠ []) :
    ∃ first, Exact syn doc first (h.ensureCaches syn doc) := by
  rcases sound with cleared | ⟨first, exact⟩
  · exact ensureCaches_cleared cleared enabled some
  · exact ⟨first, ensureCaches_exact exact⟩

theorem cutFrom_cleared (syn : Syntax σ τ) (doc' : DocumentState) (cleared : Cleared doc h)
    (start : Nat) : Cleared doc' (stamp doc' (h.cutFrom syn doc' start)) := by
  have initial : (h.staleTokensFrom start).initialState = none ∧
      (h.staleTokensFrom start).lineStatesValidThrough = 0 ∧
      (h.staleTokensFrom start).checkpointsValidThrough = 0 := by
    unfold staleTokensFrom
    split_ifs <;> exact ⟨cleared.initial, cleared.states, cleared.checkpoints⟩
  obtain ⟨none, states, checkpoints⟩ := initial
  refine ⟨none, rfl, rfl, ?_, ?_⟩
  · exact (congrArg (min · start) states).trans (Nat.zero_min _)
  · exact (congrArg (min · _) checkpoints).trans (Nat.zero_min _)

theorem cutFrom_syntaxRevision : (h.cutFrom syn doc start).syntaxRevision = h.syntaxRevision := by
  unfold cutFrom staleTokensFrom
  dsimp only
  split_ifs <;> rfl

theorem cutFrom_checkpoints (positive : 0 < start) (inside : start ≤ doc.lines.length) :
    (h.cutFrom syn doc start).checkpoints ≠ [] := by
  refine ne_nil_of_length_pos ?_
  have count : 0 < checkpointCount doc := by
    rw [checkpointCount, if_neg (ne_nil_of_length_pos (by omega))]
    exact Nat.succ_pos _
  unfold cutFrom
  dsimp only
  split_ifs with sized
  · simp only [resizeCheckpoints, length_append, length_take, length_replicate]
    omega
  · omega

theorem ensureInitialState_stamp (same : h.syntaxRevision = doc.syntaxRevision) :
    (stamp doc h).ensureInitialState syn doc = stamp doc (h.ensureInitialState syn doc) := by
  unfold ensureInitialState stamp
  rw [← same]
  split_ifs <;> rfl

/-- An edit: what is above it stays, and the rest is to be computed again. -/
theorem invalidateContent_sound (sound : Sound syn doc h) (path : doc'.path = doc.path)
    (same : doc'.lines.take start = doc.lines.take start)
    (syntaxes : doc'.syntaxRevision = doc.syntaxRevision)
    (enabled : start = 0 ∨ doc'.syntaxHighlightingEnabled = true) :
    Sound syn doc' (h.invalidateContent syn doc' start) := by
  rcases Nat.eq_zero_or_pos (min start doc'.lines.length) with top | below
  · exact .inl (invalidateContent_start syn top)
  · have enabled : doc'.syntaxHighlightingEnabled = true := enabled.resolve_left (by omega)
    have same' : doc'.lines.take (min start doc'.lines.length) =
        doc.lines.take (min start doc'.lines.length) := by
      rw [Nat.min_comm, ← take_take, ← take_take, same]
    right
    rw [invalidateContent, if_neg (by omega)]
    dsimp only
    have inside := Nat.min_le_right start doc'.lines.length
    generalize min start doc'.lines.length = start at *
    have revision : (h.cutFrom syn doc' start).syntaxRevision = doc'.syntaxRevision := by
      rw [cutFrom_syntaxRevision, syntaxes]
      rcases sound with cleared | ⟨first, exact⟩
      · exact cleared.syntaxes
      · exact exact.syntaxes
    rw [if_neg (cutFrom_checkpoints below inside), ← seedCheckpoints_stamp,
      ← ensureInitialState_stamp revision]
    rcases sound with cleared | ⟨first, exact⟩
    · obtain ⟨first, exact⟩ := ensureInitialState_cleared syn
        (cutFrom_cleared syn doc' cleared start) enabled
      exact ⟨first, seedCheckpoints_exact exact⟩
    · exact ⟨first, seedCheckpoints_exact
        (ensureInitialState_exact (cutFrom_exact exact path same' below inside) enabled)⟩

/-! ### Batches -/

/-- The worker's step, on the document's own line. -/
theorem highlightLine_chain (inside : line < doc.lines.length) :
    (syn.highlightLine doc.lines[line] doc.path (chain syn doc first line)).2 =
      chain syn doc first (line + 1) := by
  rw [← advanceState_eq, chain, chain, stateBefore_succ _ _ inside]

/-- A batch that was folded from the chain. -/
theorem installLines_exact (count line : Nat) (exact : Exact syn doc first h) :
    Exact syn doc first (h.installLines doc line
      (highlightLines syn doc.path (chain syn doc first line)
        ((doc.lines.drop line).take count))) := by
  induction count generalizing line h with
  | zero => exact exact
  | succ count ih =>
    rcases Nat.lt_or_ge line doc.lines.length with inside | outside
    · rw [drop_eq_getElem_cons inside, take_succ_cons, highlightLines,
        installLines, if_neg (Nat.not_le.mpr inside), highlightLine_chain inside]
      have stored := storeLineState_exact exact line
      refine ih (line + 1) ?_
      split_ifs
      · exact stored
      · exact storeTokens_exact stored line _
    · rw [drop_eq_nil_of_le outside]
      exact exact

/-- A batch that starts above the frontier stores no state. -/
theorem installLines_above (batch : List (τ × σ)) (exact : Exact syn doc first h)
    (above : h.lineStatesValidThrough < line) :
    Exact syn doc first (h.installLines doc line batch) := by
  induction batch generalizing line h with
  | nil => exact exact
  | cons highlighted rest ih =>
    rw [installLines]
    split_ifs
    · exact exact
    · rw [storeLineState_above above]
      dsimp only
      split_ifs
      · exact ih exact (Nat.lt_succ_of_lt above)
      · refine ih (storeTokens_exact exact line _) ?_
        rw [storeTokens_lineStates.1]
        exact Nat.lt_succ_of_lt above

/-- The boundary states of a stretch of the chain are the checkpoints after its first line. -/
theorem boundaryStates_chain (count line : Nat) {j : Nat} {state : σ}
    (found : (boundaryStates syn doc.path kHighlightCheckpointInterval line
      (chain syn doc first line) ((doc.lines.drop line).take count))[j]? = some state) :
    state = chain syn doc first
      ((line / kHighlightCheckpointInterval + 1 + j) * kHighlightCheckpointInterval) := by
  induction count generalizing line j with
  | zero => exact nomatch found
  | succ count ih =>
    rcases Nat.lt_or_ge line doc.lines.length with inside | outside
    · rw [drop_eq_getElem_cons inside, take_succ_cons, boundaryStates,
        advanceState_eq, highlightLine_chain inside] at found
      split_ifs at found with boundary
      · cases j with
        | zero =>
          rw [← Option.some.inj found]
          congr 1
          unfold kHighlightCheckpointInterval at *
          omega
        | succ j =>
          rw [ih (line + 1) found]
          congr 1
          unfold kHighlightCheckpointInterval at *
          omega
      · rw [ih (line + 1) found]
        congr 1
        unfold kHighlightCheckpointInterval at *
        omega
    · rw [drop_eq_nil_of_le outside] at found
      exact nomatch found

theorem installStates_exact (states : List σ) {index : Nat} (exact : Exact syn doc first h)
    (chained : ∀ j state, states[j]? = some state →
      state = chain syn doc first ((index + j) * kHighlightCheckpointInterval)) :
    Exact syn doc first (h.installStates index states) := by
  induction states generalizing index h with
  | nil => exact exact
  | cons state rest ih =>
    have here := chained 0 state rfl
    rw [Nat.add_zero] at here
    have written := exact.checkpoints.set index
    rw [← here] at written
    have later : ∀ j after, rest[j]? = some after →
        after = chain syn doc first ((index + 1 + j) * kHighlightCheckpointInterval) := by
      intro j after found
      rw [chained (j + 1) after found, Nat.add_assoc, Nat.add_comm 1 j]
    rw [installStates]
    split_ifs with outside frontier
    · exact exact
    · refine ih { exact with checkpoints := ?_ } later
      subst frontier
      refine written.succ ?_
      rw [getElem?_set_self (Nat.lt_of_not_le outside), here]
    · exact ih { exact with checkpoints := written } later

end Highlights

end Microide.Editor
