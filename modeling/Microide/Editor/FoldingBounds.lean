/-
What a refresh reports is in the document.

The lines of a block word are lines of its block and the memoised states know no line behind
their boundary, whatever was edited and however little a call was allowed to do. So every
candidate a window yields has its closer behind its opener and inside the document.

**Main results.** `resolveWindow_inside`: the candidates; `resolveWindow_carries`: resolving
touches neither the collapsed folds nor the partition; `syncCaches_partitioned`: an edit leaves
a partition of the new lines.
-/

import Microide.Editor.FoldingModel

namespace Microide.Editor

open List Text


/-- The fold ends behind its opener and inside a document of `n` lines. -/
def FoldRange.Inside (n : Nat) (range : FoldRange) : Prop :=
  range.openerLine < range.closerLine ∧ range.closerLine < n

variable {line i : Nat} {b : Block} {m m' : FoldingModel}

namespace FoldingModel

/-! ### Walks -/

/-- The folds reported so far are inside `n` lines and the last nonblank line is above `limit`. -/
structure Walk.Inside (n limit : Nat) (w : Walk) : Prop where
  out : ∀ range ∈ w.out, range.Inside n
  lastNonblank : ∀ line, w.state.lastNonblank = some line → line < limit

theorem foldRange?_inside {n : Nat} {emit : EmitLimit} {opener : Nat} {closer : Option Nat}
    {source : FoldSource} {range : FoldRange} (inside : ∀ line, closer = some line → line < n)
    (found : foldRange? emit opener closer source = some range) : range.Inside n := by
  unfold foldRange? at found
  split at found
  next limit line =>
    split at found
    next spans =>
      obtain rfl := Option.some.inj found
      exact ⟨spans.1, inside line rfl⟩
    · exact nomatch found
  · exact nomatch found

namespace Walk

variable {n limit : Nat} {w : Walk} {emit : EmitLimit}

theorem Inside.mono (inside : w.Inside n limit) {more : Nat} (le : limit ≤ more) :
    w.Inside n more :=
  ⟨inside.out, fun line found => Nat.lt_of_lt_of_le (inside.lastNonblank line found) le⟩

/-- A state whose last nonblank line is bounded through the state it comes from. -/
theorem Inside.withState (inside : w.Inside n limit) {more : Nat} {s : WalkState}
    (last : (∀ line, w.state.lastNonblank = some line → line < limit) →
      ∀ line, s.lastNonblank = some line → line < more) :
    Inside n more { w with state := s } :=
  ⟨inside.out, last inside.lastNonblank⟩

/-- What every step of a fold keeps. -/
theorem foldl_inside {β : Type} {step : Walk → β → Walk} {l : List β}
    (steps : ∀ x ∈ l, ∀ w : Walk, w.Inside n limit → (step w x).Inside n limit)
    (inside : w.Inside n limit) : (l.foldl step w).Inside n limit := by
  induction l generalizing w with
  | nil => exact inside
  | cons x rest ih =>
    exact ih (fun y mem => steps y (mem_cons_of_mem x mem)) (steps x mem_cons_self w inside)

theorem closeBracket_inside (inside : w.Inside n limit) (close : UInt8) (lt : line < n) :
    (w.closeBracket emit close line).Inside n limit := by
  unfold closeBracket
  split
  · exact inside
  · split
    · refine ⟨fun range mem => ?_, inside.lastNonblank⟩
      rcases mem_append.mp mem with old | new
      · exact inside.out range old
      · refine foldRange?_inside (fun l same => ?_) (Option.mem_toList.mp new)
        rwa [← Option.some.inj same]
    · exact inside

theorem closeIndents_inside (inside : w.Inside n limit) (threshold : Nat) {closer : Option Nat}
    (lt : ∀ line, closer = some line → line < n) :
    (w.closeIndents emit threshold closer).Inside n limit := by
  refine ⟨fun range mem => ?_, inside.lastNonblank⟩
  rcases mem_append.mp mem with old | new
  · exact inside.out range old
  · obtain ⟨top, -, found⟩ := mem_filterMap.mp new
    exact foldRange?_inside lt found

theorem pushBracket_lastNonblank (s : WalkState) (entry : StackBracket) :
    (s.pushBracket entry).lastNonblank = s.lastNonblank := by
  unfold WalkState.pushBracket
  dsimp only
  split <;> rfl

theorem pushIndent_lastNonblank (s : WalkState) (entry : StackIndent) :
    (s.pushIndent entry).lastNonblank = s.lastNonblank := by
  unfold WalkState.pushIndent
  dsimp only
  split <;> rfl

section

variable (inside : w.Inside n limit)

include inside

theorem bracket_inside (pairs : BracketPairs) (suppressed : Nat → Bool) (lt : line < n)
    (event : CachedBracket) : (w.bracket pairs suppressed emit line event).Inside n limit := by
  unfold bracket
  split
  · exact inside
  · split
    · exact inside
    · split
      · refine ⟨inside.out, fun l found => inside.lastNonblank l ?_⟩
        rwa [pushBracket_lastNonblank] at found
      · exact closeBracket_inside inside _ lt

theorem foldl_bracket_inside (pairs : BracketPairs) (suppressed : Nat → Bool) (lt : line < n)
    (events : List CachedBracket) :
    (events.foldl (Walk.bracket pairs suppressed emit line) w).Inside n limit := by
  induction events generalizing w with
  | nil => exact inside
  | cons event rest ih => exact ih (bracket_inside inside pairs suppressed lt event)

/-- The line of an indent becomes the last nonblank one. -/
theorem indent_inside (le : limit ≤ n) (line columns : Nat) :
    (w.indent emit line columns).Inside n (line + 1) := by
  have closed : (w.closeIndents emit columns w.state.lastNonblank).Inside n limit :=
    closeIndents_inside inside columns fun l found =>
      Nat.lt_of_lt_of_le (inside.lastNonblank l found) le
  refine ⟨closed.out, fun l found => ?_⟩
  obtain rfl : line = l := Option.some.inj found
  exact Nat.lt_succ_self line

theorem flushIndentsAtEof_inside (le : limit ≤ n) :
    ∀ range ∈ (w.flushIndentsAtEof emit).out, range.Inside n := by
  intro range mem
  rcases mem_append.mp mem with old | new
  · exact inside.out range old
  · obtain ⟨top, -, found⟩ := mem_filterMap.mp new
    exact foldRange?_inside (fun l same => Nat.lt_of_lt_of_le (inside.lastNonblank l same) le) found

end

end Walk

/-! ### Block words -/

/-- Every line a word names is one of the block's. -/
structure Block.Inside (b : Block) : Prop where
  closers : ∀ closer ∈ b.bracketClosers, closer.line < b.lineCount
  dedents : ∀ dedent ∈ b.indentDedents, ∀ line, dedent.closerLine = some line → line < b.lineCount
  lastNonblank : ∀ line, b.lastNonblank = some line → line < b.lineCount

theorem applyBlockWord_inside {n limit : Nat} {w : Walk} {start : Nat} {emit : EmitLimit}
    (inside : w.Inside n limit) (le : limit ≤ n) (words : b.Inside)
    (fits : start + b.lineCount ≤ n) :
    (applyBlockWord b start emit w).Inside n (max limit (start + b.lineCount)) := by
  have brackets : ∀ (l : List WordBracket) (s : WalkState),
      (l.foldl (fun s opener => s.pushBracket ⟨opener.close, start + opener.line⟩) s).lastNonblank =
        s.lastNonblank := by
    intro l
    induction l with
    | nil => exact fun _ => rfl
    | cons o rest ih => exact fun s => (ih _).trans (Walk.pushBracket_lastNonblank s _)
  have indents : ∀ (l : List WordIndent) (s : WalkState),
      (l.foldl (fun s opener => s.pushIndent ⟨opener.level, start + opener.line⟩) s).lastNonblank =
        s.lastNonblank := by
    intro l
    induction l with
    | nil => exact fun _ => rfl
    | cons o rest ih => exact fun s => (ih _).trans (Walk.pushIndent_lastNonblank s _)
  refine .withState (Walk.foldl_inside (fun d mem w inside => ?dedent)
    (Walk.foldl_inside (fun c mem w inside => ?closer) inside)) fun last line found => ?_
  case closer =>
    refine Walk.closeBracket_inside inside c.close ?_
    have := words.closers c mem
    omega
  case dedent =>
    refine Walk.closeIndents_inside inside d.threshold fun line found => ?_
    cases closer : d.closerLine with
    | none =>
      rw [closer] at found
      have := inside.lastNonblank line found
      omega
    | some rel =>
      rw [closer] at found
      have := words.dedents d mem rel closer
      obtain rfl : start + rel = line := Option.some.inj found
      omega
  split at found
  · rw [indents, brackets] at found
    have := last line found
    omega
  next rel last =>
    have := words.lastNonblank rel last
    obtain rfl : start + rel = line := Option.some.inj found
    omega

/-! ### Partitions -/

/-- The blocks are a partition of the lines, their words are of their own lines and a memoised
state knows no line behind its boundary. -/
structure Partitioned (m : FoldingModel) : Prop where
  total : (m.blocks.map (·.lineCount)).sum = m.documentLineCount
  words : ∀ b ∈ m.blocks, b.Inside
  prefixes : ∀ (i : Nat) (p : PrefixState), m.prefixStates[i]? = some p →
    ∀ line, p.lastNonblank = some line → line < m.blockStart i

/-- The folds and the partition are the same. -/
structure Carries (m m' : FoldingModel) : Prop where
  collapsed : m'.collapsed = m.collapsed
  count : m'.documentLineCount = m.documentLineCount
  lineCounts : m'.blocks.map (·.lineCount) = m.blocks.map (·.lineCount)
  partitioned : m.Partitioned → m'.Partitioned

theorem Carries.refl (m : FoldingModel) : m.Carries m := ⟨rfl, rfl, rfl, id⟩

theorem Carries.trans {m'' : FoldingModel} (first : m.Carries m') (second : m'.Carries m'') :
    m.Carries m'' :=
  ⟨second.collapsed.trans first.collapsed, second.count.trans first.count,
    second.lineCounts.trans first.lineCounts, second.partitioned ∘ first.partitioned⟩

/-- Per-line caches and block words were filled, the boundary states not. -/
structure Fills (m m' : FoldingModel) : Prop extends m.Carries m' where
  states : m'.prefixStates = m.prefixStates

theorem Fills.refl (m : FoldingModel) : m.Fills m := ⟨.refl m, rfl⟩

theorem Fills.trans {m'' : FoldingModel} (first : m.Fills m') (second : m'.Fills m'') :
    m.Fills m'' :=
  ⟨first.toCarries.trans second.toCarries, second.states.trans first.states⟩

theorem blockStart_of_lineCounts (same : m'.blocks.map (·.lineCount) = m.blocks.map (·.lineCount))
    (i : Nat) : m'.blockStart i = m.blockStart i := by
  rw [blockStart, blockStart, map_take, map_take, same]

/-- The blocks changed in their words and counts, the states not at all. -/
theorem Fills.of_blocks (collapsed : m'.collapsed = m.collapsed)
    (count : m'.documentLineCount = m.documentLineCount)
    (lineCounts : m'.blocks.map (·.lineCount) = m.blocks.map (·.lineCount))
    (states : m'.prefixStates = m.prefixStates)
    (words : (∀ b ∈ m.blocks, b.Inside) → ∀ b ∈ m'.blocks, b.Inside) : m.Fills m' where
  states := states
  collapsed := collapsed
  count := count
  lineCounts := lineCounts
  partitioned := fun parts =>
    { total := by rw [lineCounts, count, parts.total]
      words := words parts.words
      prefixes := fun i p found line last => by
        rw [blockStart_of_lineCounts lineCounts]
        rw [states] at found
        exact parts.prefixes i p found line last }

theorem blockStart_succ (found : m.blocks[i]? = some b) :
    m.blockStart (i + 1) = m.blockStart i + b.lineCount := by
  obtain ⟨inside, rfl⟩ := List.getElem?_eq_some_iff.mp found
  rw [blockStart, take_succ_eq_append_getElem inside, map_append, sum_append,
    map_singleton, sum_singleton]
  rfl

theorem blockStart_le_total (m : FoldingModel) (i : Nat) :
    m.blockStart i ≤ (m.blocks.map (·.lineCount)).sum := by
  conv_rhs => rw [← take_append_drop i m.blocks, map_append, sum_append]
  exact Nat.le_add_right _ _

/-- Changing one block where it keeps its lines. -/
theorem map_lineCount_modify {blocks : List Block} {f : Block → Block}
    (keeps : ∀ b, (f b).lineCount = b.lineCount) (i : Nat) :
    (blocks.modify i f).map (·.lineCount) = blocks.map (·.lineCount) := by
  refine ext_getElem? fun j => ?_
  rw [getElem?_map, getElem?_map, getElem?_modify]
  cases blocks[j]? with
  | none => rfl
  | some b =>
    split
    · exact congrArg some (keeps b)
    · rfl

theorem mem_modify {blocks : List Block} {f : Block → Block} (mem : b ∈ blocks.modify i f) :
    b ∈ blocks ∨ ∃ old, blocks[i]? = some old ∧ b = f old := by
  obtain ⟨j, found⟩ := mem_iff_getElem?.mp mem
  rw [getElem?_modify] at found
  split at found
  next here =>
    subst here
    obtain ⟨old, stood, rfl⟩ := Option.map_eq_some_iff.mp found
    exact .inr ⟨old, stood, rfl⟩
  · exact .inl (mem_of_getElem? (by simpa using found))

/-! ### Filling the caches -/

theorem extendOneLine_fills (pairs : BracketPairs) (lines : List Line) (m : FoldingModel) :
    m.Fills (m.extendOneLine pairs lines) := by
  refine .of_blocks rfl rfl (map_lineCount_modify ?_ _) rfl fun words b mem => ?_
  · exact fun _ => rfl
  rcases mem_modify mem with old | ⟨old, found, rfl⟩
  · exact words b old
  · have before := words old (mem_of_getElem? found)
    exact ⟨before.closers, before.dedents, before.lastNonblank⟩

theorem extendLines_fills (pairs : BracketPairs) (lines : List Line) (count : Nat)
    (m : FoldingModel) (budget : WorkBudget) :
    m.Fills (extendLines pairs lines count m budget).2.1 := by
  induction count generalizing m budget with
  | zero => exact .refl m
  | succ count ih =>
    rw [extendLines]
    split
    · exact (extendOneLine_fills pairs lines m).trans (ih _ _)
    · exact .refl m

theorem extendBracketCache_fills (pairs : BracketPairs) (lines : List Line) (neededEnd : Nat)
    (m : FoldingModel) (budget : WorkBudget) :
    m.Fills (m.extendBracketCache pairs lines neededEnd budget).2.1 := by
  unfold extendBracketCache
  dsimp only
  split
  · exact .refl m
  · exact extendLines_fills pairs lines _ m budget

theorem indentAt_fills (tabSize : Nat) (lines : List Line) (line : Nat) (m : FoldingModel)
    (budget : WorkBudget) : m.Fills (m.indentAt tabSize lines line budget).2.1 := by
  unfold indentAt
  split
  · exact .of_blocks rfl rfl rfl rfl id
  · exact .refl m

theorem reduceIndents_fills (tabSize : Nat) (lines : List Line) (start count : Nat) (line : Nat)
    (word : IndentWord) (m : FoldingModel) (budget : WorkBudget) :
    m.Fills (reduceIndents tabSize lines start count line word m budget).2.1 := by
  induction count generalizing line word m budget with
  | zero => exact .refl m
  | succ count ih => exact (indentAt_fills tabSize lines line m budget).trans (ih _ _ _ _)

/-- The closers of a word are above `limit` lines of the block. -/
theorem reduceBrackets_inside {pairs : BracketPairs} {start limit : Nat} (count line event : Nat)
    {word : BracketWord} (fits : line + count - start ≤ limit) (behind : start ≤ line)
    (inside : ∀ closer ∈ word.closers, closer.line < limit) :
    ∀ closer ∈ (reduceBrackets pairs m start count line event word).closers,
      closer.line < limit := by
  induction count generalizing line event word with
  | zero => exact inside
  | succ count ih =>
    refine ih (line + 1) _ (by omega) (by omega) ?_
    have rel : line - start < limit := by omega
    generalize (m.lineBrackets.drop event).take _ = events
    induction events generalizing word with
    | nil => exact inside
    | cons e rest step =>
      refine step ?_
      unfold BracketWord.bracket
      split
      · exact inside
      · split
        · exact inside
        · split
          · exact inside
          · split
            · split <;> exact inside
            · intro closer mem
              rcases mem_append.mp mem with old | new
              · exact inside closer old
              · rw [mem_singleton.mp new]
                exact rel

/-- The lines an indent word names are above `limit`. -/
structure IndentWord.Inside (limit : Nat) (word : IndentWord) : Prop where
  dedents : ∀ dedent ∈ word.dedents, ∀ line, dedent.closerLine = some line → line < limit
  lastNonblank : ∀ line, word.lastNonblank = some line → line < limit

theorem reduceIndents_inside {tabSize : Nat} {lines : List Line} {start limit : Nat}
    (count line : Nat) {word : IndentWord} (m : FoldingModel) (budget : WorkBudget)
    (fits : line + count - start ≤ limit) (behind : start ≤ line) (inside : word.Inside limit) :
    (reduceIndents tabSize lines start count line word m budget).1.Inside limit := by
  induction count generalizing line word m budget with
  | zero => exact inside
  | succ count ih =>
    refine ih (line + 1) _ _ (by omega) (by omega) ?_
    split
    · refine ⟨fun dedent mem l found => ?_, fun l found => ?_⟩
      · unfold IndentWord.indent at mem
        dsimp only at mem
        split at mem
        · rcases mem_append.mp mem with old | new
          · exact inside.dedents dedent old l found
          · rw [mem_singleton.mp new] at found
            exact inside.lastNonblank l found
        · exact inside.dedents dedent mem l found
      · obtain rfl : line - start = l := Option.some.inj found
        omega
    · exact inside

/-- A block's word built: it stands with lines of its own. -/
theorem storeWord_fills (m : FoldingModel) (block : Nat) (found : m.blocks[block]? = some b)
    {brackets : BracketWord} {indents : IndentWord}
    (closers : ∀ closer ∈ brackets.closers, closer.line < b.lineCount)
    (inside : indents.Inside b.lineCount) : m.Fills
      { m with
        blocks := m.blocks.modify block fun b =>
          { b with
            valid := true
            lastNonblank := indents.lastNonblank
            bracketClosers := brackets.closers
            bracketOpeners := brackets.stack.reverse
            indentDedents := indents.dedents
            indentOpeners := indents.stack.reverse } } := by
  refine .of_blocks rfl rfl (map_lineCount_modify ?_ _) rfl fun words c mem => ?_
  · exact fun _ => rfl
  · rcases mem_modify mem with old | ⟨old, stood, rfl⟩
    · exact words c old
    · obtain rfl : b = old := Option.some.inj (found.symm.trans stood)
      exact ⟨closers, inside.dedents, inside.lastNonblank⟩

theorem lineCount_of_lineCounts (same : m'.blocks.map (·.lineCount) = m.blocks.map (·.lineCount))
    (found : m.blocks[i]? = some b) :
    ∃ b', m'.blocks[i]? = some b' ∧ b'.lineCount = b.lineCount := by
  have both := congrArg (·[i]?) same
  rw [getElem?_map, getElem?_map, found] at both
  exact Option.map_eq_some_iff.mp both

theorem ensureBlockSummary_fills (options : ComputeOptions) (lines : List Line)
    (block eventIndex : Nat) (m : FoldingModel) (budget : WorkBudget) :
    m.Fills (m.ensureBlockSummary options lines block eventIndex budget).2.1 := by
  unfold ensureBlockSummary
  split
  · exact .refl m
  next b found =>
    split
    · exact .refl m
    · split
      · exact .refl m
      · dsimp only
        generalize stop_eq : min (m.blockStart block + b.lineCount) lines.length = stop
        have extended := extendBracketCache_fills options.bracketPairs lines stop m budget
        split
        · exact extended
        · generalize (m.extendBracketCache options.bracketPairs lines stop budget).2 = filled at *
          have fits : m.blockStart block + (stop - m.blockStart block) - m.blockStart block ≤
              b.lineCount := by omega
          have closers : ∀ closer ∈ (if options.bracketPairs = [] then ({} : BracketWord)
              else reduceBrackets options.bracketPairs filled.1 (m.blockStart block)
                (stop - m.blockStart block) (m.blockStart block) eventIndex {}).closers,
              closer.line < b.lineCount := by
            split
            · exact fun _ mem => nomatch mem
            · exact reduceBrackets_inside _ _ _ fits (Nat.le_refl _) fun _ mem => nomatch mem
          have nothing : IndentWord.Inside b.lineCount {} :=
            ⟨fun _ mem => (nomatch mem), fun _ last => nomatch last⟩
          split
          · have measured := reduceIndents_fills (max options.tabSize 1) lines
              (m.blockStart block) (stop - m.blockStart block) (m.blockStart block) {} filled.1
              filled.2
            have inside : (reduceIndents (max options.tabSize 1) lines (m.blockStart block)
                (stop - m.blockStart block) (m.blockStart block) {} filled.1 filled.2).1.Inside
                b.lineCount :=
              reduceIndents_inside _ _ filled.1 filled.2 fits (Nat.le_refl _) nothing
            obtain ⟨b', found', same⟩ :=
              lineCount_of_lineCounts (extended.trans measured).lineCounts found
            rw [← same] at closers inside
            exact (extended.trans measured).trans (storeWord_fills _ block found' closers inside)
          · obtain ⟨b', found', same⟩ := lineCount_of_lineCounts extended.lineCounts found
            rw [← same] at closers nothing
            exact extended.trans (storeWord_fills _ block found' closers nothing)

/-! ### Boundary states -/

section

variable (parts : m.Partitioned)

include parts

theorem Partitioned.blockStart_le (i : Nat) : m.blockStart i ≤ m.documentLineCount := by
  rw [← parts.total]
  exact blockStart_le_total m i

/-- The state at a boundary knows no line behind it. -/
theorem loadPrefixState_inside (n i : Nat) :
    Walk.Inside n (m.blockStart i) { state := m.loadPrefixState i } := by
  refine ⟨fun _ mem => (nomatch mem), fun line found => ?_⟩
  unfold loadPrefixState at found
  split at found
  · exact nomatch found
  next p stored =>
    exact parts.prefixes i p stored line found

theorem storePrefixState_carries {state : WalkState} (eventIndex : Nat)
    (above : ∀ line, state.lastNonblank = some line → line < m.blockStart m.prefixStates.length) :
    m.Carries (m.storePrefixState state eventIndex) := by
  refine ⟨rfl, rfl, rfl, fun _ => { parts with prefixes := fun i p found line last => ?_ }⟩
  rcases Nat.lt_trichotomy i m.prefixStates.length with old | here | behind
  · rw [storePrefixState, getElem?_append_left old] at found
    exact parts.prefixes i p found line last
  · subst here
    rw [storePrefixState, getElem?_append_right (Nat.le_refl _), Nat.sub_self] at found
    obtain rfl := Option.some.inj found
    exact above line last
  · rw [storePrefixState, getElem?_eq_none (by
      rw [length_append, length_singleton]; omega)] at found
    exact nomatch found

theorem applyBlockWord_above (found : m.blocks[i]? = some b) {w : Walk} (emit : EmitLimit)
    (inside : w.Inside m.documentLineCount (m.blockStart i)) :
    (applyBlockWord b (m.blockStart i) emit w).Inside m.documentLineCount (m.blockStart (i + 1)) := by
  have applied : (applyBlockWord b (m.blockStart i) emit w).Inside m.documentLineCount
      (max (m.blockStart i) (m.blockStart i + b.lineCount)) :=
    applyBlockWord_inside inside (parts.blockStart_le i)
      (parts.words b (mem_of_getElem? found))
      (by rw [← blockStart_succ found]; exact parts.blockStart_le _)
  rwa [Nat.max_eq_right (Nat.le_add_right _ _), ← blockStart_succ found] at applied

end

theorem growPrefixStates_carries (options : ComputeOptions) (lines : List Line) (count : Nat)
    {state : WalkState} (eventIndex : Nat) (budget : WorkBudget)
    (parts : m.Partitioned) (some_ : m.prefixStates ≠ [])
    (above : ∀ line, state.lastNonblank = some line →
      line < m.blockStart (m.prefixStates.length - 1)) :
    m.Carries (growPrefixStates options lines count state eventIndex m budget).1 := by
  induction count generalizing state eventIndex m budget with
  | zero => exact .refl m
  | succ count ih =>
    rw [growPrefixStates]
    dsimp only
    split_ifs with last_block missing
    · exact .refl m
    all_goals
      have ensured := ensureBlockSummary_fills options lines (m.prefixStates.length - 1) eventIndex
        m budget
    · exact ensured.toCarries
    · generalize m.ensureBlockSummary options lines (m.prefixStates.length - 1) eventIndex budget =
        result at ensured ⊢
      have parts' := ensured.partitioned parts
      have inside : m.prefixStates.length - 1 < result.2.1.blocks.length := by
        have same := congrArg List.length ensured.lineCounts
        rw [length_map, length_map] at same
        omega
      have last : m.prefixStates.length - 1 + 1 = result.2.1.prefixStates.length := by
        rw [ensured.states]
        exact Nat.sub_add_cancel (length_pos_iff.mpr some_)
      obtain ⟨b, found⟩ : ∃ b, result.2.1.blocks[m.prefixStates.length - 1]? = some b :=
        ⟨_, getElem?_eq_getElem inside⟩
      rw [found]
      have before : Walk.Inside result.2.1.documentLineCount
          (result.2.1.blockStart (m.prefixStates.length - 1)) { state := state } := by
        refine ⟨fun _ mem => (nomatch mem), fun line found => ?_⟩
        rw [blockStart_of_lineCounts ensured.lineCounts]
        exact above line found
      have applied := (applyBlockWord_above parts' found none before).lastNonblank
      rw [last] at applied
      have stored := storePrefixState_carries parts' (eventIndex + result.2.1.eventCountOf
        (m.prefixStates.length - 1)) applied
      refine ensured.toCarries.trans (stored.trans (ih _ _ (stored.partitioned parts') ?_ ?_))
      · exact append_ne_nil_of_right_ne_nil _ (cons_ne_nil _ _)
      · rw [storePrefixState, length_append, length_singleton, Nat.add_sub_cancel]
        exact applied

theorem ensurePrefixState_carries (options : ComputeOptions) (lines : List Line) (boundary : Nat)
    (budget : WorkBudget) (parts : m.Partitioned) :
    m.Carries (m.ensurePrefixState options lines boundary budget).2.1 := by
  unfold ensurePrefixState
  split
  · exact .refl m
  · dsimp only
    have started : m.Carries (if m.prefixStates = [] then m.storePrefixState {} 0 else m) := by
      split
      · exact storePrefixState_carries parts 0 fun _ none => nomatch none
      · exact .refl m
    have some_ : (if m.prefixStates = [] then m.storePrefixState {} 0 else m).prefixStates ≠ [] := by
      split
      · exact append_ne_nil_of_right_ne_nil _ (cons_ne_nil _ _)
      · assumption
    generalize (if m.prefixStates = [] then m.storePrefixState {} 0 else m) = m' at *
    split
    · exact started
    · have parts' := started.partitioned parts
      exact started.trans (growPrefixStates_carries options lines _ _ budget parts' some_
        (loadPrefixState_inside parts' 0 _).lastNonblank)

/-! ### Walking lines -/

theorem walkLine_inside (options : ComputeOptions) (lines : List Line)
    (suppressed : Nat → Nat → Bool) (emit : EmitLimit) {n : Nat} (lt : line < n) (l : LineWalk) :
    l.model.Fills (walkLine options lines suppressed emit line l).model ∧
      (l.walk.Inside n n → (walkLine options lines suppressed emit line l).walk.Inside n n) := by
  unfold walkLine
  dsimp only
  split
  · exact ⟨.refl _, fun inside => Walk.foldl_bracket_inside inside _ _ lt _⟩
  · refine ⟨indentAt_fills _ _ _ _ _, fun inside => ?_⟩
    have walked : (((l.model.lineBrackets.drop l.eventIndex).take
        (if options.bracketPairs = [] then 0 else l.model.lineBracketCount.getD line 0)).foldl
        (Walk.bracket options.bracketPairs (suppressed line) emit line) l.walk).Inside n n :=
      Walk.foldl_bracket_inside inside options.bracketPairs (suppressed line) lt _
    split
    · exact (Walk.indent_inside walked (Nat.le_refl n) line _).mono lt
    · exact walked

theorem walkLines_inside (options : ComputeOptions) (lines : List Line)
    (suppressed : Nat → Nat → Bool) (emit : EmitLimit) {n : Nat} (count line : Nat)
    (fits : line + count ≤ n) (l : LineWalk) :
    l.model.Fills (walkLines options lines suppressed emit count line l).model ∧
      (l.walk.Inside n n →
        (walkLines options lines suppressed emit count line l).walk.Inside n n) := by
  induction count generalizing line l with
  | zero => exact ⟨.refl _, id⟩
  | succ count ih =>
    obtain ⟨fills, one⟩ := walkLine_inside options lines suppressed emit (show line < n by omega) l
    obtain ⟨more, rest⟩ := ih (line + 1) (by omega)
      (walkLine options lines suppressed emit line l)
    exact ⟨fills.trans more, rest ∘ one⟩

/-! ### A window -/

theorem forwardBlocks_inside (options : ComputeOptions) (lines : List Line) (forwardLimit : Nat)
    (emit : EmitLimit) (count line block : Nat) (l : LineWalk) (parts : l.model.Partitioned)
    (inside : l.walk.Inside l.model.documentLineCount l.model.documentLineCount) :
    let result := (forwardBlocks options lines forwardLimit emit count line block l).2.2
    l.model.Carries result.model ∧
      result.walk.Inside l.model.documentLineCount l.model.documentLineCount := by
  induction count generalizing line block l with
  | zero => exact ⟨.refl _, inside⟩
  | succ count ih =>
    rw [forwardBlocks]
    dsimp only
    have ensured := ensureBlockSummary_fills options lines block l.eventIndex l.model l.budget
    generalize l.model.ensureBlockSummary options lines block l.eventIndex l.budget = result at *
    split_ifs
    · exact ⟨.refl _, inside⟩
    · exact ⟨ensured.toCarries, inside⟩
    · split
      · exact ⟨ensured.toCarries, inside⟩
      next b found =>
        have parts' := ensured.partitioned parts
        rw [← ensured.count] at inside ⊢
        have applied : (applyBlockWord b (result.2.1.blockStart block) emit l.walk).Inside
            result.2.1.documentLineCount
            (max result.2.1.documentLineCount (result.2.1.blockStart block + b.lineCount)) :=
          applyBlockWord_inside inside (Nat.le_refl _)
            (parts'.words b (mem_of_getElem? found))
            (by rw [← blockStart_succ found]; exact parts'.blockStart_le _)
        rw [Nat.max_eq_left (by rw [← blockStart_succ found]; exact parts'.blockStart_le _)]
          at applied
        obtain ⟨carries, rest⟩ := ih (result.2.1.blockStart block + b.lineCount) (block + 1)
          { l with
            model := result.2.1
            budget := result.2.2
            walk := applyBlockWord b (result.2.1.blockStart block) emit l.walk
            eventIndex := l.eventIndex + b.eventCount } parts' applied
        exact ⟨ensured.toCarries.trans carries, rest⟩

theorem walkForward_inside (options : ComputeOptions) (lines : List Line)
    (suppressed : Nat → Nat → Bool) (emit : EmitLimit) (line : Nat) (l : LineWalk)
    (parts : l.model.Partitioned) (count : l.model.documentLineCount = lines.length)
    (inside : l.walk.Inside lines.length lines.length) (le : line ≤ lines.length) :
    let result := (walkForward options lines suppressed emit line l).2.2
    l.model.Carries result.model ∧ result.walk.Inside lines.length lines.length := by
  unfold walkForward
  split_ifs with done
  · exact ⟨.refl _, inside⟩
  all_goals
    dsimp only
    generalize stop_eq : min (l.model.blockStart (l.model.blockIndexForLine line) +
      (l.model.blocks[l.model.blockIndexForLine line]?.map (·.lineCount)).getD 0) lines.length = stop
    have extended := extendBracketCache_fills options.bracketPairs lines stop l.model l.budget
    generalize l.model.extendBracketCache options.bracketPairs lines stop l.budget = result at *
    split_ifs
    · exact ⟨extended.toCarries, inside⟩
    · obtain ⟨fills, walked⟩ := walkLines_inside options lines suppressed emit (stop - line) line
        (show line + (stop - line) ≤ lines.length by omega)
        { l with model := result.2.1, budget := result.2.2 }
      have carries := extended.toCarries.trans fills.toCarries
      have reached := walked inside
      rw [← count, ← carries.count] at reached ⊢
      obtain ⟨more, blocks⟩ := forwardBlocks_inside options lines _ emit _ stop
        (l.model.blockIndexForLine line + 1) _ (carries.partitioned parts) reached
      exact ⟨carries.trans more, blocks⟩

/-- A budget that runs out leaves the cache short of what was asked for. -/
theorem extendLines_short (pairs : BracketPairs) (lines : List Line) (count : Nat)
    (m : FoldingModel) (budget : WorkBudget) :
    (extendLines pairs lines count m budget).2.1.bracketCacheValidThrough ≤
      m.bracketCacheValidThrough + count := by
  induction count generalizing m budget with
  | zero => exact Nat.le_refl _
  | succ count ih =>
    rw [extendLines]
    split
    · refine Nat.le_trans (ih _ _) ?_
      rw [extendOneLine]
      dsimp only
      omega
    · exact Nat.le_add_right _ _

theorem extendBracketCache_short (pairs : BracketPairs) (lines : List Line) (neededEnd : Nat)
    (m : FoldingModel) (budget : WorkBudget)
    (short : (m.extendBracketCache pairs lines neededEnd budget).1 = false) :
    (m.extendBracketCache pairs lines neededEnd budget).2.1.bracketCacheValidThrough ≤
      lines.length := by
  unfold extendBracketCache at short ⊢
  dsimp only at short ⊢
  split at short
  · exact nomatch short
  next behind =>
    rw [if_neg behind]
    have reached := extendLines_short pairs lines
      (min neededEnd lines.length - m.bracketCacheValidThrough) m budget
    omega

/-- A window's candidates are inside the document, and finding them touches neither the collapsed
folds nor the partition. -/
theorem resolveWindow_inside (options : ComputeOptions) (lines : List Line)
    (suppressed : Nat → Nat → Bool) (windowFirst windowLast : Nat) (budget : WorkBudget)
    (parts : m.Partitioned) (count : m.documentLineCount = lines.length)
    (last : windowLast < lines.length) :
    let result := resolveWindow options lines suppressed windowFirst windowLast m budget
    m.Carries result.2.2 ∧ ∀ range ∈ result.2.1, range.Inside lines.length := by
  unfold resolveWindow
  dsimp only
  have reached := ensurePrefixState_carries options lines (m.blockIndexForLine windowFirst) budget
    parts
  generalize m.ensurePrefixState options lines (m.blockIndexForLine windowFirst) budget =
    prefixed at *
  have parts' := reached.partitioned parts
  have extended := extendBracketCache_fills options.bracketPairs lines (windowLast + 1)
    prefixed.2.1 prefixed.2.2
  have short := extendBracketCache_short options.bracketPairs lines (windowLast + 1) prefixed.2.1
    prefixed.2.2
  have start := parts'.blockStart_le prefixed.1
  rw [reached.count, count] at start
  have loaded := loadPrefixState_inside parts' lines.length prefixed.1
  generalize prefixed.2.1.extendBracketCache options.bracketPairs lines (windowLast + 1)
    prefixed.2.2 = filled at *
  generalize prefixed.2.1.blockStart prefixed.1 = scanFrom at *
  have stop : (if filled.1 = true then windowLast + 1
      else max scanFrom filled.2.1.bracketCacheValidThrough) ≤ lines.length := by
    split
    · exact last
    next failed =>
      exact Nat.max_le.mpr ⟨start, short (by simpa using failed)⟩
  generalize (if filled.1 = true then windowLast + 1
    else max scanFrom filled.2.1.bracketCacheValidThrough) = lineWalkEnd at *
  generalize from_eq : max scanFrom (min windowFirst lineWalkEnd) = emitFrom
  obtain ⟨skipped, aboveWindow⟩ := walkLines_inside options lines suppressed none
    (emitFrom - scanFrom) scanFrom (show scanFrom + (emitFrom - scanFrom) ≤ lines.length by omega)
    { walk := { state := prefixed.2.1.loadPrefixState prefixed.1 }
      eventIndex := prefixed.2.1.prefixEventIndex prefixed.1
      model := filled.2.1
      budget := filled.2.2 }
  have atWindow := aboveWindow (loaded.mono start)
  generalize walkLines options lines suppressed none (emitFrom - scanFrom) scanFrom _ = above at *
  obtain ⟨window, inWindow⟩ := walkLines_inside options lines suppressed (some windowLast)
    (lineWalkEnd - emitFrom) emitFrom
    (show emitFrom + (lineWalkEnd - emitFrom) ≤ lines.length by omega) above
  have walked := inWindow atWindow
  generalize walkLines options lines suppressed (some windowLast) (lineWalkEnd - emitFrom) emitFrom
    above = l at *
  have carries := ((reached.trans extended.toCarries).trans skipped.toCarries).trans window.toCarries
  have armed : Walk.Inside lines.length lines.length
      { l.walk with state := l.walk.state.armPending windowLast } :=
    ⟨walked.out, walked.lastNonblank⟩
  obtain ⟨more, closed⟩ := walkForward_inside options lines suppressed (some windowLast) lineWalkEnd
    { l with walk := { l.walk with state := l.walk.state.armPending windowLast } }
    (carries.partitioned parts) (carries.count.trans count) armed stop
  refine ⟨carries.trans more, ?_⟩
  split
  · exact Walk.flushIndentsAtEof_inside closed (Nat.le_refl _)
  · exact closed.out

/-! ### Edits of the partition -/

theorem blockStart_mono (m : FoldingModel) {j : Nat} (le : i ≤ j) :
    m.blockStart i ≤ m.blockStart j := by
  induction j, le using Nat.le_induction with
  | base => exact Nat.le_refl _
  | succ j _ ih =>
    refine Nat.le_trans ih ?_
    rw [blockStart, blockStart, take_add_one, map_append, sum_append]
    exact Nat.le_add_right _ _

/-- The block of a line is the last one that starts at or before it. -/
theorem blockIndexForLine_spec (some_ : m.blocks ≠ []) (line : Nat) :
    m.blockIndexForLine line < m.blocks.length ∧
      m.blockStart (m.blockIndexForLine line) ≤ line ∧
      ∀ j, m.blockIndexForLine line < j → j < m.blocks.length → line < m.blockStart j := by
  have count := length_pos_iff.mpr some_
  have length : m.blockStarts.length = m.blocks.length := by
    rw [blockStarts, length_map, length_range]
  have entry : ∀ {j}, j < m.blocks.length → m.blockStarts[j]? = some (m.blockStart j) := by
    intro j inside
    rw [blockStarts, getElem?_map, getElem?_range inside]
    rfl
  have ordered : m.blockStarts.Pairwise fun a b => decide (b ≤ line) → decide (a ≤ line) := by
    rw [blockStarts, pairwise_map]
    refine pairwise_lt_range.imp fun {i j} lt => ?_
    simp only [decide_eq_true_eq]
    exact fun le => Nat.le_trans (m.blockStart_mono (Nat.le_of_lt lt)) le
  obtain ⟨before, rest, starts, place, passing, failing⟩ := Lib.exists_cut ordered
  have lengths := congrArg List.length starts
  rw [length, length_append] at lengths
  have inBefore : ∀ {j}, j < before.length → m.blockStart j ≤ line := by
    intro j inside
    have found := entry (show j < m.blocks.length by omega)
    rw [starts, getElem?_append_left inside] at found
    simpa using passing _ (mem_of_getElem? found)
  have inRest : ∀ {j}, before.length ≤ j → j < m.blocks.length → line < m.blockStart j := by
    intro j behind inside
    have found := entry inside
    rw [starts, getElem?_append_right behind] at found
    simpa using failing _ (mem_of_getElem? found)
  have nonempty : 0 < before.length := by
    by_contra none
    exact absurd (inRest (by omega) count) (by exact Nat.not_lt_zero line)
  rw [blockIndexForLine, if_neg some_, place]
  refine ⟨by omega, inBefore (by omega), fun j behind inside => inRest (by omega) inside⟩

theorem blockIndexForLine_mono (some_ : m.blocks ≠ []) {line' : Nat} (le : line ≤ line') :
    m.blockIndexForLine line ≤ m.blockIndexForLine line' := by
  obtain ⟨inside, start, -⟩ := blockIndexForLine_spec some_ line
  obtain ⟨-, -, behind⟩ := blockIndexForLine_spec some_ line'
  by_contra above
  have := behind (m.blockIndexForLine line) (by omega) inside
  omega

/-- Pieces of `size` taken from `n` until `count` are taken. -/
theorem sum_pieces (n size count : Nat) :
    ((List.range count).map fun i => min (n - i * size) size).sum = min n (count * size) := by
  induction count with
  | zero => rw [Nat.zero_mul, Nat.min_zero]; rfl
  | succ count ih =>
    rw [range_succ, map_append, sum_append, ih, map_singleton, sum_singleton, Nat.succ_mul]
    omega

theorem freshBlocks_sum (lineCount : Nat) :
    ((freshBlocks lineCount).map (·.lineCount)).sum = lineCount := by
  rw [freshBlocks, map_map]
  refine (sum_pieces lineCount kTargetBlockLines _).trans (Nat.min_eq_left ?_)
  have rounded := Nat.div_add_mod (lineCount + kTargetBlockLines - 1) kTargetBlockLines
  have rest := Nat.mod_lt (lineCount + kTargetBlockLines - 1) (show 0 < kTargetBlockLines by decide)
  rw [Nat.mul_comm] at rounded
  omega

theorem recomputeBlockEventCount_fills (m : FoldingModel) (block : Nat) :
    m.Fills (m.recomputeBlockEventCount block) := by
  refine .of_blocks rfl rfl (map_lineCount_modify ?_ _) rfl fun words b mem => ?_
  · exact fun _ => rfl
  · rcases mem_modify mem with old | ⟨old, found, rfl⟩
    · exact words b old
    · have before := words old (mem_of_getElem? found)
      exact ⟨before.closers, before.dedents, before.lastNonblank⟩

theorem recount_fills (blocks : List Nat) (m : FoldingModel) :
    m.Fills (blocks.foldl recomputeBlockEventCount m) := by
  induction blocks generalizing m with
  | nil => exact .refl m
  | cons block rest ih => exact (recomputeBlockEventCount_fills m block).trans (ih _)

theorem freshBlocks_inside {lineCount : Nat} (mem : b ∈ freshBlocks lineCount) : b.Inside := by
  obtain ⟨i, -, rfl⟩ := mem_map.mp mem
  exact ⟨fun _ mem => (nomatch mem), fun _ mem => (nomatch mem), fun _ last => nomatch last⟩

/-- A new partition of so many lines. -/
structure Repartitioned (lineCount : Nat) (m m' : FoldingModel) : Prop where
  collapsed : m'.collapsed = m.collapsed
  count : m'.documentLineCount = lineCount
  partitioned : m'.Partitioned

theorem repartitionAll_partitioned (m : FoldingModel) (lineCount : Nat) :
    Repartitioned lineCount m (m.repartitionAll lineCount) := by
  unfold repartitionAll
  dsimp only
  have fills := recount_fills (List.range (freshBlocks lineCount).length)
    (invalidatePrefixFrom { m with blocks := freshBlocks lineCount, documentLineCount := lineCount } 0)
  refine ⟨fills.collapsed, fills.count, fills.partitioned ⟨freshBlocks_sum lineCount, ?_, ?_⟩⟩
  · exact fun b mem => freshBlocks_inside mem
  · intro i p found
    exact nomatch found

theorem sum_lineCount_region (blocks : List Block) {first stop : Nat} (le : first ≤ stop) :
    ((blocks.take first).map (·.lineCount)).sum +
        ((((blocks.drop first).take (stop - first)).map (·.lineCount)).sum +
          ((blocks.drop stop).map (·.lineCount)).sum) = (blocks.map (·.lineCount)).sum := by
  rw [← sum_append, ← map_append, ← sum_append, ← map_append]
  rw [show blocks.drop stop = (blocks.drop first).drop (stop - first) by
    rw [drop_drop, Nat.add_sub_cancel' le], take_append_drop, take_append_drop]

theorem replaceBlocks_partitioned (parts : m.Partitioned)
    {lineCount firstBlock lastBlock cachedEnd currentEnd : Nat}
    (inside : firstBlock < m.blocks.length) (ordered : firstBlock ≤ lastBlock)
    (cached : cachedEnd ≤ m.documentLineCount) (current : currentEnd ≤ lineCount)
    (behind : m.documentLineCount - cachedEnd = lineCount - currentEnd) : Repartitioned lineCount m
      (m.replaceBlocks lineCount firstBlock lastBlock cachedEnd currentEnd) := by
  unfold replaceBlocks
  dsimp only
  split
  · exact repartitionAll_partitioned m lineCount
  next fits =>
    generalize region_eq : (((m.blocks.drop firstBlock).take
      (lastBlock + 1 - firstBlock)).map (·.lineCount)).sum = regionOldLines at *
    have fills := recount_fills (List.range' firstBlock
      (freshBlocks (regionOldLines + currentEnd - cachedEnd)).length)
      (invalidatePrefixFrom
        { m with
          blocks := m.blocks.take firstBlock ++
            freshBlocks (regionOldLines + currentEnd - cachedEnd) ++ m.blocks.drop (lastBlock + 1)
          documentLineCount := lineCount } (firstBlock + 1))
    refine ⟨fills.collapsed, fills.count, fills.partitioned ⟨?_, ?_, ?_⟩⟩
    · have whole := sum_lineCount_region m.blocks (show firstBlock ≤ lastBlock + 1 by omega)
      rw [region_eq, parts.total] at whole
      simp only [invalidatePrefixFrom, map_append, sum_append, freshBlocks_sum]
      omega
    · intro b mem
      rcases mem_append.mp mem with mem | mem
      · rcases mem_append.mp mem with mem | mem
        · exact parts.words b (mem_of_mem_take mem)
        · exact freshBlocks_inside mem
      · exact parts.words b (mem_of_mem_drop mem)
    · intro i p found line last
      rw [invalidatePrefixFrom, getElem?_take] at found
      split at found
      next above =>
        refine Nat.lt_of_lt_of_eq (parts.prefixes i p found line last) ?_
        unfold blockStart
        rw [invalidatePrefixFrom, append_assoc, take_append_of_le_length (by
          rw [length_take]; omega), take_take, Nat.min_eq_left (by omega)]
      · exact nomatch found

theorem blockIndexForLine_le_lastEditedBlock (some_ : m.blocks ≠ []) (begin cachedEnd : Nat) :
    m.blockIndexForLine begin ≤ m.lastEditedBlock begin cachedEnd := by
  unfold lastEditedBlock
  split
  · exact blockIndexForLine_mono some_ (by omega)
  · exact Nat.le_refl _

theorem syncBlocks_partitioned (parts : m.Partitioned) (lineCount : Nat) (span : LineEditSpan)
    (resetAll : Bool) : Repartitioned lineCount m (m.syncBlocks lineCount span resetAll) := by
  unfold syncBlocks
  split
  · exact repartitionAll_partitioned m lineCount
  next keeps =>
    have some_ : m.blocks ≠ [] := fun none => keeps (by rw [none]; simp)
    split
    · split
      · exact repartitionAll_partitioned m lineCount
      next same =>
        exact ⟨rfl, by simpa using same, parts⟩
    next begin begun =>
      dsimp only
      split
      · exact repartitionAll_partitioned m lineCount
      next sound =>
        simp only [not_or, Nat.not_lt, not_not] at sound
        exact replaceBlocks_partitioned parts (blockIndexForLine_spec some_ begin).1
          (blockIndexForLine_le_lastEditedBlock some_ begin _) sound.2.2.1 sound.2.2.2.1
          sound.2.2.2.2

/-- Neither the partition nor the collapsed folds are touched. -/
structure SameBlocks (m m' : FoldingModel) : Prop where
  blocks : m'.blocks = m.blocks
  states : m'.prefixStates = m.prefixStates
  count : m'.documentLineCount = m.documentLineCount
  collapsed : m'.collapsed = m.collapsed

theorem SameBlocks.trans {m'' : FoldingModel} (first : m.SameBlocks m')
    (second : m'.SameBlocks m'') :
    m.SameBlocks m'' :=
  ⟨second.blocks.trans first.blocks, second.states.trans first.states,
    second.count.trans first.count, second.collapsed.trans first.collapsed⟩

theorem Partitioned.of_same (parts : m.Partitioned) (blocks : m'.blocks = m.blocks)
    (states : m'.prefixStates = m.prefixStates)
    (count : m'.documentLineCount = m.documentLineCount) :
    m'.Partitioned where
  total := by rw [blocks, count, parts.total]
  words := by rw [blocks]; exact parts.words
  prefixes := by
    rw [states]
    intro i p found line last
    rw [blockStart, blocks]
    exact parts.prefixes i p found line last

theorem syncLineBracketCache_same (m : FoldingModel) (lines : List Line) (pairs : BracketPairs)
    (span : LineEditSpan) (pairsChanged : Bool) :
    m.SameBlocks (m.syncLineBracketCache lines pairs span pairsChanged) := by
  unfold syncLineBracketCache
  split
  · exact ⟨rfl, rfl, rfl, rfl⟩
  · have cut : m.SameBlocks (if lines.length < m.bracketCacheValidThrough then
        m.keepBracketLines lines.length else m) := by
      split <;> exact ⟨rfl, rfl, rfl, rfl⟩
    dsimp only
    generalize (if lines.length < m.bracketCacheValidThrough then
      m.keepBracketLines lines.length else m) = m' at cut ⊢
    refine cut.trans ?_
    split
    · exact ⟨rfl, rfl, rfl, rfl⟩
    · split
      · exact ⟨rfl, rfl, rfl, rfl⟩
      · split
        · split <;> exact ⟨rfl, rfl, rfl, rfl⟩
        · exact ⟨rfl, rfl, rfl, rfl⟩

/-- The caches after an edit: the collapsed folds are moved and the partition is of the new
lines. -/
theorem syncCaches_repartitioned (parts : m.Partitioned) (request : RefreshRequest) :
    Repartitioned request.lines.length (m.shiftCollapsedRanges request.span request.lines.length)
      (m.syncCaches request) := by
  unfold syncCaches
  dsimp only
  generalize shifted_eq : ({ m with
    indentSourceEnabled := request.options.useIndentSource } : FoldingModel).shiftCollapsedRanges
      request.span request.lines.length = shifted
  have moved : shifted.collapsed =
      (m.shiftCollapsedRanges request.span request.lines.length).collapsed ∧
        shifted.Partitioned := by
    rw [← shifted_eq]
    unfold shiftCollapsedRanges
    split
    · exact ⟨rfl, parts.of_same rfl rfl rfl⟩
    · exact ⟨rfl, parts.of_same rfl rfl rfl⟩
  have brackets := syncLineBracketCache_same shifted request.lines request.options.bracketPairs
    request.span (m.bracketCachePairs ≠ request.options.bracketPairs)
  generalize shifted.syncLineBracketCache request.lines request.options.bracketPairs request.span
    (m.bracketCachePairs ≠ request.options.bracketPairs) = cached at *
  have indents : shifted.SameBlocks (cached.syncLineIndentCache request.lines.length
      (max request.options.tabSize 1) request.span) :=
    brackets.trans ⟨rfl, rfl, rfl, rfl⟩
  have blocks := syncBlocks_partitioned
    (moved.2.of_same indents.blocks indents.states indents.count) request.lines.length
    request.span (m.resetsAll request.options)
  exact ⟨blocks.collapsed.trans (indents.collapsed.trans moved.1), blocks.count, blocks.partitioned⟩

end FoldingModel

end Microide.Editor
