/-
The width table over runs.

Whatever edits are reported, however often the tab size changes and the widest line is asked for,
what the table offers as current are the measured widths of the document.

**Main results.** `updated_describes`: a reported edit keeps the table exact;
`WidthRun.exact`: what the table offers in every run.
-/

import Microide.Editor.LineWidthMaxima

namespace Microide.Editor

open List Option Lib Text LineWidthCache LineLayoutFacts

/-! ### Entries -/

/-- The entry of a line. -/
def lineEntry (tabSize : Nat) (line : Line) : PackedLineWidth :=
  packLineWidth (measureLineFacts line tabSize)

section Entries

variable {tabSize : Nat} {line : Line}

/-- **An entry gives back** what was measured, but for the tabs of a line that is not tab-indented or
has too many. -/
theorem lineEntry_facts (fits : (measureLineFacts line tabSize).visualColumns < 2 ^ 32) :
    (lineEntry tabSize line).facts = (measureLineFacts line tabSize).reported := by
  have known : (measureLineFacts line tabSize).known = true := rfl
  have apart : (measureLineFacts line tabSize).plainAscii = true →
      (measureLineFacts line tabSize).tabIndented = false := fun plain => by
    have none_ := beq_iff_eq.mp (Bool.and_eq_true_iff.mp plain).1
    exact Bool.and_eq_false_imp.mpr fun some_ => absurd none_ (of_decide_eq_true some_).ne'
  rw [lineEntry, facts_packLineWidth (fits.trans (by decide))]
  generalize measureLineFacts line tabSize = facts at known apart
  obtain ⟨visualColumns, plainAscii, _, tabIndented, leadingTabs⟩ := facts
  cases known
  unfold reported
  cases plainAscii with
  | true =>
    rw [apart rfl]
    rfl
  | false => split <;> rfl

theorem lineEntry_visualColumns (fits : (measureLineFacts line tabSize).visualColumns < 2 ^ 32) :
    (lineEntry tabSize line).visualColumns = (measureLineFacts line tabSize).visualColumns := by
  have facts := congrArg visualColumns (lineEntry_facts fits)
  have same : (measureLineFacts line tabSize).reported.visualColumns =
      (measureLineFacts line tabSize).visualColumns := by
    rw [reported]
    split <;> rfl
  exact facts.trans same

/-- A plain line is as wide as it is long. -/
theorem measureLineFacts_plain (plain : PlainTo line line.length) :
    measureLineFacts line tabSize =
      { visualColumns := line.length, plainAscii := true, known := true } := by
  have flag := (@measureLineFacts_plainAscii tabSize line).mpr plain
  unfold measureLineFacts at flag ⊢
  dsimp only at flag ⊢
  rw [Bool.and_eq_true, beq_iff_eq, beq_iff_eq] at flag
  obtain ⟨none_, whole⟩ := flag
  rw [whole, none_, Nat.zero_mul, Nat.zero_add, Nat.sub_zero, drop_length]
  congr 1
  exact Bool.and_eq_true_iff.mpr ⟨rfl, beq_self_eq_true _⟩

end Entries

/-! ### Documents -/

/-- The bytes of a document, line breaks counted. -/
def documentBytes (lines : List Line) : Nat := (lines.map List.length).sum + (lines.length - 1)

/-- A document that the piece tree can hold, of widths below `2 ^ 32`. -/
structure DocumentFits (lines : List Line) (tabSize : Nat) : Prop where
  bytes : documentBytes lines < 2 ^ 32
  widths : ∀ line ∈ lines, (measureLineFacts line tabSize).visualColumns < 2 ^ 32

/-- The width of the widest of some lines. -/
def widestOf (tabSize : Nat) (lines : List Line) : Nat :=
  (lines.map fun line => (measureLineFacts line tabSize).visualColumns).foldr max 0

/-- The lines of a block. -/
def blockLines (lines : List Line) (blockIndex : Nat) : List Line :=
  (lines.take (blockStart blockIndex + kVisualColumnBlockLines)).drop (blockStart blockIndex)

section Documents

variable {lines : List Line} {tabSize : Nat}

section

variable (fits : DocumentFits lines tabSize)

include fits

theorem DocumentFits.tableFits : TableFits (lines.map (lineEntry tabSize)) := by
  constructor
  · have bytes := fits.bytes
    rw [documentBytes] at bytes
    rw [length_map]
    omega
  · intro width mem
    obtain ⟨line, found, rfl⟩ := mem_map.mp mem
    have narrow := fits.widths line found
    rwa [lineEntry_visualColumns narrow]

theorem columnsAt_entry {i : Nat} {line : Line} (found : lines[i]? = some line) :
    columnsAt (lines.map (lineEntry tabSize)) i = (measureLineFacts line tabSize).visualColumns := by
  rw [columnsAt, getD_eq_getElem?_getD, getElem?_map, found]
  exact lineEntry_visualColumns (fits.widths line (mem_of_getElem? found))

/-- A peak of the table is as wide as its widest line. -/
theorem widestOf_eq {start stop : Nat} {peak : Nat × Nat} (inside : stop ≤ lines.length)
    (seen : IsPeak (columnsAt (lines.map (lineEntry tabSize))) start stop peak) :
    peak.1 = widestOf tabSize ((lines.take stop).drop start) := by
  apply le_antisymm
  · rcases seen.attained with none_ | ⟨low, high, here⟩
    · rw [none_]
      exact bot_le
    · obtain ⟨k, place⟩ := Nat.exists_eq_add_of_le low
      have found := getElem?_eq_getElem (high.trans_le inside)
      rw [columnsAt_entry fits found] at here
      refine le_max_of_le (mem_map.mpr ⟨_, ?_, here⟩) le_rfl
      refine mem_of_getElem? (i := k) ?_
      rw [getElem?_drop, getElem?_take, if_pos (place ▸ high), ← place, found]
  · refine max_le_of_forall_le _ _ fun width mem => ?_
    obtain ⟨line, found, rfl⟩ := mem_map.mp mem
    obtain ⟨k, found⟩ := mem_iff_getElem?.mp found
    rw [getElem?_drop, getElem?_take] at found
    split at found
    next high =>
      rw [← columnsAt_entry fits found]
      exact seen.bound _ (Nat.le_add_right _ _) high
    · exact absurd found (some_ne_none line).symm

end

end Documents

/-! ### The invariant -/

/-- The table is that of a document at its tab size, and so are the maxima it records. -/
structure LineWidthCache.Describes (cache : LineWidthCache) (lines : List Line)
    (contentRevision : Nat) : Prop where
  positive : 0 < cache.tabSize
  revision : cache.contentRevision = contentRevision
  widths : cache.widths = lines.map (lineEntry cache.tabSize)
  blocks : BlockPeaks cache.widths cache.blockMax
  widest : WidestPeak cache.widths cache.maxColumns cache.maxLineIndex

/-- The table is cleared, or that of the document; and a parked one is that of the document as long
as the content is the one it was parked at. -/
structure LineWidthCache.Exact (cache : LineWidthCache) (lines : List Line) (contentRevision : Nat) :
    Prop where
  table : (cache.tabSize = 0 ∧ cache.maxColumns = none) ∨ cache.Describes lines contentRevision
  parked : ∀ widths ∈ cache.parked.widths, cache.parked.contentRevision ≤ contentRevision ∧
    (cache.parked.contentRevision = contentRevision →
      widths = lines.map (lineEntry cache.parked.tabSize))

section Steps

variable {cache : LineWidthCache} {lines before removed inserted after : List Line}
  {tabSize contentRevision nextRevision : Nat} {splice : InlineLineSplice}

theorem cleared_exact (cache : LineWidthCache) (lines : List Line) (contentRevision : Nat) :
    cache.clearVisibleLineAndMaxColumns.Exact lines contentRevision :=
  ⟨.inl ⟨rfl, rfl⟩, fun widths mem => absurd mem (not_mem_none widths)⟩

/-- **A change of the tab size** parks a table of the document, if any. -/
theorem parked_exact (exact_ : cache.Exact lines contentRevision) :
    cache.parkLineWidthsForTabSizeChange.Exact lines contentRevision := by
  rw [parkLineWidthsForTabSizeChange]
  split
  · exact cleared_exact cache lines contentRevision
  · refine ⟨.inl ⟨rfl, rfl⟩, ?_⟩
    dsimp only
    split
    next some_ =>
      rcases exact_.table with none_ | describes
      · exact absurd none_.1 some_.2
      · intro widths mem
        obtain rfl := Option.some.inj mem
        exact ⟨describes.revision.le, fun _ => describes.widths⟩
    · exact exact_.parked

/-- What an edit reports of the text it spliced into a line. -/
def InlineLineSplice.Reports (splice : InlineLineSplice) (removed inserted : List Line) : Prop :=
  splice.valid = true → ∃ front gone back, removed = [front ++ gone ++ back] ∧
    inserted = [front ++ splice.insertedText ++ back]

/-- Plain text between plain bytes is a plain line. -/
theorem plainTo_splice {front gone back text : Line}
    (old : PlainTo (front ++ gone ++ back) (front ++ gone ++ back).length)
    (spliced : firstNonPlainAsciiByte text = text.length) :
    PlainTo (front ++ text ++ back) (front ++ text ++ back).length := by
  have plain := (le_firstNonPlainAsciiByte_iff (le_refl text.length)).mp spliced.ge
  unfold PlainTo at *
  rw [take_length] at *
  intro c mem
  simp only [mem_append] at old mem
  rcases mem with (mem | mem) | mem
  · exact old c (.inl (.inl mem))
  · exact plain c mem
  · exact old c (.inr mem)

/-- **The new entries** are those of the new lines, derived or measured. -/
theorem insertedColumns_eq (widths : cache.widths = (before ++ removed ++ after).map (lineEntry tabSize))
    (fits : DocumentFits (before ++ removed ++ after) tabSize)
    (reports : splice.Reports removed inserted) :
    cache.insertedColumns before.length removed.length inserted.length (before ++ inserted ++ after)
      tabSize splice = inserted.map (lineEntry tabSize) := by
  rw [insertedColumns]
  split
  next derived =>
    obtain ⟨valid, -, -, -, -, plain, spliced⟩ := derived
    obtain ⟨front, gone, back, rfl, rfl⟩ := reports valid
    have old : cache.widths.getD before.length {} = lineEntry tabSize (front ++ gone ++ back) := by
      rw [widths, map_append, map_append, append_assoc,
        getD_append_right _ _ _ _ (by rw [length_map]), length_map, Nat.sub_self]
      rfl
    have new : (before ++ [front ++ splice.insertedText ++ back] ++ after).getD before.length [] =
        front ++ splice.insertedText ++ back := by
      rw [append_assoc, getD_append_right _ _ _ _ le_rfl, Nat.sub_self]
      rfl
    have narrow := fits.widths (front ++ gone ++ back) (by simp)
    have reported : (measureLineFacts (front ++ gone ++ back) tabSize).reported.plainAscii =
        (measureLineFacts (front ++ gone ++ back) tabSize).plainAscii := by
      rw [reported]
      split <;> rfl
    rw [old, lineEntry_facts narrow, reported, measureLineFacts_plainAscii] at plain
    rw [new, ← measureLineFacts_plain (plainTo_splice plain spliced)]
    rfl
  · rw [append_assoc, drop_left, take_left]
    rfl

theorem columnsAt_append_left {front back : List PackedLineWidth} {i : Nat} (left : i < front.length) :
    columnsAt (front ++ back) i = columnsAt front i := by
  rw [columnsAt, getD_append _ _ _ _ left]
  rfl

theorem columnsAt_append_right (front back : List PackedLineWidth) (k : Nat) :
    columnsAt (front ++ back) (front.length + k) = columnsAt back k := by
  rw [columnsAt, getD_append_right _ _ _ _ (Nat.le_add_right _ _), Nat.add_sub_cancel_left]
  rfl

/-- The widths of the new lines take the place of those of the old ones. -/
theorem replaced_columnsAt (front old new back : List PackedLineWidth) (count : Nat) :
    Replaced (columnsAt (front ++ old ++ back)) (columnsAt (front ++ new ++ back)) 0 front.length
      (front.length + old.length) (front.length + new.length) count := by
  refine ⟨Nat.zero_le _, Nat.le_add_right _ _, Nat.le_add_right _ _, fun i _ left => ?_,
    fun k _ => ?_⟩
  · rw [append_assoc, append_assoc, columnsAt_append_left left, columnsAt_append_left left]
  · rw [← length_append, ← length_append, columnsAt_append_right, columnsAt_append_right]

/-- **A reported edit** keeps the table that of the document. -/
theorem updated_describes (describes : cache.Describes (before ++ removed ++ after) contentRevision)
    (fits : DocumentFits (before ++ removed ++ after) cache.tabSize)
    (fits' : DocumentFits (before ++ inserted ++ after) cache.tabSize)
    (reports : splice.Reports removed inserted) :
    (cache.updateVisualColumnCacheAfterEdit before.length removed.length inserted.length
      (before ++ inserted ++ after) cache.tabSize nextRevision splice).Describes
        (before ++ inserted ++ after) nextRevision := by
  have entries : cache.widths = before.map (lineEntry cache.tabSize) ++
      removed.map (lineEntry cache.tabSize) ++ after.map (lineEntry cache.tabSize) := by
    rw [describes.widths, map_append, map_append]
  have size : cache.widths.length = before.length + removed.length + after.length := by
    rw [describes.widths, length_map, length_append, length_append]
  have size' : (before ++ inserted ++ after).length =
      before.length + inserted.length + after.length := by
    rw [length_append, length_append]
  have start : min before.length cache.widths.length = before.length := by omega
  have eraseEnd : min (before.length + removed.length) cache.widths.length =
      before.length + removed.length := by omega
  have front : cache.widths.take before.length = before.map (lineEntry cache.tabSize) := by
    rw [entries, append_assoc]
    exact take_left' (length_map _)
  have back : cache.widths.drop (before.length + removed.length) =
      after.map (lineEntry cache.tabSize) := by
    rw [entries]
    exact drop_left' (by rw [length_append, length_map, length_map])
  have entries' : before.map (lineEntry cache.tabSize) ++ inserted.map (lineEntry cache.tabSize) ++
      after.map (lineEntry cache.tabSize) =
        (before ++ inserted ++ after).map (lineEntry cache.tabSize) := by
    rw [map_append, map_append]
  have replaced := replaced_columnsAt (before.map (lineEntry cache.tabSize))
    (removed.map (lineEntry cache.tabSize)) (inserted.map (lineEntry cache.tabSize))
    (after.map (lineEntry cache.tabSize))
  rw [← entries, length_map, length_map, length_map] at replaced
  rw [updateVisualColumnCacheAfterEdit, if_neg (by omega)]
  dsimp only
  rw [insertedColumns_eq describes.widths fits reports, start, eraseEnd, front, back, entries']
  rw [entries'] at replaced
  refine ⟨describes.positive, rfl, rfl, ?_, ?_⟩
  · dsimp only
    rw [length_map]
    split
    next inPlace =>
      split
      next none_ =>
        obtain rfl := map_eq_nil_iff.mp none_
        obtain rfl := length_eq_zero_iff.mp inPlace.1
        rw [← describes.widths]
        exact describes.blocks
      next some_ =>
        have more := length_pos_iff.mpr fun none_ => some_ (map_eq_nil_iff.mpr none_)
        refine refreshed_blockPeaks fits'.tableFits ?_ ?_ (by omega) (fun i outside => ?_) describes.blocks
        · rw [length_map]
          omega
        · rw [length_map]
          omega
        · rcases outside with left | right
          · exact (replaced 0).before i (Nat.zero_le _) left
          · obtain ⟨k, rfl⟩ : ∃ k, i = before.length + inserted.length + k :=
              Nat.exists_eq_add_of_le (by omega)
            have same := (replaced (k + 1)).behind k (Nat.lt_succ_self k)
            rwa [inPlace.1] at same
    · intro _ blockIndex block mem
      exact absurd mem (not_mem_none block)
  · intro columns mem
    obtain ⟨found, updated, rfl⟩ := Option.mem_map.mp mem
    refine ⟨found.2, Option.mem_map.mpr ⟨found, updated, rfl⟩, ?_⟩
    have values : ∀ k, ∀ v ∈ ((inserted.map (lineEntry cache.tabSize)).map
        PackedLineWidth.visualColumns)[k]?,
          columnsAt ((before ++ inserted ++ after).map (lineEntry cache.tabSize)) (before.length + k) =
            v := fun k v mem => by
      rw [getElem?_map, Option.mem_map] at mem
      obtain ⟨entry, found, rfl⟩ := mem
      have inside := (List.getElem?_eq_some_iff.mp found).1
      rw [← entries', append_assoc]
      have right := columnsAt_append_right (before.map (lineEntry cache.tabSize))
        (inserted.map (lineEntry cache.tabSize) ++ after.map (lineEntry cache.tabSize)) k
      rw [length_map] at right
      rw [right, columnsAt_append_left inside, columnsAt, getD_eq_getElem?_getD,
        mem_def.mp found]
      rfl
    have peak := updatedMax_isPeak (by simpa only [length_map] using replaced after.length) size
      values
      describes.widest found updated
    rw [length_map, length_map] at peak
    dsimp only
    rwa [length_map, size']

/-- An edit that the table does not follow clears it. -/
theorem updated_exact (exact_ : cache.Exact (before ++ removed ++ after) contentRevision)
    (positive : 0 < tabSize) (later : contentRevision < nextRevision)
    (fits : DocumentFits (before ++ removed ++ after) tabSize)
    (fits' : DocumentFits (before ++ inserted ++ after) tabSize)
    (reports : splice.Reports removed inserted) :
    (cache.updateVisualColumnCacheAfterEdit before.length removed.length inserted.length
      (before ++ inserted ++ after) tabSize nextRevision splice).Exact
        (before ++ inserted ++ after) nextRevision := by
  by_cases same : cache.tabSize = tabSize
  · subst same
    have describes := exact_.table.resolve_left fun none_ => absurd none_.1 positive.ne'
    refine ⟨.inr (updated_describes describes fits fits' reports), ?_⟩
    rw [updateVisualColumnCacheAfterEdit]
    split
    · exact (cleared_exact cache (before ++ inserted ++ after) nextRevision).parked
    · intro widths mem
      have old := (exact_.parked widths mem).1
      exact ⟨(old.trans_lt later).le, fun same => absurd same (old.trans_lt later).ne⟩
  · rw [updateVisualColumnCacheAfterEdit, if_pos (.inl same)]
    exact cleared_exact cache _ _

/-- A table that is parked for this content at this size is the one that would be measured. -/
theorem measuredWidths_eq (exact_ : cache.Exact lines contentRevision) (tabSize : Nat) :
    cache.measuredWidths lines tabSize contentRevision = lines.map (lineEntry tabSize) := by
  rw [measuredWidths]
  cases parked : cache.parked.widths with
  | none => rfl
  | some widths =>
    dsimp only
    split
    next same =>
      rw [(exact_.parked widths parked).2 same.2.1, same.1]
    · rfl

/-- **The widest line** is asked for: the table is the document's from there on. -/
theorem maxVisualColumns_spec (exact_ : cache.Exact lines contentRevision) (positive : 0 < tabSize)
    (fits : DocumentFits lines tabSize) :
    (cache.maxVisualColumns lines tabSize contentRevision).1 = widestOf tabSize lines ∧
      (cache.maxVisualColumns lines tabSize contentRevision).2.Exact lines contentRevision ∧
      (cache.maxVisualColumns lines tabSize contentRevision).2.lineWidthsAreCurrent lines.length tabSize
        contentRevision = true := by
  have described (here : cache.tabSize = tabSize) : cache.Describes lines contentRevision :=
    exact_.table.resolve_left fun none_ => absurd (none_.1.symm.trans here) positive.ne
  have current (current : LineWidthCache) (widths : current.widths = lines.map (lineEntry tabSize))
      (here : current.tabSize = tabSize) (revision : current.contentRevision = contentRevision) :
      current.lineWidthsAreCurrent lines.length tabSize contentRevision = true := by
    rw [lineWidthsAreCurrent, here, revision, widths, length_map]
    simp
  have widest {peak : Nat × Nat}
      (seen : IsPeak (columnsAt (lines.map (lineEntry tabSize))) 0 lines.length peak) :
      peak.1 = widestOf tabSize lines := by
    have whole := widestOf_eq fits le_rfl seen
    rwa [take_length, drop_zero] at whole
  rw [maxVisualColumns]
  split
  next memo =>
    have describes := described memo.2.1
    have widths := describes.widths
    rw [memo.2.1] at widths
    obtain ⟨columns, found⟩ := isSome_iff_exists.mp memo.1
    obtain ⟨line, -, peak⟩ := describes.widest columns found
    rw [widths, length_map] at peak
    refine ⟨?_, exact_, current cache widths memo.2.1 memo.2.2⟩
    rw [found]
    exact widest peak
  · obtain ⟨table, table_, widths, blocks, parked⟩ : ∃ table : LineWidthCache,
        (if cache.lineWidthsAreCurrent lines.length tabSize contentRevision then cache
          else cache.rebuilt lines tabSize contentRevision) = table ∧
        table.widths = lines.map (lineEntry tabSize) ∧ BlockPeaks table.widths table.blockMax ∧
        ∀ widths ∈ table.parked.widths, table.parked.contentRevision ≤ contentRevision ∧
          (table.parked.contentRevision = contentRevision →
            widths = lines.map (lineEntry table.parked.tabSize)) := by
      refine ⟨_, rfl, ?_⟩
      split
      next here =>
        have tab : cache.tabSize = tabSize := by
          rw [lineWidthsAreCurrent, Bool.and_eq_true, Bool.and_eq_true] at here
          exact beq_iff_eq.mp here.1.1
        have describes := described tab
        have widths := describes.widths
        rw [tab] at widths
        exact ⟨widths, describes.blocks, exact_.parked⟩
      · have widths : (cache.rebuilt lines tabSize contentRevision).widths =
            lines.map (lineEntry tabSize) := measuredWidths_eq exact_ tabSize
        refine ⟨widths, rebuilt_blockPeaks ?_, fun widths mem => absurd mem (not_mem_none widths)⟩
        rw [widths]
        exact fits.tableFits
    dsimp only
    rw [table_]
    obtain ⟨blockMax, blockMax_, recorded, peaks⟩ : ∃ blockMax,
        (if table.blockMax.length ≠ visualColumnBlockCount table.widths then
          rebuildVisualColumnBlockMaxima table.widths else table.blockMax) = blockMax ∧
        blockMax.length = visualColumnBlockCount table.widths ∧ BlockPeaks table.widths blockMax := by
      refine ⟨_, rfl, ?_⟩
      split
      · refine ⟨?_, rebuilt_blockPeaks (widths ▸ fits.tableFits)⟩
        rw [rebuildVisualColumnBlockMaxima, length_map, length_range]
      next recorded =>
        exact ⟨not_not.mp recorded, blocks⟩
    rw [blockMax_]
    have peak := widestBlock_isPeak recorded peaks
    refine ⟨?_, ⟨.inr ⟨positive, rfl, widths, peaks, ?_⟩, parked⟩, current _ widths rfl rfl⟩
    · rw [widths, length_map] at peak
      exact widest peak
    · intro columns found
      obtain rfl := Option.some.inj found
      exact ⟨_, rfl, peak⟩

end Steps

/-! ### Runs -/

/-- A document that is edited, each edit reported right after it, while the tab size changes and
the widest line is asked for. -/
inductive WidthRun : List Line → Nat → Nat → LineWidthCache → Prop
  | cold {lines : List Line} {tabSize : Nat} (positive : 0 < tabSize)
      (fits : DocumentFits lines tabSize) (contentRevision : Nat) :
      WidthRun lines tabSize contentRevision {}
  | edit {before removed inserted after : List Line} {tabSize contentRevision nextRevision : Nat}
      {cache : LineWidthCache} {splice : InlineLineSplice}
      (run : WidthRun (before ++ removed ++ after) tabSize contentRevision cache)
      (later : contentRevision < nextRevision)
      (fits : DocumentFits (before ++ inserted ++ after) tabSize)
      (reports : splice.Reports removed inserted) :
      WidthRun (before ++ inserted ++ after) tabSize nextRevision
        (cache.updateVisualColumnCacheAfterEdit before.length removed.length inserted.length
          (before ++ inserted ++ after) tabSize nextRevision splice)
  | arm {lines : List Line} {tabSize contentRevision : Nat} {cache : LineWidthCache}
      (run : WidthRun lines tabSize contentRevision cache) :
      WidthRun lines tabSize contentRevision cache.armLineWidthParking
  | tabSize {lines : List Line} {tabSize nextTabSize contentRevision : Nat} {cache : LineWidthCache}
      (run : WidthRun lines tabSize contentRevision cache) (positive : 0 < nextTabSize)
      (fits : DocumentFits lines nextTabSize) :
      WidthRun lines nextTabSize contentRevision cache.parkLineWidthsForTabSizeChange
  | clear {lines : List Line} {tabSize nextTabSize contentRevision : Nat} {cache : LineWidthCache}
      (run : WidthRun lines tabSize contentRevision cache) (positive : 0 < nextTabSize)
      (fits : DocumentFits lines nextTabSize) :
      WidthRun lines nextTabSize contentRevision cache.clearVisibleLineAndMaxColumns
  | query {lines : List Line} {tabSize contentRevision : Nat} {cache : LineWidthCache}
      (run : WidthRun lines tabSize contentRevision cache) :
      WidthRun lines tabSize contentRevision
        (cache.maxVisualColumns lines tabSize contentRevision).2

section Offers

variable {lines : List Line} {tabSize contentRevision : Nat} {cache : LineWidthCache}

theorem WidthRun.fits (run : WidthRun lines tabSize contentRevision cache) :
    0 < tabSize ∧ DocumentFits lines tabSize := by
  induction run with
  | cold positive fits => exact ⟨positive, fits⟩
  | edit _ _ fits _ ih => exact ⟨ih.1, fits⟩
  | arm _ ih => exact ih
  | tabSize _ positive fits => exact ⟨positive, fits⟩
  | clear _ positive fits => exact ⟨positive, fits⟩
  | query _ ih => exact ih

/-- Every run keeps the invariant. -/
theorem WidthRun.invariant (run : WidthRun lines tabSize contentRevision cache) :
    cache.Exact lines contentRevision := by
  induction run with
  | cold => exact ⟨.inl ⟨rfl, rfl⟩, fun widths mem => absurd mem (not_mem_none widths)⟩
  | edit run later fits reports ih => exact updated_exact ih run.fits.1 later run.fits.2 fits reports
  | arm _ ih =>
    refine ⟨ih.table.imp id fun describes => ?_, ih.parked⟩
    exact ⟨describes.positive, describes.revision, describes.widths, describes.blocks,
      describes.widest⟩
  | tabSize _ _ _ ih => exact parked_exact ih
  | clear => exact cleared_exact _ _ _
  | query run ih => exact (maxVisualColumns_spec ih run.fits.1 run.fits.2).2.1

/-- **What the table offers as current is measured**: in every run the entries it answers with are
the facts of their lines, of which the tabs are only reported for a tab-indented line of at most
255; the maxima of its blocks are those of their lines; and the widest line is found, and leaves a
table that is current. -/
theorem WidthRun.offers (run : WidthRun lines tabSize contentRevision cache) :
    (∀ lineIndex, ∀ line ∈ lines[lineIndex]?,
      (cache.lineFactsIfCurrent lines.length lineIndex tabSize contentRevision).known = true →
        cache.lineFactsIfCurrent lines.length lineIndex tabSize contentRevision =
          (measureLineFacts line tabSize).reported) ∧
    (cache.lineWidthsAreCurrent lines.length tabSize contentRevision = true →
      cache.blockMax.length = visualColumnBlockCount cache.widths →
        ∀ blockIndex, ∀ block ∈ cache.blockMax[blockIndex]?,
          block.columns = widestOf tabSize (blockLines lines blockIndex)) ∧
    (cache.maxVisualColumns lines tabSize contentRevision).1 = widestOf tabSize lines ∧
    (cache.maxVisualColumns lines tabSize contentRevision).2.lineWidthsAreCurrent lines.length tabSize
      contentRevision = true := by
  obtain ⟨positive, fits⟩ := run.fits
  have exact_ := run.invariant
  have described (current : cache.lineWidthsAreCurrent lines.length tabSize contentRevision = true) :
      cache.tabSize = tabSize ∧ cache.Describes lines contentRevision := by
    rw [LineWidthCache.lineWidthsAreCurrent, Bool.and_eq_true, Bool.and_eq_true] at current
    have here := beq_iff_eq.mp current.1.1
    exact ⟨here, exact_.table.resolve_left fun none_ => absurd (none_.1.symm.trans here) positive.ne⟩
  obtain ⟨widest, -, current⟩ := maxVisualColumns_spec exact_ positive fits
  refine ⟨fun lineIndex line found known => ?_, fun current recorded blockIndex block mem => ?_, widest,
    current⟩
  · rw [LineWidthCache.lineFactsIfCurrent] at known ⊢
    split
    next unknown =>
      rw [if_pos unknown] at known
      exact absurd known Bool.false_ne_true
    next offered =>
      rw [Bool.or_eq_true, not_or, Bool.not_eq_true', Bool.not_eq_false] at offered
      obtain ⟨here, describes⟩ := described offered.1
      have narrow := fits.widths line (mem_of_getElem? found)
      rw [← lineEntry_facts narrow, describes.widths, here, getD_eq_getElem?_getD,
        getElem?_map, mem_def.mp found]
      rfl
  · obtain ⟨here, describes⟩ := described current
    have widths := describes.widths
    rw [here] at widths
    have peak := describes.blocks recorded blockIndex block mem
    rw [BlockPeak, widths, blockEnd, length_map] at peak
    have widest := widestOf_eq fits (min_le_right _ _) peak
    have clipped : lines.take (min (blockStart blockIndex + kVisualColumnBlockLines) lines.length) =
        lines.take (blockStart blockIndex + kVisualColumnBlockLines) :=
      take_eq_take_iff.mpr (by omega)
    rwa [clipped] at widest

/-- A table that is built for `a`, when `b` is typed behind it. -/
theorem WidthRun.offers_typed :
    let cache := (({} : LineWidthCache).maxVisualColumns [[0x61]] 4 0).2
    let typed := cache.updateVisualColumnCacheAfterEdit 0 1 1 [[0x61, 0x62]] 4 1 ⟨[0x62], true⟩
    typed.lineFactsIfCurrent 1 0 4 1 = (measureLineFacts [0x61, 0x62] 4).reported ∧
      (typed.maxVisualColumns [[0x61, 0x62]] 4 1).1 = 2 := by
  have fits : DocumentFits [[0x61]] 4 := ⟨by decide, by decide⟩
  have fits' : DocumentFits [[0x61, 0x62]] 4 := ⟨by decide, by decide⟩
  have run := @WidthRun.edit [] [[0x61]] [[0x61, 0x62]] [] 4 0 1 _ ⟨[0x62], true⟩
    (.query (.cold (by decide) fits 0)) Nat.one_pos fits'
    fun _ => ⟨[0x61], [], [], rfl, rfl⟩
  obtain ⟨facts, -, widest, -⟩ := run.offers
  exact ⟨facts 0 _ rfl (by decide +kernel), widest.trans (by decide +kernel)⟩

/-- Of a tab before `é` the table counts none, where measuring the line does. -/
theorem lineFactsIfCurrent_tab :
    let cache := (({} : LineWidthCache).maxVisualColumns [[0x09, 0xC3, 0xA9]] 4 0).2
    (cache.lineFactsIfCurrent 1 0 4 0).known = true ∧
      (cache.lineFactsIfCurrent 1 0 4 0).leadingTabs = 0 ∧
      (measureLineFacts [0x09, 0xC3, 0xA9] 4).leadingTabs = 1 := by
  decide +kernel

end Offers

end Microide.Editor
