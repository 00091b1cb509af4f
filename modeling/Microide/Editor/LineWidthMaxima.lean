/-
The maxima of the width table.

The widest line of a block, and of the document, is a peak of the table's widths, as long as widths
and lines fit the 32 bits of a block's record.

**Main results.** `rebuilt_blockPeaks`, `refreshed_blockPeaks`: the records of the blocks;
`widestBlock_isPeak`: the widest line; `updatedMax_isPeak`: the widest line after an edit.
-/

import Microide.Editor.LineWidthTable

namespace Microide.Editor

open List Option Lib Text

/-- The widths of the table, and its lines, fit a block's record. -/
structure TableFits (widths : List PackedLineWidth) : Prop where
  lines : widths.length ≤ 2 ^ 32
  columns : ∀ width ∈ widths, width.visualColumns < 2 ^ 32

section Widths

variable {widths : List PackedLineWidth} {start stop : Nat}

theorem length_columnsIn (inside : stop ≤ widths.length) :
    (columnsIn widths start stop).length = stop - start := by
  rw [columnsIn, length_map, length_drop, length_take, min_eq_left inside]

theorem columnsIn_getElem? (k : Nat) :
    ∀ v ∈ (columnsIn widths start stop)[k]?, columnsAt widths (start + k) = v := by
  intro v mem
  rw [columnsIn, getElem?_map, getElem?_drop, Option.mem_map] at mem
  obtain ⟨width, found, rfl⟩ := mem
  rw [getElem?_take] at found
  split at found
  · rw [columnsAt, getD_eq_getElem?_getD, mem_def.mp found]
    rfl
  · exact absurd found (not_mem_none width)

theorem TableFits.columnsIn (fits : TableFits widths) :
    ∀ v ∈ columnsIn widths start stop, v < 2 ^ 32 := by
  intro v mem
  obtain ⟨width, found, rfl⟩ := mem_map.mp mem
  exact fits.columns width (mem_of_mem_take (mem_of_mem_drop found))

end Widths

/-! ### Blocks -/

/-- What a block records is the peak of its lines. -/
def BlockPeak (widths : List PackedLineWidth) (blockIndex : Nat) (block : VisualColumnBlockMax) : Prop :=
  IsPeak (columnsAt widths) (blockStart blockIndex) (blockEnd widths blockIndex)
    (block.columns, block.line)

/-- Every block that is recorded has its peak, unless the records are not those of the table. -/
def BlockPeaks (widths : List PackedLineWidth) (blockMax : List VisualColumnBlockMax) : Prop :=
  blockMax.length = visualColumnBlockCount widths →
    ∀ blockIndex, ∀ block ∈ blockMax[blockIndex]?, BlockPeak widths blockIndex block

section Blocks

variable {widths : List PackedLineWidth} {blockMax : List VisualColumnBlockMax}
  {blockIndex firstLine lastLine : Nat} {block : VisualColumnBlockMax}

theorem toU32_of_lt {n : Nat} (fits : n < 2 ^ 32) : toU32 n = n := Nat.mod_eq_of_lt fits

/-- A block's scan loses nothing in 32 bits. -/
theorem scanBlock_eq {columns : List Nat} {index : Nat} (fits : ∀ v ∈ columns, v < 2 ^ 32)
    (lines : index + columns.length ≤ 2 ^ 32) (block : VisualColumnBlockMax) :
    ((scanBlock block index columns).columns, (scanBlock block index columns).line) =
      bestFrom (fun value best => decide (best ≤ value)) (block.columns, block.line) index columns := by
  induction columns generalizing block index with
  | nil => rfl
  | cons first rest ih =>
    obtain ⟨fits_, fits⟩ := forall_mem_cons.mp fits
    rw [length_cons] at lines
    rw [scanBlock, bestFrom, ih fits (by omega), toU32_of_lt fits_, toU32_of_lt (by omega)]
    by_cases wider : block.columns ≤ first
    · rw [if_pos wider, if_pos (decide_eq_true wider)]
    · rw [if_neg wider, if_neg fun wider_ => wider (of_decide_eq_true wider_)]

theorem blockStart_lt (inside : blockIndex < visualColumnBlockCount widths) :
    blockStart blockIndex < blockEnd widths blockIndex := by
  rw [visualColumnBlockCount, Nat.lt_div_iff_mul_lt (by decide)] at inside
  rw [blockEnd, blockStart]
  unfold kVisualColumnBlockLines at *
  omega

theorem widestFrom_isPeak {value : Nat → Nat} {index : Nat} {columns : List Nat}
    (values : ∀ k, ∀ v ∈ columns[k]?, value (index + k) = v) :
    IsPeak value index (index + columns.length) (widestFrom index columns) :=
  bestFrom_isPeak prefers_le (isPeak_empty index) le_rfl values

section

variable (fits : TableFits widths)

include fits

theorem scanWholeBlock_blockPeak (inside : blockIndex < visualColumnBlockCount widths) :
    BlockPeak widths blockIndex (scanWholeBlock widths blockIndex) := by
  have some_ := blockStart_lt inside
  have end_ : blockEnd widths blockIndex ≤ widths.length := min_le_right _ _
  have size := @length_columnsIn widths (blockStart blockIndex) _ end_
  have lines := fits.lines
  have stop : blockStart blockIndex + (columnsIn widths (blockStart blockIndex)
      (blockEnd widths blockIndex)).length = blockEnd widths blockIndex := by omega
  have scan := scanBlock_eq (@TableFits.columnsIn widths (blockStart blockIndex)
    (blockEnd widths blockIndex) fits) (stop.trans_le (end_.trans lines)) {}
  have peak := @bestFrom_isPeak _ _ _ (columnsAt widths) (blockStart blockIndex) _ (0, 0)
    (blockStart blockIndex) (columnsIn widths (blockStart blockIndex) (blockEnd widths blockIndex))
    prefers_le (isPeak_empty 0) le_rfl columnsIn_getElem?
  rw [stop] at peak
  rw [BlockPeak, scanWholeBlock, scan]
  exact peak

theorem rebuilt_blockPeaks : BlockPeaks widths (rebuildVisualColumnBlockMaxima widths) := by
  intro _ blockIndex block mem
  rw [rebuildVisualColumnBlockMaxima, getElem?_map, Option.mem_map] at mem
  obtain ⟨b, found, rfl⟩ := mem
  have inside := (List.getElem?_eq_some_iff.mp found).1
  rw [length_range] at inside
  obtain rfl := Option.some.inj ((getElem?_range inside).symm.trans found)
  exact scanWholeBlock_blockPeak fits inside

theorem columnsAt_lt (i : Nat) : columnsAt widths i < 2 ^ 32 := by
  rw [columnsAt, getD_eq_getElem?_getD]
  cases found : widths[i]? with
  | none => exact Nat.two_pow_pos 32
  | some width => exact fits.columns width (mem_of_getElem? found)

/-- A record of a peak loses nothing in 32 bits. -/
theorem isPeak_toU32 {lo hi : Nat} (lines : hi ≤ 2 ^ 32) {peak : Nat × Nat}
    (seen : IsPeak (columnsAt widths) lo hi peak) :
    IsPeak (columnsAt widths) lo hi (toU32 peak.1, toU32 peak.2) := by
  rcases seen.attained with zero | ⟨low, high, here⟩
  · have height : toU32 peak.1 = peak.1 := by
      rw [zero]
      rfl
    exact ⟨fun i low high => (seen.bound i low high).trans_eq height.symm, .inl (height.trans zero)⟩
  · have narrow := columnsAt_lt fits peak.2
    rw [here] at narrow
    rw [toU32_of_lt narrow, toU32_of_lt (high.trans_le lines)]
    exact seen

/-- **A block that an edit rewrote lines of** has its peak again: the widest of those lines where
that is no narrower, the line it had where that was not rewritten, and what a scan finds elsewhere. -/
theorem refreshBlock_blockPeak {before : List PackedLineWidth}
    (length : before.length = widths.length) (inside : blockIndex < visualColumnBlockCount widths)
    (order : firstLine ≤ lastLine) (lines : lastLine < widths.length)
    (touched : firstLine / kVisualColumnBlockLines ≤ blockIndex ∧
      blockIndex ≤ lastLine / kVisualColumnBlockLines)
    (same : ∀ i, i < firstLine ∨ lastLine < i → columnsAt widths i = columnsAt before i)
    (peak : BlockPeak before blockIndex block) :
    BlockPeak widths blockIndex (refreshBlock widths firstLine lastLine blockIndex block) := by
  have end_ : blockEnd before blockIndex = blockEnd widths blockIndex := by
    rw [blockEnd, blockEnd, length]
  have inner : blockEnd widths blockIndex ≤ widths.length := min_le_right _ _
  have early : firstLine < blockStart blockIndex + kVisualColumnBlockLines := by
    unfold blockStart kVisualColumnBlockLines at *
    omega
  have late : blockStart blockIndex ≤ lastLine := by
    unfold blockStart kVisualColumnBlockLines at *
    omega
  have end_eq : blockEnd widths blockIndex =
    min (blockStart blockIndex + kVisualColumnBlockLines) widths.length := rfl
  rw [refreshBlock]
  generalize begin_ : max (blockStart blockIndex) firstLine = touchedBegin
  generalize stop_ : min (blockEnd widths blockIndex) (lastLine + 1) = touchedEnd
  have replaced : Replaced (columnsAt before) (columnsAt widths) (blockStart blockIndex) touchedBegin
      touchedEnd touchedEnd (blockEnd widths blockIndex - touchedEnd) := by
    refine ⟨by omega, by omega, by omega, fun i low left => same i (.inl (by omega)), ?_⟩
    exact fun k more => same _ (.inr (by omega))
  have whole : touchedEnd + (blockEnd widths blockIndex - touchedEnd) =
      blockEnd widths blockIndex := by omega
  have size := @length_columnsIn widths touchedBegin touchedEnd (by omega)
  have widest := @widestFrom_isPeak (columnsAt widths) touchedBegin
    (columnsIn widths touchedBegin touchedEnd) columnsIn_getElem?
  have reach : touchedBegin + (columnsIn widths touchedBegin touchedEnd).length = touchedEnd := by
    omega
  rw [reach] at widest
  rw [BlockPeak, end_, ← whole] at peak
  split
  next wider =>
    have grown := peak.replaced_wider replaced widest wider
    rw [whole] at grown
    exact isPeak_toU32 fits (inner.trans fits.lines) grown
  next narrower =>
    split
    next outside =>
      have kept := peak.replaced_kept replaced (fun part => by omega) fun i low high =>
        (widest.bound i low high).trans (Nat.le_of_not_le narrower)
      have place : movedPlace touchedEnd touchedEnd block.line = block.line := by
        rw [movedPlace]
        split <;> omega
      rwa [whole, place] at kept
    · exact scanWholeBlock_blockPeak fits inside

/-- **The blocks after an edit in place** have their peaks. -/
theorem refreshed_blockPeaks {before : List PackedLineWidth}
    (length : before.length = widths.length) (lines : lastLine < widths.length)
    (order : firstLine ≤ lastLine)
    (same : ∀ i, i < firstLine ∨ lastLine < i → columnsAt widths i = columnsAt before i)
    (peaks : BlockPeaks before blockMax) :
    BlockPeaks widths (refreshVisualColumnBlocksFor widths blockMax firstLine lastLine) := by
  have count : visualColumnBlockCount before = visualColumnBlockCount widths := by
    rw [visualColumnBlockCount, visualColumnBlockCount, length]
  intro recorded blockIndex block mem
  rw [refreshVisualColumnBlocksFor] at recorded mem
  split at mem
  · exact absurd mem (not_mem_none block)
  next kept =>
    rw [not_or, not_not] at kept
    rw [if_neg (Nat.not_le_of_lt (order.trans_lt lines)), min_eq_left (by omega),
      getElem?_mapIdx, Option.mem_map] at mem
    obtain ⟨old, found, rfl⟩ := mem
    have inside := (List.getElem?_eq_some_iff.mp found).1
    rw [kept.2] at inside
    have peak := peaks (kept.2.trans count.symm) blockIndex old found
    split
    next touched =>
      exact refreshBlock_blockPeak fits length inside order lines touched same peak
    next apart =>
      have end_ : blockEnd before blockIndex = blockEnd widths blockIndex := by
        rw [blockEnd, blockEnd, length]
      rw [BlockPeak, end_] at peak
      refine peak.congr fun i low high => same i ?_
      rw [blockEnd] at high
      unfold blockStart kVisualColumnBlockLines at *
      omega

end

/-- **The widest of the blocks** is the peak of the table. -/
theorem widestBlock_isPeak (recorded : blockMax.length = visualColumnBlockCount widths)
    (peaks : BlockPeaks widths blockMax) :
    IsPeak (columnsAt widths) 0 widths.length (widestBlock blockMax) := by
  have run (blocks : List VisualColumnBlockMax) (first : Nat) (best : Nat × Nat)
      (seen : IsPeak (columnsAt widths) 0 (min (blockStart first) widths.length) best)
      (blocks_ : ∀ k, ∀ block ∈ blocks[k]?, first + k < visualColumnBlockCount widths ∧
        BlockPeak widths (first + k) block) :
      IsPeak (columnsAt widths) 0 (min (blockStart (first + blocks.length)) widths.length)
        (blocks.foldl (fun best block =>
          if best.1 ≤ block.columns then (block.columns, block.line) else best) best) := by
    induction blocks generalizing first best with
    | nil => exact seen
    | cons block blocks ih =>
      obtain ⟨inside, peak⟩ := blocks_ 0 block rfl
      have some_ := blockStart_lt inside
      have next : blockEnd widths first = min (blockStart (first + 1)) widths.length := by
        rw [blockEnd, blockStart, blockStart, Nat.succ_mul]
      rw [foldl_cons, length_cons, ← Nat.add_assoc, Nat.add_right_comm]
      refine ih (first + 1) _ ?_ fun k block mem => ?_
      · have low : min (blockStart first) widths.length = blockStart first :=
          min_eq_left (some_.le.trans (min_le_right _ _))
        rw [low] at seen
        rw [← next]
        refine seen.join peak (Nat.zero_le _) some_.le ?_
        split
        next wider =>
          exact .inr ⟨rfl, wider⟩
        next narrower =>
          exact .inl ⟨rfl, Nat.le_of_not_le narrower⟩
      · rw [Nat.add_assoc, Nat.add_comm 1]
        exact blocks_ (k + 1) block mem
  have whole := run blockMax 0 (0, 0) (by exact isPeak_empty 0)
    fun k block mem => by
      have inside := (List.getElem?_eq_some_iff.mp mem).1
      rw [Nat.zero_add]
      exact ⟨by omega, peaks recorded k block mem⟩
  have all : widths.length ≤ blockStart (0 + blockMax.length) := by
    rw [recorded, visualColumnBlockCount, blockStart]
    unfold kVisualColumnBlockLines
    omega
  rwa [min_eq_right all] at whole

end Blocks

/-! ### The widest line -/

/-- The widest line that is recorded is the peak of the table. -/
def WidestPeak (widths : List PackedLineWidth) (maxColumns maxLineIndex : Option Nat) : Prop :=
  ∀ columns ∈ maxColumns, ∃ line ∈ maxLineIndex,
    IsPeak (columnsAt widths) 0 widths.length (columns, line)

section Widest

variable {cache : LineWidthCache} {widths : List PackedLineWidth} {inserted : List Nat}
  {start removedCount count : Nat}

/-- **The widest line after an edit** is the peak of the table again, where one is recorded: it is
kept or grown where it was not replaced, and adopted where what replaced it is no narrower. -/
theorem updatedMax_isPeak
    (replaced : Replaced (columnsAt cache.widths) (columnsAt widths) 0 start (start + removedCount)
      (start + inserted.length) count)
    (length : cache.widths.length = start + removedCount + count)
    (inserted_ : ∀ k, ∀ v ∈ inserted[k]?, columnsAt widths (start + k) = v)
    (widest : WidestPeak cache.widths cache.maxColumns cache.maxLineIndex) :
    ∀ found ∈ cache.updatedMax start removedCount inserted,
      IsPeak (columnsAt widths) 0 (start + inserted.length + count) found := by
  intro found mem
  rw [LineWidthCache.updatedMax] at mem
  cases columns : cache.maxColumns with
  | none =>
    rw [columns] at mem
    exact absurd mem (not_mem_none found)
  | some maxColumns =>
    obtain ⟨maxLine, line, seen⟩ := widest maxColumns columns
    rw [columns, mem_def.mp line] at mem
    rw [length] at seen
    dsimp only at mem
    split at mem
    · split at mem
      next wider =>
        obtain rfl := Option.some.inj mem
        exact seen.replaced_wider replaced (widestFrom_isPeak inserted_) wider.2
      · exact absurd mem (not_mem_none found)
    next outside =>
      have moved : (if start + removedCount ≤ maxLine then maxLine + inserted.length - removedCount
          else maxLine) = movedPlace (start + removedCount) (start + inserted.length) maxLine := by
        rw [movedPlace]
        split <;> omega
      obtain rfl := Option.some.inj mem
      rw [moved]
      rcases @bestFrom_spec _ _ _ (columnsAt widths) _ (maxColumns, movedPlace (start + removedCount)
        (start + inserted.length) maxLine) start inserted prefers_lt inserted_ with
        ⟨stays, bound⟩ | ⟨peak, higher⟩
      · rw [stays]
        exact seen.replaced_kept replaced (fun low => by omega) bound
      · exact seen.replaced_wider replaced peak higher

end Widest

end Microide.Editor
