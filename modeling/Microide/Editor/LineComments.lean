/-
The line-comment toggle.

A region whose lines all carry the marker behind their indentation loses it, any other region
gets it on every line, blank lines apart, at the column of its least indented line. A space goes
in behind the marker and comes out with it.

**Main results.** `build_toggled`: a region that was given the marker is a region to take it
from, and gives the lines back; `toggleLineComment_involutive`.
-/

import Mathlib
import Microide.Editor.PieceTreeEdits
import Microide.Lib.SpanEdits

namespace Microide.Editor

open List Text Lib


/-- Lines of the buffer, both ends in it. -/
structure LineRange where
  first : Nat
  last : Nat

def LineRange.lineCount (range : LineRange) : Nat := range.last - range.first + 1

def LineRange.linesOf (range : LineRange) (lines : List Line) : List Line :=
  (lines.drop range.first).take range.lineCount

def isBlankByte (byte : UInt8) : Bool := byte == 0x20 || byte == 0x09

def lineIsEmptyOrWhitespace (line : Line) : Bool := line.all isBlankByte

def leadingWhitespaceCount (line : Line) : Nat := (line.takeWhile isBlankByte).length

/-- What the first pass over a region gathers; no `minIndent` is `npos`. -/
structure RegionScan where
  allCommented : Bool
  anyNonBlank : Bool
  minIndent : Option Nat

/-- `line.compare(lead, marker.size(), marker) == 0`. -/
def markerAt (marker : List UInt8) (line : Line) : Bool :=
  (line.drop (leadingWhitespaceCount line)).take marker.length == marker

def scanLine (marker : List UInt8) (scan : RegionScan) (line : Line) : RegionScan :=
  if lineIsEmptyOrWhitespace line then scan
  else
    { allCommented := scan.allCommented && markerAt marker line
      anyNonBlank := true
      minIndent := some <|
        match scan.minIndent with
        | none => leadingWhitespaceCount line
        | some least => min (leadingWhitespaceCount line) least }

def scanRegion (marker : List UInt8) (region : List Line) : RegionScan :=
  region.foldl (scanLine marker) ⟨true, false, none⟩

/-- The first marker behind the indentation goes, with one space behind it. -/
def stripMarker (marker : List UInt8) (text : Line) : Line :=
  let lead := leadingWhitespaceCount text
  let pos := lead + marker.length
  let pos := if text[pos]? = some 0x20 then pos + 1 else pos
  text.take lead ++ text.drop pos

def insertMarker (marker : List UInt8) (indent : Nat) (line : Line) : Line :=
  line.take indent ++ marker ++ [0x20] ++ line.drop indent

def toggledLine (marker : List UInt8) (scan : RegionScan) (line : Line) : Line :=
  if lineIsEmptyOrWhitespace line then line
  else if scan.allCommented then stripMarker marker line
  else insertMarker marker (scan.minIndent.getD 0) line

/-- `BuildToggledCommentRegion`. -/
def buildToggledCommentRegion (marker : List UInt8) (region : List Line) : Option (List Line) :=
  let scan := scanRegion marker region
  if scan.anyNonBlank then some (region.map (toggledLine marker scan)) else none

def toggleRegion (marker : List UInt8) (lines : List Line) (range : LineRange) : List Line :=
  match buildToggledCommentRegion marker (range.linesOf lines) with
  | none => lines
  | some updated => replaceLines lines range.first range.lineCount updated

/-- `ToggleLineComment`, the lines of it, over the regions of the carets. -/
def toggleLineComment (marker : List UInt8) (ranges : List LineRange) (lines : List Line) :
    List Line :=
  if marker.isEmpty then lines else ranges.foldl (toggleRegion marker) lines

/-- Every line with more than blanks carries the marker. -/
def FullyCommented (marker : List UInt8) (region : List Line) : Prop :=
  ∀ line ∈ region, lineIsEmptyOrWhitespace line = false → markerAt marker line = true

/-! ### The first pass -/

section Scan

variable (marker : List UInt8)

theorem foldl_allCommented (region : List Line) (scan : RegionScan) :
    (region.foldl (scanLine marker) scan).allCommented = true ↔
      scan.allCommented = true ∧ FullyCommented marker region := by
  induction region generalizing scan with
  | nil => simp [FullyCommented]
  | cons line region ih =>
    rw [foldl_cons, ih, scanLine]
    unfold FullyCommented
    rw [forall_mem_cons]
    split
    next blank =>
      simp [blank]
    next text =>
      simp [text, and_assoc]

theorem foldl_anyNonBlank (region : List Line) (scan : RegionScan) :
    (region.foldl (scanLine marker) scan).anyNonBlank = true ↔
      scan.anyNonBlank = true ∨ ∃ line ∈ region, lineIsEmptyOrWhitespace line = false := by
  induction region generalizing scan with
  | nil => simp
  | cons line region ih =>
    rw [foldl_cons, ih, scanLine]
    split
    next blank =>
      simp [blank]
    next text =>
      simp [text]

/-- The least indentation is no more than that of any line, nor than what was found before. -/
theorem foldl_minIndent (region : List Line) (scan : RegionScan) :
    (∀ least, scan.minIndent = some least →
      ∃ less ≤ least, (region.foldl (scanLine marker) scan).minIndent = some less) ∧
    ∀ line ∈ region, lineIsEmptyOrWhitespace line = false →
      ∃ less ≤ leadingWhitespaceCount line,
        (region.foldl (scanLine marker) scan).minIndent = some less := by
  induction region generalizing scan with
  | nil => exact ⟨fun least before => ⟨least, le_rfl, before⟩, nofun⟩
  | cons line region ih =>
    obtain ⟨kept, found⟩ := ih (scanLine marker scan line)
    constructor
    · intro least before
      by_cases blank : lineIsEmptyOrWhitespace line = true
      · exact kept least (by rw [scanLine, if_pos blank, before])
      · obtain ⟨less, le, after⟩ := kept (min (leadingWhitespaceCount line) least) (by
          rw [scanLine, if_neg blank, before])
        exact ⟨less, le.trans (Nat.min_le_right _ _), after⟩
    · rw [forall_mem_cons]
      refine ⟨fun text => ?_, found⟩
      have text : ¬lineIsEmptyOrWhitespace line = true := ne_true_of_eq_false text
      cases before : scan.minIndent with
      | none => exact kept _ (by rw [scanLine, if_neg text, before])
      | some least =>
        obtain ⟨less, le, after⟩ := kept (min (leadingWhitespaceCount line) least) (by
          rw [scanLine, if_neg text, before])
        exact ⟨less, le.trans (Nat.min_le_left _ _), after⟩

variable {region : List Line}

theorem scanRegion_allCommented :
    (scanRegion marker region).allCommented = true ↔ FullyCommented marker region := by
  rw [scanRegion, foldl_allCommented]
  exact and_iff_right rfl

theorem scanRegion_anyNonBlank : (scanRegion marker region).anyNonBlank = true ↔
    ∃ line ∈ region, lineIsEmptyOrWhitespace line = false := by
  rw [scanRegion, foldl_anyNonBlank]
  exact or_iff_right Bool.false_ne_true

theorem scanRegion_minIndent {line : Line} (mem : line ∈ region)
    (text : lineIsEmptyOrWhitespace line = false) :
    (scanRegion marker region).minIndent.getD 0 ≤ leadingWhitespaceCount line := by
  obtain ⟨less, le, found⟩ := (foldl_minIndent marker region ⟨true, false, none⟩).2 line mem text
  rwa [scanRegion, found]

end Scan

/-! ### One line -/

section OneLine

variable {marker : List UInt8} {line : Line} {indent : Nat}

/-- The bytes before a column no deeper than the indentation are blanks. -/
theorem take_blank (le : indent ≤ leadingWhitespaceCount line) :
    ∀ byte ∈ line.take indent, isBlankByte byte = true := by
  have within : line.take indent = (line.takeWhile isBlankByte).take indent := by
    conv_lhs => rw [← @takeWhile_append_dropWhile _ isBlankByte line]
    exact take_append_of_le_length le
  intro byte mem
  rw [within] at mem
  exact mem_takeWhile_imp (mem_of_mem_take mem)

variable (ne : marker ≠ []) (leading : ∀ byte ∈ marker.head?, isBlankByte byte = false)
  (le : indent ≤ leadingWhitespaceCount line)

include ne leading le

theorem leadingWhitespaceCount_insertMarker :
    leadingWhitespaceCount (insertMarker marker indent line) = indent := by
  obtain ⟨first, rest, rfl⟩ := exists_cons_of_ne_nil ne
  have text : isBlankByte first = false := leading first rfl
  have inside : indent ≤ line.length := le.trans (takeWhile_sublist _).length_le
  rw [leadingWhitespaceCount, insertMarker, append_assoc, append_assoc,
    takeWhile_append_of_pos (take_blank le), cons_append, takeWhile_cons, text]
  simpa using inside

omit le in
theorem insertMarker_text : lineIsEmptyOrWhitespace (insertMarker marker indent line) = false := by
  obtain ⟨first, rest, rfl⟩ := exists_cons_of_ne_nil ne
  refine all_eq_false.mpr ⟨first, ?_, ?_⟩
  · simp [insertMarker]
  · rw [leading first rfl]
    exact Bool.false_ne_true

omit ne leading in
theorem drop_insertMarker : (insertMarker marker indent line).drop indent =
    marker ++ ([0x20] ++ line.drop indent) := by
  have inside : indent ≤ line.length := le.trans (takeWhile_sublist _).length_le
  rw [insertMarker, append_assoc, append_assoc, drop_left' (length_take_of_le inside)]

theorem markerAt_insertMarker : markerAt marker (insertMarker marker indent line) = true := by
  rw [markerAt, leadingWhitespaceCount_insertMarker ne leading le, drop_insertMarker le, take_left]
  exact beq_self_eq_true marker

/-- What was put in comes out. -/
theorem stripMarker_insertMarker : stripMarker marker (insertMarker marker indent line) = line := by
  have inside : indent ≤ line.length := le.trans (takeWhile_sublist _).length_le
  have behind := @drop_insertMarker marker line indent le
  have space : (insertMarker marker indent line)[indent + marker.length]? = some 0x20 := by
    rw [← getElem?_drop, behind, getElem?_append_right le_rfl, Nat.sub_self]
    rfl
  have tail : (insertMarker marker indent line).drop (indent + marker.length + 1) =
      line.drop indent := by
    rw [Nat.add_assoc, ← drop_drop, behind, ← drop_drop, drop_left]
    rfl
  have head : (insertMarker marker indent line).take indent = line.take indent := by
    rw [insertMarker, append_assoc, append_assoc, take_left' (length_take_of_le inside)]
  unfold stripMarker
  rw [leadingWhitespaceCount_insertMarker ne leading le]
  dsimp only
  rw [if_pos space, tail, head, take_append_drop]

end OneLine

/-! ### Regions -/

/-- The lines of a region after the toggle. -/
def toggledRegion (marker : List UInt8) (region : List Line) : List Line :=
  (buildToggledCommentRegion marker region).getD region

section Region

variable {marker : List UInt8} {region : List Line}

theorem length_toggledRegion (marker : List UInt8) (region : List Line) :
    (toggledRegion marker region).length = region.length := by
  rw [toggledRegion, buildToggledCommentRegion]
  split
  · exact length_map _
  · rfl

theorem toggledRegion_text (some_ : ∃ line ∈ region, lineIsEmptyOrWhitespace line = false) :
    toggledRegion marker region = region.map (toggledLine marker (scanRegion marker region)) := by
  rw [toggledRegion, buildToggledCommentRegion, if_pos ((scanRegion_anyNonBlank marker).mpr some_)]
  rfl

/-- A region that was given the marker gives the lines back. -/
theorem toggledRegion_twice (ne : marker ≠ [])
    (leading : ∀ byte ∈ marker.head?, isBlankByte byte = false)
    (open_ : ¬FullyCommented marker region) :
    toggledRegion marker (toggledRegion marker region) = region := by
  obtain ⟨line, mem, text, -⟩ : ∃ line ∈ region, lineIsEmptyOrWhitespace line = false ∧
      ¬markerAt marker line = true := by
    unfold FullyCommented at open_
    push Not at open_
    exact open_
  have adds : ¬(scanRegion marker region).allCommented = true :=
    mt (scanRegion_allCommented marker).mp open_
  -- What each line is after the first toggle.
  have first : ∀ line, lineIsEmptyOrWhitespace line = false →
      toggledLine marker (scanRegion marker region) line =
        insertMarker marker ((scanRegion marker region).minIndent.getD 0) line := by
    intro line text
    rw [toggledLine, if_neg (ne_true_of_eq_false text), if_neg adds]
  have blank : ∀ scan line, lineIsEmptyOrWhitespace line = true →
      toggledLine marker scan line = line := fun scan line blank => if_pos blank
  have some_ : ∃ line ∈ region.map (toggledLine marker (scanRegion marker region)),
      lineIsEmptyOrWhitespace line = false :=
    ⟨_, mem_map_of_mem mem, first line text ▸ insertMarker_text ne leading⟩
  have full : FullyCommented marker (region.map (toggledLine marker (scanRegion marker region))) := by
    intro after memAfter textAfter
    obtain ⟨line, mem, rfl⟩ := mem_map.mp memAfter
    by_cases text : lineIsEmptyOrWhitespace line = false
    · rw [first line text]
      exact markerAt_insertMarker ne leading (scanRegion_minIndent marker mem text)
    · rw [Bool.not_eq_false] at text
      rw [blank _ line text, text] at textAfter
      exact Bool.noConfusion textAfter
  rw [toggledRegion_text ⟨line, mem, text⟩, toggledRegion_text some_, map_map]
  refine (map_congr_left fun line mem => ?_).trans (map_id region)
  rw [Function.comp_apply, id]
  by_cases text : lineIsEmptyOrWhitespace line = false
  · rw [first line text, toggledLine, if_neg (ne_true_of_eq_false (insertMarker_text ne leading)),
      if_pos ((scanRegion_allCommented marker).mpr full),
      stripMarker_insertMarker ne leading (scanRegion_minIndent marker mem text)]
  · rw [Bool.not_eq_false] at text
    rw [blank _ line text, blank _ line text]

end Region

/-! ### Documents -/

namespace LineRange

/-- A range of lines of a document. -/
def Within (range : LineRange) (lines : List Line) : Prop :=
  range.first ≤ range.last ∧ range.last < lines.length

def Holds (range : LineRange) (line : Nat) : Prop := range.first ≤ line ∧ line ≤ range.last

/-- Each range ends above the next. -/
def Disjoint (ranges : List LineRange) : Prop :=
  ranges.Pairwise fun upper lower => upper.last < lower.first

theorem getElem?_linesOf {range : LineRange} {lines : List Line} {offset : Nat}
    (inside : offset < range.lineCount) :
    (range.linesOf lines)[offset]? = lines[range.first + offset]? := by
  rw [linesOf, getElem?_take_of_lt inside, getElem?_drop]

end LineRange

theorem toggleRegion_eq (marker : List UInt8) (lines : List Line) (range : LineRange) :
    toggleRegion marker lines range =
      editSpan range.first range.lineCount (toggledRegion marker) lines := by
  unfold toggleRegion toggledRegion editSpan
  dsimp only
  split
  next none_ =>
    rw [LineRange.linesOf] at none_
    rw [spanOf, none_, Option.getD_none, append_assoc, ← drop_drop, take_append_drop,
      take_append_drop]
  next updated some_ =>
    rw [LineRange.linesOf] at some_
    rw [spanOf, some_, Option.getD_some, replaceLines]

/-- The toggles of disjoint regions: each of its own lines, the others stay. -/
theorem foldl_toggleRegion (marker : List UInt8) {ranges : List LineRange}
    (disjoint : LineRange.Disjoint ranges) (lines : List Line)
    (within : ∀ range ∈ ranges, range.Within lines) :
    (ranges.foldl (toggleRegion marker) lines).length = lines.length ∧
      (∀ line, (∀ range ∈ ranges, ¬range.Holds line) →
        (ranges.foldl (toggleRegion marker) lines)[line]? = lines[line]?) ∧
      ∀ range ∈ ranges, range.linesOf (ranges.foldl (toggleRegion marker) lines) =
        toggledRegion marker (range.linesOf lines) := by
  have spans : ranges.Pairwise fun upper lower => upper.first + upper.lineCount ≤ lower.first := by
    refine disjoint.imp_of_mem fun {upper lower} mem _ below => ?_
    have ordered := (within upper mem).1
    unfold LineRange.lineCount
    omega
  obtain ⟨length, outside, inside⟩ := @foldl_editSpan _ _ LineRange.first LineRange.lineCount
    (fun _ => toggledRegion marker) ranges (fun _ _ => length_toggledRegion marker) spans lines
    fun range mem => by
      obtain ⟨ordered, last⟩ := within range mem
      unfold LineRange.lineCount
      omega
  rw [show toggleRegion marker = fun lines range =>
    editSpan range.first range.lineCount (toggledRegion marker) lines from
      funext fun lines => funext fun range => toggleRegion_eq marker lines range]
  refine ⟨length, fun line apart => outside line fun range mem => ?_, inside⟩
  have ordered := (within range mem).1
  have free := apart range mem
  unfold LineRange.Holds at free
  unfold LineRange.lineCount
  omega

/-- **The line-comment toggle is an involution** on regions that are not fully commented. -/
theorem toggleLineComment_involutive (marker : List UInt8)
    (leading : ∀ byte ∈ marker.head?, isBlankByte byte = false) (lines : List Line)
    (ranges : List LineRange) (disjoint : LineRange.Disjoint ranges)
    (within : ∀ range ∈ ranges, range.Within lines)
    (open_ : ∀ range ∈ ranges, ¬FullyCommented marker (range.linesOf lines)) :
    toggleLineComment marker ranges (toggleLineComment marker ranges lines) = lines := by
  unfold toggleLineComment
  split
  · rfl
  next ne =>
    have ne : marker ≠ [] := fun empty => ne (empty ▸ rfl)
    obtain ⟨length, outside, inside⟩ := foldl_toggleRegion marker disjoint lines within
    obtain ⟨length', outside', inside'⟩ := foldl_toggleRegion marker disjoint
      (ranges.foldl (toggleRegion marker) lines) fun range mem =>
        ⟨(within range mem).1, (within range mem).2.trans_eq length.symm⟩
    refine ext_getElem? fun line => ?_
    by_cases held : ∃ range ∈ ranges, range.Holds line
    · obtain ⟨range, mem, holds⟩ := held
      have restored : range.linesOf (ranges.foldl (toggleRegion marker)
          (ranges.foldl (toggleRegion marker) lines)) = range.linesOf lines := by
        rw [inside' range mem, inside range mem, toggledRegion_twice ne leading (open_ range mem)]
      have offset : line - range.first < range.lineCount := by
        have := holds.1
        have := holds.2
        unfold LineRange.lineCount
        omega
      have at_ := congrArg (·[line - range.first]?) restored
      rwa [LineRange.getElem?_linesOf offset, LineRange.getElem?_linesOf offset,
        Nat.add_sub_cancel' holds.1] at at_
    · push Not at held
      rw [outside' line held, outside line held]

/-- An indented line, a blank one, a commented one that is indented less, and one below them. -/
def mixedLines : List Line :=
  [[0x20, 0x09, 0x61], [0x20], [0x20, 0x2f, 0x2f, 0x62], [0x63]]

theorem toggleLineComment_mixedLines :
    toggleLineComment [0x2f, 0x2f] [⟨0, 2⟩] (toggleLineComment [0x2f, 0x2f] [⟨0, 2⟩] mixedLines) =
      mixedLines := by
  refine toggleLineComment_involutive [0x2f, 0x2f] ?_ mixedLines [⟨0, 2⟩]
    (pairwise_singleton _ _) ?_ ?_
  · rintro byte ⟨⟩
    rfl
  · exact forall_mem_singleton.mpr ⟨by decide, by decide⟩
  · refine forall_mem_singleton.mpr fun full => ?_
    exact Bool.noConfusion (full [0x20, 0x09, 0x61] mem_cons_self rfl)

end Microide.Editor
