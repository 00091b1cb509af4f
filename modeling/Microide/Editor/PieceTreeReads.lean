/-
Reads of the piece tree.

The read paths of `editor/PieceTree`. A line is viewed in the piece the walk stands in, in
the one piece that has all of it, or as a copy that is kept until the next mutation; runs
of lines are extracted by one pruned walk into a sink, a vector of lines or a `LineBlob`.
Reads change the walk, the memo and the kept copies, so each returns the tree too.

For a tree that spells `lines` every read gives what the list gives, and leaves a tree that
spells `lines`.
-/

import Microide.Editor.LineBlob
import Microide.Editor.PieceTreeEdits

namespace Microide.Editor

open List Option Lib Text Treap

/-! ### Views -/

/-- `TryViewRange`: the bytes of a range that lies inside one piece. -/
def tryViewRange (b : Buffers) : Treap → Nat → Nat → Option (List UInt8)
  | .null, _, length => if length = 0 then some [] else none
  | .node left piece _ _ right, pos, length =>
    if length = 0 then some []
    else
      let leftLength := left.treeLength
      if pos < leftLength then tryViewRange b left pos length
      else if pos < u32 (leftLength + piece.length) then
        let within := pos - leftLength
        if u32 (within + length) ≤ piece.length then
          some (slice (b.bufferOf piece.buffer) (piece.start + within) (piece.start + within + length))
        else none
      else tryViewRange b right (pos - u32 (leftLength + piece.length)) length

/-- The shortcut of `LineView` and `LineWindow`: a range inside the piece the walk stands in. -/
def viewInWalk (b : Buffers) (walk : LineWalk) (start length : Nat) : Option (List UInt8) :=
  if start ≥ walk.base ∧ u32 (start + length) ≤ u32 (walk.base + walk.piece.length) then
    some (slice (b.bufferOf walk.piece.buffer) (walk.piece.start + (start - walk.base))
      (walk.piece.start + (start - walk.base) + length))
  else none

namespace PieceTree

/-- `CopyRange` from the root. -/
def copyBytes (t : PieceTree) (pos length : Nat) (out : List UInt8) : List UInt8 :=
  if length = 0 then out else out ++ copyRange t.toBuffers pos (u32 (pos + length)) t.root 0

/-- The first byte and the length of a line, as `LineView`, `LineWindow` and `LineLength` look
them up. -/
def lineExtent (t : PieceTree) (index : Nat) : (Nat × Nat) × LineCursor :=
  let (start, cursor) := lineStartByteMemoized t.toBuffers t.root index t.cursor
  let (last, cursor) := lineEndByte t index cursor
  ((start, last - start), cursor)

/-- `LineView`. -/
def lineView (t : PieceTree) (index : Nat) : Line × PieceTree :=
  let ((start, length), cursor) := lineExtent t index
  let shortcut := if length = 0 then none else
    cursor.walk.bind fun walk => viewInWalk t.toBuffers walk start length
  match shortcut.or (tryViewRange t.toBuffers t.root start length) with
  | some view => (view, { t with cursor })
  | none =>
    match cursor.views.lookup index with
    | some view => (view, { t with cursor })
    | none =>
      let view := copyBytes t start length []
      (view, { t with cursor := { cursor with views := (index, view) :: cursor.views } })

/-- `LineWindow`. -/
def lineWindow (t : PieceTree) (index byteStart byteLen : Nat) : Line × PieceTree :=
  let ((lineStart, lineLength), cursor) := lineExtent t index
  let t := { t with cursor }
  if byteStart ≥ lineLength then ([], t)
  else
    let start := u32 (lineStart + byteStart)
    let length := min byteLen (lineLength - byteStart)
    if length = 0 then ([], t)
    else
      let shortcut := cursor.walk.bind fun walk => viewInWalk t.toBuffers walk start length
      match shortcut.or (tryViewRange t.toBuffers t.root start length) with
      | some view => (view, t)
      | none => (copyBytes t start length [], t)

/-- `LineLength`. -/
def lineLength (t : PieceTree) (index : Nat) : Nat × PieceTree :=
  let ((_, length), cursor) := lineExtent t index
  (length, { t with cursor })

/-- `AppendTextRange`. -/
def appendTextRange (t : PieceTree) (startLine startColumn endLine endColumn : Nat)
    (out : List UInt8) : List UInt8 × PieceTree :=
  let ((start, last), cursor) := resolveByteSpan t startLine startColumn endLine endColumn
  (copyBytes t start (last - start) out, { t with cursor })

/-- `AppendWholeText`. -/
def appendWholeText (t : PieceTree) (out : List UInt8) : List UInt8 :=
  if t.root.treeLength = 0 then out else copyBytes t 0 t.root.treeLength out

end PieceTree

/-! ### Extraction -/

/-- What the extraction needs of the container it fills. A blob also asks for the extent of
its bytes, which looks up one more line start. -/
class LineSink (σ : Type) where
  size : σ → Nat
  emplaceBack : σ → Line → σ
  reservesBytes : Bool

instance : LineSink (List Line) where
  size := List.length
  emplaceBack out line := out ++ [line]
  reservesBytes := false

instance : LineSink LineBlob where
  size := LineBlob.size
  emplaceBack := LineBlob.pushBack
  reservesBytes := true

/-- The locals of `ExtractLineRangeInto` its walk changes. -/
structure Extraction (σ : Type) where
  out : σ
  current : List UInt8 := []
  done : Bool := false

section Extract

variable {σ : Type} [LineSink σ]

/-- One byte of the scan for newlines: a newline ends the current line, and the scan is over
when the sink has `target` lines. -/
def Extraction.step (target : Nat) (st : Extraction σ) (c : UInt8) : Extraction σ :=
  if st.done then st
  else if c = lf then
    let out := LineSink.emplaceBack st.out st.current
    { out, done := LineSink.size out = target }
  else { st with current := st.current ++ [c] }

/-- The bytes of a piece, split at newlines into the sink; what is left over starts the next
line. -/
def Extraction.feed (target : Nat) (st : Extraction σ) (bytes : List UInt8) : Extraction σ :=
  bytes.foldl (Extraction.step target) st

/-- The walk of `ExtractLineRangeInto` below a node whose bytes start at `base`. -/
def extractWalk (b : Buffers) (start target : Nat) : Treap → Nat → Extraction σ → Extraction σ
  | .null, _, st => st
  | .node left piece subtreeLength _ right, base, st =>
    if st.done then st
    else if u32 (base + subtreeLength) ≤ start then st
    else
      let pieceStart := u32 (base + left.treeLength)
      let pieceEnd := u32 (pieceStart + piece.length)
      let st := extractWalk b start target left base st
      let first := max start pieceStart
      let st :=
        if first < pieceEnd then
          st.feed target (slice (b.bufferOf piece.buffer) (piece.start + (first - pieceStart))
            (piece.start + (first - pieceStart) + (pieceEnd - first)))
        else st
      extractWalk b start target right pieceEnd st

namespace PieceTree

/-- `ExtractLineRangeInto`. -/
def extractLineRange (t : PieceTree) (first last : Nat) (out : σ) : σ × PieceTree :=
  let target := LineSink.size out + (last - first)
  let (start, cursor) := lineStartByte t.toBuffers t.root first t.cursor
  let cursor :=
    if LineSink.reservesBytes σ ∧ last < t.lineCount then
      (lineStartByte t.toBuffers t.root last cursor).2
    else cursor
  let st := extractWalk t.toBuffers start target t.root 0 { out }
  let out :=
    if st.done = false ∧ LineSink.size st.out < target then LineSink.emplaceBack st.out st.current
    else st.out
  (out, { t with cursor })

/-- `AppendLines`, into a vector or a blob. -/
def appendLines (t : PieceTree) (first last : Nat) (out : σ) : σ × PieceTree :=
  if first ≥ last ∨ first ≥ t.lineCount then (out, t)
  else extractLineRange t first (min last t.lineCount) out

end PieceTree

end Extract

namespace PieceTree

/-- `SliceLines`. -/
def sliceLines (t : PieceTree) (first last : Nat) : List Line × PieceTree :=
  appendLines t first last []

/-- `ToVector`. -/
def toVector (t : PieceTree) : List Line × PieceTree :=
  if t.lineCount = 0 then ([], t) else extractLineRange t 0 t.lineCount []

/-! ### What views show -/

section Views

variable {b : Buffers}

theorem slice_behind {before after : List UInt8} {start : Nat} (hstart : before.length ≤ start)
    (length : Nat) :
    slice (before ++ after) start (start + length) =
      slice after (start - before.length) (start - before.length + length) := by
  rw [slice_of_append, slice_eq_nil_iff.mpr (by omega), nil_append]
  congr 1
  omega

/-- A range inside one piece of a text is a range of the piece. -/
theorem slice_piece {before piece after : List UInt8} {start length : Nat}
    (hstart : before.length ≤ start) (hend : start + length ≤ before.length + piece.length) :
    slice (before ++ piece ++ after) start (start + length) =
      slice piece (start - before.length) (start - before.length + length) := by
  rw [slice_append_of_le _ _ (by rw [length_append]; exact hend), slice_behind hstart]

theorem slice_buffer {piece : Piece} {within length : Nat} (h : within + length ≤ piece.length) :
    slice (b.bufferOf piece.buffer) (piece.start + within) (piece.start + within + length) =
      slice (piece.text b) within (within + length) := by
  rw [Piece.text, slice_slice]
  congr 1
  omega

/-- **TryViewRange** shows the range, if it shows anything. -/
theorem tryViewRange_eq {t : Treap} (ht : t.Valid b) (hsize : (t.text b).length < 2 ^ 32)
    {pos length : Nat} (hfits : pos + length < 2 ^ 32) (hpos : 0 < length) {view : List UInt8}
    (h : tryViewRange b t pos length = some view) :
    pos + length ≤ (t.text b).length ∧ view = slice (t.text b) pos (pos + length) := by
  induction t generalizing pos with
  | null => simp [tryViewRange, Nat.ne_of_gt hpos] at h
  | node left piece subtreeLength subtreeNewlines right ihl ihr =>
      obtain ⟨hleft, hpiece, hright, -, -⟩ := ht
      have hlength := hpiece.length_text
      simp only [text, length_append] at hsize ⊢
      rw [tryViewRange, if_neg (Nat.ne_of_gt hpos)] at h
      simp only [treeLength_eq hleft, u32_of_lt
        (show (left.text b).length + piece.length < 2 ^ 32 by omega)] at h
      split at h
      · obtain ⟨hin, rfl⟩ := ihl hleft (by omega) hfits h
        refine ⟨by omega, ?_⟩
        rw [append_assoc, slice_append_of_le _ _ hin]
      · next hfrom =>
        split at h
        · split at h
          · next hin =>
            rw [u32_of_lt (by omega)] at hin
            obtain rfl := Option.some.inj h
            refine ⟨by omega, ?_⟩
            rw [slice_buffer hin, slice_piece (by omega) (by omega)]
          · exact absurd h (by simp)
        · obtain ⟨hin, rfl⟩ := ihr hright (by omega) (by omega) h
          refine ⟨by omega, ?_⟩
          have hbehind : (left.text b ++ piece.text b).length ≤ pos := by
            rw [length_append]
            omega
          rw [slice_behind hbehind, length_append, hlength]

/-- The shortcut through the walk shows the range, if it shows anything. -/
theorem viewInWalk_eq {text : List UInt8} {walk : LineWalk} {target : Nat}
    (hwalk : walk.Locates b text 0 target) {start length : Nat} (hsize : text.length < 2 ^ 32)
    (hin : start + length ≤ text.length) {view : List UInt8}
    (h : viewInWalk b walk start length = some view) : view = slice text start (start + length) := by
  obtain ⟨before, after, rfl, hbase, -⟩ := hwalk.place
  have hlength := hwalk.piece.length_text
  simp only [length_append] at hsize hin
  unfold viewInWalk at h
  split at h
  · next hinside =>
    rw [u32_of_lt (by omega), u32_of_lt (by omega)] at hinside
    obtain rfl := Option.some.inj h
    rw [slice_buffer (by omega), slice_piece (by omega) (by omega), hbase, Nat.zero_add]
  · exact absurd h (by simp)

end Views

/-! ### Reads of a document -/

variable {t : PieceTree} {lines : List Line}

/-- A tree whose read caches have changed validly. -/
theorem Spells.withCursor (h : t.Spells lines) {cursor : LineCursor}
    (hcursor : cursor.Valid t.toBuffers (joinText lines)) : { t with cursor }.Spells lines :=
  ⟨⟨h.buffers, h.root, h.fits, h.text⟩, h.lineCount, h.free, hcursor, h.ceiling⟩

/-- Copying a range of the document. -/
theorem copyBytes_eq (h : t.Spells lines) {pos length : Nat}
    (hin : pos + length ≤ (joinText lines).length) (out : List UInt8) :
    copyBytes t pos length out = out ++ slice (joinText lines) pos (pos + length) := by
  have hfits := h.fits
  unfold copyBytes
  split
  · next hzero => simp [hzero]
  · rw [u32_of_lt (by omega), copyRange_eq _ _ h.root (by rw [h.text, Nat.zero_add]; exact hfits),
      h.text, Nat.sub_zero, Nat.sub_zero]

/-- Where a line lies. -/
theorem lineExtent_spec (h : t.Spells lines) {index : Nat} (hindex : index < lines.length) :
    ∃ cursor, lineExtent t index = ((lineOffset lf lines index, lines[index].length), cursor) ∧
      cursor.Valid t.toBuffers (joinText lines) := by
  obtain ⟨hstart, hcursor⟩ := h.lineStartByteMemoized hindex h.cursor
  obtain ⟨hend, hcursor⟩ := h.lineEndByte hindex hcursor
  refine ⟨_, ?_, hcursor⟩
  unfold lineExtent
  dsimp only
  rw [hstart, hend, Nat.add_sub_cancel_left]

/-- The bytes of a line, from `first` on, `length` of them. -/
theorem slice_joinText {index : Nat} (hindex : index < lines.length) {first length : Nat}
    (hin : first + length ≤ lines[index].length) :
    slice (joinText lines) (lineOffset lf lines index + first)
        (lineOffset lf lines index + first + length) =
      slice lines[index] first (first + length) := by
  have haround := join_around lf hindex
  rw [← joinText] at haround
  have hoffset : (terminated lf (lines.take index)).length = lineOffset lf lines index := rfl
  rw [haround, slice_piece (by omega) (by omega), hoffset, Nat.add_sub_cancel_left]

theorem lineOffset_add_le {index : Nat} (hindex : index < lines.length) :
    lineOffset lf lines index + lines[index].length ≤ (joinText lines).length := by
  rw [joinText, length_join lf hindex]
  omega

/-- What either view shows is the range. -/
theorem shown_eq (h : t.Spells lines) {cursor : LineCursor}
    (hcursor : cursor.Valid t.toBuffers (joinText lines)) {start length : Nat} (hpos : 0 < length)
    (hin : start + length ≤ (joinText lines).length) {view : List UInt8}
    (hshown : (cursor.walk.bind fun walk => viewInWalk t.toBuffers walk start length).or
      (tryViewRange t.toBuffers t.root start length) = some view) :
    view = slice (joinText lines) start (start + length) := by
  have hfits := h.fits
  rcases or_eq_some_iff.mp hshown with hwalk | ⟨-, htree⟩
  · obtain ⟨walk, hsome, hview⟩ := bind_eq_some_iff.mp hwalk
    obtain ⟨target, -, hlocates⟩ := hcursor.walk walk hsome
    exact viewInWalk_eq hlocates hfits hin hview
  · have hshows := tryViewRange_eq h.root (by rw [h.text]; exact hfits) (by omega) hpos htree
    rw [h.text] at hshows
    exact hshows.2

theorem mem_of_lookup {views : List (Nat × List UInt8)} {index : Nat} {view : List UInt8}
    (h : views.lookup index = some view) : (index, view) ∈ views := by
  obtain ⟨before, after, rfl, -⟩ := lookup_eq_some_iff.mp h
  simp

section

variable (h : t.Spells lines)

include h

/-- **LineView** shows the line, in place or as a copy made now or before. -/
theorem lineView_spec {index : Nat} (hindex : index < lines.length) :
    (lineView t index).1 = lines[index] ∧ (lineView t index).2.Spells lines := by
  obtain ⟨cursor, hextent, hcursor⟩ := lineExtent_spec h hindex
  have hin := lineOffset_add_le hindex
  have hline := @slice_joinText _ index hindex 0 lines[index].length (by omega)
  rw [Nat.add_zero, Nat.zero_add, slice_whole] at hline
  have hsplit : (joinText lines).splitOn lf = lines :=
    joinText_ne_nil_splitOn (ne_nil_of_length_pos (by omega)) h.free
  unfold lineView
  rw [hextent]
  dsimp only
  split
  · next view hshown =>
    refine ⟨?_, h.withCursor hcursor⟩
    by_cases hzero : lines[index].length = 0
    · rw [if_pos hzero, none_or, hzero] at hshown
      have hempty : view = [] := by
        cases hroot : t.root with
        | null => simpa [hroot, tryViewRange, eq_comm] using hshown
        | node => simpa [hroot, tryViewRange, eq_comm] using hshown
      rw [hempty, eq_comm, eq_nil_iff_length_eq_zero, hzero]
    · rw [if_neg hzero] at hshown
      rw [shown_eq h hcursor (Nat.pos_of_ne_zero hzero) hin hshown, hline]
  · split
    · next view hkept =>
      have hmem := hcursor.views index view (mem_of_lookup hkept)
      rw [hsplit, getElem?_eq_getElem hindex] at hmem
      exact ⟨(Option.some.inj hmem).symm, h.withCursor hcursor⟩
    · rw [copyBytes_eq h hin, hline, nil_append]
      refine ⟨rfl, h.withCursor ⟨⟨hcursor.walk, hcursor.memo⟩, ?_⟩⟩
      intro index' view hview
      rcases mem_cons.mp hview with heq | hold
      · obtain ⟨rfl, rfl⟩ := Prod.mk.inj heq
        rw [hsplit, getElem?_eq_getElem hindex]
      · exact hcursor.views index' view hold

/-- **LineWindow** shows the part of the line. -/
theorem lineWindow_spec {index : Nat} (hindex : index < lines.length) (byteStart byteLen : Nat) :
    (lineWindow t index byteStart byteLen).1 = (lines[index].drop byteStart).take byteLen ∧
      (lineWindow t index byteStart byteLen).2.Spells lines := by
  obtain ⟨cursor, hextent, hcursor⟩ := lineExtent_spec h hindex
  have hin := lineOffset_add_le hindex
  have hfits := h.fits
  unfold lineWindow
  rw [hextent]
  dsimp only
  have hspells := h.withCursor hcursor
  split
  · next hpast => exact ⟨by rw [drop_of_length_le hpast, take_nil], hspells⟩
  · next hwithin =>
    rw [u32_of_lt (by omega)]
    split
    · next hzero =>
      refine ⟨?_, hspells⟩
      rw [eq_comm, eq_nil_iff_length_eq_zero, length_take, length_drop, hzero]
    · next hpos =>
      have hpart : slice lines[index] byteStart
          (byteStart + min byteLen (lines[index].length - byteStart)) =
          (lines[index].drop byteStart).take byteLen := by
        rw [slice, drop_take, Nat.add_sub_cancel_left, take_eq_take_iff, length_drop]
        omega
      rw [← hpart, ← slice_joinText hindex (by omega)]
      split
      · next view hshown =>
        exact ⟨shown_eq h hcursor (Nat.pos_of_ne_zero hpos) (by omega) hshown, hspells⟩
      · exact ⟨copyBytes_eq hspells (by omega) [], hspells⟩

/-- **LineLength** is the length of the line. -/
theorem lineLength_spec {index : Nat} (hindex : index < lines.length) :
    (lineLength t index).1 = lines[index].length ∧ (lineLength t index).2.Spells lines := by
  obtain ⟨cursor, hextent, hcursor⟩ := lineExtent_spec h hindex
  unfold lineLength
  rw [hextent]
  exact ⟨rfl, h.withCursor hcursor⟩

/-- **AppendWholeText** appends the join. -/
theorem appendWholeText_eq (out : List UInt8) : appendWholeText t out = out ++ joinText lines := by
  have hsize := h.byteSize
  rw [byteSize] at hsize
  unfold appendWholeText
  rw [hsize]
  split
  · next hzero => rw [eq_nil_iff_length_eq_zero.mpr hzero, append_nil]
  · rw [copyBytes_eq h (by omega), Nat.zero_add, slice_whole]

end

end PieceTree

/-- The naive list of lines: the text from a column of one line to a column of a line below or
the same, clamped as `replaceText` clamps. -/
def textRange (lines : List Line) (startLine startColumn endLine endColumn : Nat) : List UInt8 :=
  if lines.isEmpty then []
  else
    let startLine := min startLine (lines.length - 1)
    let endLine := max startLine (min endLine (lines.length - 1))
    let startColumn := min startColumn (lines.getD startLine []).length
    let endColumn := min endColumn (lines.getD endLine []).length
    if startLine = endLine then slice (lines.getD startLine []) startColumn endColumn
    else
      joinText ((lines.getD startLine []).drop startColumn :: slice lines (startLine + 1) endLine ++
        [(lines.getD endLine []).take endColumn])

/-- The bytes between two columns of different lines. -/
theorem slice_joinText_lines {lines : List Line} {startLine endLine startColumn endColumn : Nat}
    (hlt : startLine < endLine) (hend : endLine < lines.length)
    (hstartColumn : startColumn ≤ lines[startLine].length)
    (hendColumn : endColumn ≤ lines[endLine].length) :
    slice (joinText lines) (lineOffset lf lines startLine + startColumn)
        (lineOffset lf lines endLine + endColumn) =
      joinText (lines[startLine].drop startColumn :: slice lines (startLine + 1) endLine ++
        [lines[endLine].take endColumn]) := by
  have hblock : lines.take endLine =
      lines.take startLine ++ lines[startLine] :: slice lines (startLine + 1) endLine := by
    have hslice := slice_append lines (Nat.zero_le startLine) (Nat.le_of_lt hlt)
    rw [slice_zero, slice_zero] at hslice
    rw [← hslice, slice_eq_cons lines hlt (getElem?_eq_getElem (by omega))]
  have hcut := join_cut lf (lines[startLine].drop startColumn :: slice lines (startLine + 1) endLine) []
    (cons_ne_nil (lines[endLine].take endColumn) [])
  rw [append_nil] at hcut
  rw [joinText, joinText, hcut, slice, take_column lf hend hendColumn, hblock, lineOffset]
  simp only [terminated, preceded, flatMap_append, flatMap_cons, append_assoc,
    flatMap_nil, append_nil, intercalate_singleton]
  rw [drop_length_add_append, drop_append_of_le_length hstartColumn]

namespace PieceTree

variable {t : PieceTree} {lines : List Line}

theorem resolveByteSpan_clamped (t : PieceTree) (startLine startColumn endLine endColumn : Nat) :
    resolveByteSpan t startLine startColumn endLine endColumn =
      resolveByteSpan t (min startLine (t.lineCount - 1)) startColumn
        (max (min startLine (t.lineCount - 1)) (min endLine (t.lineCount - 1))) endColumn := by
  unfold resolveByteSpan
  split
  · rfl
  · have hstart : min (min startLine (t.lineCount - 1)) (t.lineCount - 1) =
        min startLine (t.lineCount - 1) := by omega
    have hend : max (min startLine (t.lineCount - 1)) (min (max (min startLine (t.lineCount - 1))
        (min endLine (t.lineCount - 1))) (t.lineCount - 1)) =
        max (min startLine (t.lineCount - 1)) (min endLine (t.lineCount - 1)) := by omega
    dsimp only
    rw [hstart, hend]

/-- **AppendTextRange** appends the clamped range. -/
theorem appendTextRange_spec (h : t.Spells lines) (startLine startColumn endLine endColumn : Nat)
    (out : List UInt8) :
    (appendTextRange t startLine startColumn endLine endColumn out).1 =
        out ++ textRange lines startLine startColumn endLine endColumn ∧
      (appendTextRange t startLine startColumn endLine endColumn out).2.Spells lines := by
  have hn := h.lineCount
  by_cases hempty : lines = []
  · have hzero : t.lineCount = 0 := by rw [hn, hempty, length_nil]
    have hresolved : resolveByteSpan t startLine startColumn endLine endColumn = ((0, 0), t.cursor) := by
      rw [resolveByteSpan, if_pos hzero]
    unfold appendTextRange
    rw [hresolved]
    exact ⟨by simp [copyBytes, textRange, hempty], h.withCursor h.cursor⟩
  · have hpos := length_pos_of_ne_nil hempty
    obtain ⟨first, hfirst⟩ : ∃ first, first = min startLine (t.lineCount - 1) := ⟨_, rfl⟩
    obtain ⟨last, hlast⟩ : ∃ last, last = max first (min endLine (t.lineCount - 1)) := ⟨_, rfl⟩
    have hfirst_lt : first < lines.length := by omega
    have hlast_lt : last < lines.length := by omega
    obtain ⟨hspan, hcursor⟩ := resolveByteSpan_spec h (show first ≤ last by omega) hlast_lt
      startColumn endColumn
    have hfirstGet : lines.getD first [] = lines[first] := (getElem_eq_getD []).symm
    have hlastGet : lines.getD last [] = lines[last] := (getElem_eq_getD []).symm
    have hlastIn := lineOffset_add_le hlast_lt
    unfold appendTextRange textRange
    rw [resolveByteSpan_clamped, ← hfirst, ← hlast, if_neg (by simpa using hempty), ← hn]
    dsimp only
    rw [← hfirst, ← hlast, hfirstGet, hlastGet]
    rcases hresolved : resolveByteSpan t first startColumn last endColumn with ⟨⟨start, stop⟩, cursor⟩
    rw [hresolved] at hspan hcursor
    obtain ⟨rfl, rfl⟩ := Prod.mk.inj hspan
    refine ⟨?_, h.withCursor hcursor⟩
    have hfirstColumn : min startColumn lines[first].length ≤ lines[first].length := by omega
    have hlastColumn : min endColumn lines[last].length ≤ lines[last].length := by omega
    generalize min startColumn lines[first].length = firstColumn at *
    generalize min endColumn lines[last].length = lastColumn at *
    split
    · next heq =>
      subst heq
      rw [Nat.add_sub_add_left, copyBytes_eq h (by omega), slice_joinText hfirst_lt (by omega)]
      by_cases hback : lastColumn ≤ firstColumn
      · rw [slice_eq_nil_of_le _ hback, slice_eq_nil_of_le _ (by omega)]
      · rw [Nat.max_eq_right (by omega), Nat.add_sub_cancel' (by omega)]
    · next hne =>
      have hordered : lineOffset lf lines first + firstColumn ≤ lineOffset lf lines last + lastColumn := by
        have hstep := lineOffset_succ lf hfirst_lt
        have hbelow := @lineOffset_mono _ lf lines (first + 1) last (by omega)
        omega
      rw [copyBytes_eq h (by omega), Nat.add_sub_cancel' hordered,
        slice_joinText_lines (by omega) hlast_lt hfirstColumn hlastColumn]

end PieceTree

/-! ### What extraction extracts -/

section Extract

variable {σ : Type} [LineSink σ]

theorem Extraction.feed_append (target : Nat) (st : Extraction σ) (bytes more : List UInt8) :
    st.feed target (bytes ++ more) = (st.feed target bytes).feed target more := by
  rw [feed, feed, feed, foldl_append]

/-- A scan that is over stays as it is. -/
theorem Extraction.feed_done (target : Nat) {st : Extraction σ} (h : st.done = true)
    (bytes : List UInt8) : st.feed target bytes = st := by
  induction bytes with
  | nil => rfl
  | cons c bytes ih =>
      rw [feed] at ih ⊢
      rw [foldl_cons, step, if_pos h, ih]

/-- Bytes without a newline go to the current line. -/
theorem Extraction.feed_free (target : Nat) (out : σ) (current : List UInt8) {bytes : List UInt8}
    (h : lf ∉ bytes) :
    Extraction.feed target { out, current } bytes = { out, current := current ++ bytes } := by
  induction bytes generalizing current with
  | nil => simp [feed]
  | cons c bytes ih =>
      rw [mem_cons, not_or] at h
      obtain ⟨hc, hrest⟩ := h
      have hstep : Extraction.step target { out, current } c = { out, current := current ++ [c] } := by
        rw [step, if_neg (by simp), if_neg (fun heq => hc heq.symm)]
      have hnext := ih (current ++ [c]) hrest
      rw [feed] at hnext ⊢
      rw [foldl_cons, hstep, hnext, append_assoc, singleton_append]

/-- **The walk** feeds the text from `start` on, piece by piece. -/
theorem extractWalk_eq {b : Buffers} (start target : Nat) {t : Treap} (ht : t.Valid b) (base : Nat)
    (hsize : base + (t.text b).length < 2 ^ 32) (st : Extraction σ) :
    extractWalk b start target t base st = st.feed target ((t.text b).drop (start - base)) := by
  induction t generalizing base st with
  | null => simp [extractWalk, text, Extraction.feed]
  | node left piece subtreeLength subtreeNewlines right ihl ihr =>
      obtain ⟨hleft, hpiece, hright, hlength, -⟩ := ht
      have hpieceLength := hpiece.length_text
      simp only [text, length_append] at hsize hlength
      rw [extractWalk, treeLength_eq hleft, text]
      split
      · next hdone => rw [Extraction.feed_done target hdone]
      · rw [hlength, u32_of_lt (by omega)]
        split
        · rw [drop_of_length_le (by simp only [length_append]; omega)]
          rfl
        · dsimp only
          rw [u32_of_lt (show base + (left.text b).length < 2 ^ 32 by omega),
            u32_of_lt (show base + (left.text b).length + piece.length < 2 ^ 32 by omega),
            ihl hleft base (by omega), ihr hright _ (by omega), drop_append, drop_append,
            Extraction.feed_append, Extraction.feed_append, length_append]
          have hown (st : Extraction σ) :
              (if max start (base + (left.text b).length) < base + (left.text b).length + piece.length then
                st.feed target (slice (b.bufferOf piece.buffer)
                  (piece.start + (max start (base + (left.text b).length) -
                    (base + (left.text b).length)))
                  (piece.start + (max start (base + (left.text b).length) -
                    (base + (left.text b).length)) + (base + (left.text b).length + piece.length -
                      max start (base + (left.text b).length))))
              else st) = st.feed target ((piece.text b).drop (start - base - (left.text b).length)) := by
            split
            · rw [PieceTree.slice_buffer (by omega), slice_to_end _ _ (by omega)]
              congr 2
              omega
            · rw [drop_of_length_le (by omega)]
              rfl
          rw [hown]
          congr 2
          omega

/-- What `ExtractLineRangeInto` returns when its walk has drained: the last line of the
document has no newline to end it. -/
def Extraction.finish (target : Nat) (st : Extraction σ) : σ :=
  if st.done = false ∧ LineSink.size st.out < target then LineSink.emplaceBack st.out st.current
  else st.out

/-- A container that counts the lines it is given. -/
def Counts (out : σ) : Prop :=
  ∀ lines : List Line, LineSink.size (lines.foldl LineSink.emplaceBack out) =
    LineSink.size out + lines.length

/-- **The scan** of joined lines stores the first `count` of them. -/
theorem finish_feed_join {lines : List Line} (hfree : ∀ line ∈ lines, lf ∉ line) {count : Nat}
    (hpos : 0 < count) (hle : count ≤ lines.length) {out : σ} (hout : Counts out) :
    let target := LineSink.size out + count
    (Extraction.feed target { out } (joinText lines)).finish target =
      (lines.take count).foldl LineSink.emplaceBack out := by
  induction lines generalizing count out with
  | nil => simp at hle; omega
  | cons line lines ih =>
      intro target
      obtain ⟨hline, hrest⟩ := forall_mem_cons.mp hfree
      obtain ⟨count, rfl⟩ := Nat.exists_eq_succ_of_ne_zero (Nat.ne_of_gt hpos)
      cases lines with
      | nil =>
          obtain rfl : count = 0 := by simpa using hle
          have hjoin : joinText [line] = line := by simp [joinText]
          rw [hjoin, Extraction.feed_free target out [] hline, Extraction.finish, if_pos]
          · simp
          · exact ⟨rfl, Nat.lt_succ_self _⟩
      | cons next lines =>
          have hjoin : joinText (line :: next :: lines) = line ++ lf :: joinText (next :: lines) := by
            simp [joinText]
          have hone := hout [line]
          have hstep : Extraction.step target { out, current := [] ++ line } lf =
              ⟨LineSink.emplaceBack out line, [],
                decide (LineSink.size (LineSink.emplaceBack out line) = target)⟩ := by
            rw [Extraction.step, if_neg (by simp), if_pos rfl, nil_append]
          have hfeed : Extraction.feed target { out } (joinText (line :: next :: lines)) =
              Extraction.feed target ⟨LineSink.emplaceBack out line, [],
                decide (LineSink.size (LineSink.emplaceBack out line) = target)⟩
                (joinText (next :: lines)) := by
            rw [hjoin, Extraction.feed_append, Extraction.feed_free target out [] hline,
              Extraction.feed, foldl_cons, hstep]
            rfl
          have hnext : Counts (LineSink.emplaceBack out line) := by
            intro more
            have hmore := hout (line :: more)
            simp only [foldl_cons, foldl_nil, length_cons, length_nil] at hmore hone
            omega
          simp only [foldl_cons, foldl_nil, length_cons, length_nil] at hone
          rw [hfeed]
          by_cases hlast : count = 0
          · subst hlast
            have hdone : decide (LineSink.size (LineSink.emplaceBack out line) = target) = true := by
              simpa using hone
            rw [hdone, Extraction.feed_done target rfl, Extraction.finish, if_neg (by simp)]
            simp
          · have hdone : decide (LineSink.size (LineSink.emplaceBack out line) = target) = false := by
              simp
              omega
            have htarget : target = LineSink.size (LineSink.emplaceBack out line) + count := by
              omega
            rw [hdone, htarget, take_succ_cons, foldl_cons]
            exact ih hrest (Nat.pos_of_ne_zero hlast) (by simpa using hle) hnext

namespace PieceTree

variable {t : PieceTree} {lines : List Line}

/-- **ExtractLineRangeInto** appends the lines, one by one. -/
theorem extractLineRange_spec (h : t.Spells lines) {first last : Nat} (hlt : first < last)
    (hle : last ≤ lines.length) {out : σ} (hout : Counts out) :
    (extractLineRange t first last out).1 =
        (slice lines first last).foldl LineSink.emplaceBack out ∧
      (extractLineRange t first last out).2.Spells lines := by
  have hn := h.lineCount
  obtain ⟨hstart, hcursor⟩ := h.lineStartByte (show first < lines.length by omega) h.cursor
  have hwalk := extractWalk_eq (lineOffset lf lines first) (LineSink.size out + (last - first)) h.root
    0 (by rw [h.text, Nat.zero_add]; exact h.fits) ({ out } : Extraction σ)
  rw [h.text, Nat.sub_zero, joinText, drop_lineOffset lf (by omega), ← joinText] at hwalk
  have hlines := finish_feed_join
    (fun line hline => h.free line (mem_of_mem_drop hline) : ∀ line ∈ lines.drop first, lf ∉ line)
    (show 0 < last - first by omega) (by rw [length_drop]; omega) hout
  have hslice : (lines.drop first).take (last - first) = slice lines first last := by
    rw [slice, drop_take]
  dsimp only at hlines
  rw [hslice, ← hwalk, Extraction.finish] at hlines
  unfold extractLineRange
  dsimp only
  rw [hstart]
  refine ⟨hlines, ?_⟩
  split
  · next hreserve =>
    exact h.withCursor (h.lineStartByte (show last < lines.length by omega) hcursor).2
  · exact h.withCursor hcursor

/-- **AppendLines** appends what there is of the lines asked for. -/
theorem appendLines_spec (h : t.Spells lines) (first last : Nat) {out : σ} (hout : Counts out) :
    (appendLines t first last out).1 = (slice lines first last).foldl LineSink.emplaceBack out ∧
      (appendLines t first last out).2.Spells lines := by
  have hn := h.lineCount
  unfold appendLines
  split
  · next hnone =>
    have hempty : slice lines first last = [] := slice_eq_nil_iff.mpr (by omega)
    exact ⟨by rw [hempty]; rfl, h⟩
  · next hsome =>
    have hclamp : slice lines first last = slice lines first (min last t.lineCount) := by
      rw [slice, slice, hn, ← take_take, take_length]
    rw [hclamp]
    exact extractLineRange_spec h (by omega) (by omega) hout

end PieceTree

end Extract

theorem counts_list (out : List Line) : Counts out := by
  intro lines
  induction lines generalizing out with
  | nil => rfl
  | cons line lines ih =>
      have hnext := ih (out ++ [line])
      simp only [foldl_cons, LineSink.size, LineSink.emplaceBack, length_append,
        length_cons, length_nil] at hnext ⊢
      omega

theorem foldl_emplaceBack_list (out lines : List Line) :
    lines.foldl LineSink.emplaceBack out = out ++ lines := by
  induction lines generalizing out with
  | nil => simp
  | cons line lines ih =>
      rw [foldl_cons, ih]
      simp [LineSink.emplaceBack]

theorem counts_blob {blob : LineBlob} (h : blob.firstLine ≤ blob.starts.length) : Counts blob := by
  intro lines
  induction lines generalizing blob with
  | nil => rfl
  | cons line lines ih =>
      have hnext := @ih (blob.pushBack line) (by
        simp only [LineBlob.pushBack, length_append]
        omega)
      simp only [foldl_cons, LineSink.size, LineSink.emplaceBack, LineBlob.size, LineBlob.pushBack,
        length_append, length_cons, length_nil] at hnext ⊢
      omega

/-- A blob with room takes the lines. -/
theorem LineBlob.Spells.foldl_emplaceBack {blob : LineBlob} {held : List Line} (h : blob.Spells held)
    (lines : List Line) (hroom : blob.data.length + lines.flatten.length < 2 ^ 32) :
    (lines.foldl LineSink.emplaceBack blob).Spells (held ++ lines) := by
  induction lines generalizing blob held with
  | nil => simpa using h
  | cons line lines ih =>
      simp only [flatten_cons, length_append] at hroom
      have hnext := ih (h.pushBack line (by omega)) (by
        simp only [LineBlob.pushBack, length_append]
        omega)
      rwa [append_assoc, singleton_append] at hnext

namespace PieceTree

variable {t : PieceTree} {lines : List Line}

/-- **SliceLines** is a slice of the lines. -/
theorem sliceLines_spec (h : t.Spells lines) (first last : Nat) :
    (sliceLines t first last).1 = slice lines first last ∧ (sliceLines t first last).2.Spells lines := by
  obtain ⟨hlines, hspells⟩ := appendLines_spec h first last (counts_list [])
  rw [foldl_emplaceBack_list, nil_append] at hlines
  exact ⟨hlines, hspells⟩

/-- **ToVector** is the lines. -/
theorem toVector_spec (h : t.Spells lines) :
    (toVector t).1 = lines ∧ (toVector t).2.Spells lines := by
  have hn := h.lineCount
  unfold toVector
  split
  · next hzero =>
    rw [hn, ← eq_nil_iff_length_eq_zero] at hzero
    exact ⟨hzero.symm, h⟩
  · obtain ⟨hlines, hspells⟩ := extractLineRange_spec h (show 0 < t.lineCount by omega)
      (by omega) (counts_list [])
    rw [foldl_emplaceBack_list, nil_append, hn, slice_whole, ← hn] at hlines
    exact ⟨hlines, hspells⟩

end PieceTree

end Microide.Editor
