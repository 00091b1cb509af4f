/-
Edits of the piece tree.

What each mutation does to the text. A tree *holds* a text when its buffers and its treap
are valid and the pieces spell the text; it *spells* a list of lines when it holds their
join, counts them, and its read caches are valid. Every mutation ends in one byte splice,
so it is enough to say once what the splice does and to find, for each mutation, the bytes
it replaces.
-/

import Microide.Editor.LineStarts

namespace Microide.Editor

open List Lib Text Treap

namespace PieceTree

/-! ### Texts -/

/-- The buffers and the treap are valid and spell `text`. -/
structure Holds (t : PieceTree) (text : List UInt8) : Prop where
  buffers : t.toBuffers.Valid
  root : t.root.Valid t.toBuffers
  fits : text.length < 2 ^ 32
  text : t.root.text t.toBuffers = text

variable {t : PieceTree} {text : List UInt8}

theorem Holds.byteSize (h : t.Holds text) : t.byteSize = text.length := by
  rw [PieceTree.byteSize, treeLength_eq h.root, h.text]

/-- A fresh original buffer is one piece, or none. -/
theorem rebuildFromOriginal_holds (hsize : t.original.length < 2 ^ 32) :
    (rebuildFromOriginal t).Holds t.original := by
  have hkeep : ¬ t.original.length > 2 ^ 32 - 1 := by omega
  have hbuffers : Buffers.Valid
      { original := t.original, originalNewlines := positions lf t.original } := by
    refine ⟨fun buffer => ?_, hsize, by simp⟩
    cases buffer with
    | zero => rfl
    | succ k => simp [Buffers.newlinesOf, Buffers.bufferOf, positions]
  unfold rebuildFromOriginal
  rw [if_neg hkeep]
  dsimp only
  split
  · next hempty =>
    rw [List.isEmpty_iff] at hempty
    exact ⟨hbuffers, trivial, hsize, by simp [text, hempty]⟩
  · obtain ⟨hpiece, htext⟩ := @valid_allocate _ hbuffers 0x9e3779b9 0 0 (u32 t.original.length)
      (by rw [u32_of_lt hsize]; simp [Buffers.bufferOf])
    refine ⟨hbuffers, valid_leaf hpiece, hsize, ?_⟩
    rw [text_leaf, htext, u32_of_lt hsize, Nat.zero_add]
    exact slice_whole _

theorem rebuildFromOriginal_newlines (hsize : t.original.length < 2 ^ 32) :
    (rebuildFromOriginal t).originalNewlines = positions lf t.original := by
  have hkeep : ¬ t.original.length > 2 ^ 32 - 1 := by omega
  unfold rebuildFromOriginal
  rw [if_neg hkeep]
  dsimp only
  split <;> rfl

theorem rebuildFromOriginal_frame (t : PieceTree) : (rebuildFromOriginal t).cursor = {} ∧
      (rebuildFromOriginal t).maxLiveDocumentBytes = t.maxLiveDocumentBytes ∧
      (rebuildFromOriginal t).lastMutationRejected = t.lastMutationRejected := by
  unfold rebuildFromOriginal
  dsimp only
  generalize (if t.original.length > 2 ^ 32 - 1 then [] else t.original) = original
  split <;> exact ⟨rfl, rfl, rfl⟩

/-- **Compaction** changes the representation only. -/
theorem compactAddBuffer_holds (h : t.Holds text) : (compactAddBuffer t).Holds text := by
  have hcopy : copyRange t.toBuffers 0 t.byteSize t.root 0 = text := by
    rw [copyRange_eq 0 _ h.root (by rw [h.text, Nat.zero_add]; exact h.fits), h.text, h.byteSize]
    exact slice_whole text
  have hrebuilt := @rebuildFromOriginal_holds
    { t with original := copyRange t.toBuffers 0 t.byteSize t.root 0 } (by
      rw [hcopy]
      exact h.fits)
  simp only [hcopy] at hrebuilt
  unfold compactAddBuffer
  rw [hcopy]
  exact ⟨hrebuilt.buffers, hrebuilt.root, hrebuilt.fits, hrebuilt.text⟩

theorem compactAddBuffer_frame (t : PieceTree) :
    (compactAddBuffer t).maxLiveDocumentBytes = t.maxLiveDocumentBytes ∧
      (compactAddBuffer t).lastMutationRejected = t.lastMutationRejected ∧
      (compactAddBuffer t).lineCount = t.lineCount := by
  obtain ⟨-, hceiling, hrejected⟩ := rebuildFromOriginal_frame
    { t with original := copyRange t.toBuffers 0 t.byteSize t.root 0 }
  exact ⟨hceiling, hrejected, rfl⟩

/-- The insertion proper, once the add side has been compacted or not. -/
theorem insertPiece_holds (R : Reserve) (h : t.Holds text) (pos : Nat) {inserted : List UInt8}
    (hsize : text.length + inserted.length < 2 ^ 32) :
    let location := (appendToAdd R t.toBuffers inserted).1
    let buffers := (appendToAdd R t.toBuffers inserted).2
    let allocated := allocate buffers t.priorityState location.buffer location.offset
      (u32 inserted.length)
    let halves := split buffers allocated.2 t.root pos
    let root := merge (merge halves.1 (.leaf allocated.1)) halves.2.1
    buffers.Valid ∧ root.Valid buffers ∧
      root.text buffers = text.take pos ++ inserted ++ text.drop pos := by
  intro location buffers allocated halves root
  obtain ⟨hbuffers, hextends, hroom, hstored⟩ := appendToAdd_spec R h.buffers
    (show inserted.length < 2 ^ 32 by omega)
  obtain ⟨htext, hroot⟩ := h.root.extend hextends
  rw [h.text] at htext
  obtain ⟨hpiece, hpieceText⟩ := @valid_allocate buffers hbuffers t.priorityState location.buffer
    location.offset (u32 inserted.length) (by rw [u32_of_lt (by omega)]; exact hroom)
  have hpieceText : allocated.1.text buffers = inserted := by
    simp only [allocated, u32_of_lt (show inserted.length < 2 ^ 32 by omega)]
    exact hstored
  obtain ⟨hleft, hleftText, hright, hrightText⟩ := split_spec hbuffers allocated.2 hroot
    (by rw [htext]; exact h.fits) pos
  rw [htext] at hleftText hrightText
  obtain ⟨hjoin, hjoinText⟩ := merge_spec hleft (valid_leaf hpiece) (by
    rw [hleftText, text_leaf, hpieceText, length_append, length_take]
    omega)
  rw [hleftText, text_leaf, hpieceText] at hjoinText
  obtain ⟨hroot', hrootText⟩ := merge_spec hjoin hright (by
    rw [hjoinText, hrightText, length_append, length_append, length_take, length_drop]
    omega)
  refine ⟨hbuffers, hroot', ?_⟩
  rw [hrootText, hjoinText, hrightText]

/-- **InsertText** inserts, with or without a compaction before. -/
theorem insertText_holds (R : Reserve) (h : t.Holds text) (pos : Nat) (inserted : List UInt8)
    (hsize : text.length + inserted.length < 2 ^ 32) :
    (insertText R t pos inserted).Holds (text.take pos ++ inserted ++ text.drop pos) := by
  have hfits : (text.take pos ++ inserted ++ text.drop pos).length < 2 ^ 32 := by
    simp only [length_append, length_take, length_drop]
    omega
  unfold insertText
  split
  · next hempty =>
    rw [List.isEmpty_iff] at hempty
    rw [hempty, append_nil, take_append_drop]
    exact h
  · split
    · obtain ⟨hbuffers, hroot, htext⟩ := insertPiece_holds R (compactAddBuffer_holds h) pos hsize
      exact ⟨hbuffers, hroot, hfits, htext⟩
    · obtain ⟨hbuffers, hroot, htext⟩ := insertPiece_holds R h pos hsize
      exact ⟨hbuffers, hroot, hfits, htext⟩

theorem insertText_frame (R : Reserve) (t : PieceTree) (pos : Nat) (inserted : List UInt8) :
    (insertText R t pos inserted).maxLiveDocumentBytes = t.maxLiveDocumentBytes ∧
      (insertText R t pos inserted).lastMutationRejected = t.lastMutationRejected := by
  unfold insertText
  split
  · exact ⟨rfl, rfl⟩
  · dsimp only
    split
    · exact ⟨(compactAddBuffer_frame t).1, (compactAddBuffer_frame t).2.1⟩
    · exact ⟨rfl, rfl⟩

/-- **DeleteRange** deletes. -/
theorem deleteRange_holds (h : t.Holds text) (pos length : Nat) :
    (deleteRange t pos length).Holds (text.take pos ++ text.drop (pos + length)) := by
  have hfits : (text.take pos ++ text.drop (pos + length)).length < 2 ^ 32 := by
    have := h.fits
    simp only [length_append, length_take, length_drop]
    omega
  unfold deleteRange
  split
  · next hzero =>
    rw [hzero, Nat.add_zero, take_append_drop]
    exact h
  · obtain ⟨hleft, hleftText, hrest, hrestText⟩ := split_spec h.buffers t.priorityState h.root
      (by rw [h.text]; exact h.fits) pos
    obtain ⟨-, -, hright, hrightText⟩ := split_spec h.buffers
      (split t.toBuffers t.priorityState t.root pos).2.2 hrest (by
        have := h.fits
        rw [hrestText, h.text, length_drop]
        omega) length
    rw [h.text] at hleftText hrestText
    rw [hrestText, drop_drop] at hrightText
    obtain ⟨hroot, hrootText⟩ := merge_spec hleft hright (by rw [hleftText, hrightText]; exact hfits)
    rw [hleftText, hrightText] at hrootText
    exact ⟨h.buffers, hroot, hfits, hrootText⟩

theorem deleteRange_frame (t : PieceTree) (pos length : Nat) :
    (deleteRange t pos length).maxLiveDocumentBytes = t.maxLiveDocumentBytes ∧
      (deleteRange t pos length).lastMutationRejected = t.lastMutationRejected := by
  unfold deleteRange
  split <;> exact ⟨rfl, rfl⟩

/-- A splice below the ceiling. -/
theorem apply_accepted (R : Reserve) (h : t.Holds text) (hceiling : t.maxLiveDocumentBytes < 2 ^ 32)
    {splice : Splice} (hle : splice.oldStart ≤ splice.oldEnd) (hend : splice.oldEnd ≤ text.length)
    (hfits : (text.take splice.oldStart ++ splice.text ++ text.drop splice.oldEnd).length ≤
      t.maxLiveDocumentBytes) :
    (splice.apply R t).Holds (text.take splice.oldStart ++ splice.text ++ text.drop splice.oldEnd) ∧
      (splice.apply R t).lineCount = splice.lineCount ∧ (splice.apply R t).cursor = {} ∧
      (splice.apply R t).maxLiveDocumentBytes = t.maxLiveDocumentBytes ∧
      (splice.apply R t).lastMutationRejected = false := by
  obtain ⟨oldStart, oldEnd, inserted, lineCount, cursor⟩ := splice
  dsimp only at hle hend hfits ⊢
  simp only [length_append, length_take, length_drop] at hfits
  have hin : ¬ t.byteSize - (oldEnd - oldStart) + inserted.length > t.maxLiveDocumentBytes := by
    rw [h.byteSize]
    omega
  have hdeleted := @deleteRange_holds { t with lastMutationRejected := false } text
    ⟨h.buffers, h.root, h.fits, h.text⟩ oldStart (oldEnd - oldStart)
  rw [Nat.add_sub_cancel' hle] at hdeleted
  have hlength : (text.take oldStart).length = oldStart := by
    rw [length_take]
    omega
  have hinserted := insertText_holds R hdeleted oldStart inserted (by
    simp only [length_append, length_take, length_drop]
    omega)
  rw [take_left' hlength, drop_left' hlength] at hinserted
  obtain ⟨hceilingD, hrejectedD⟩ := deleteRange_frame { t with lastMutationRejected := false } oldStart
    (oldEnd - oldStart)
  obtain ⟨hceilingI, hrejectedI⟩ := insertText_frame R (deleteRange
    { t with lastMutationRejected := false } oldStart (oldEnd - oldStart)) oldStart inserted
  unfold Splice.apply
  rw [if_neg hin]
  exact ⟨⟨hinserted.buffers, hinserted.root, hinserted.fits, hinserted.text⟩, rfl, rfl,
    hceilingI.trans hceilingD, hrejectedI.trans hrejectedD⟩

/-- A splice over the ceiling is refused. -/
theorem apply_refused (R : Reserve) (h : t.Holds text) {splice : Splice}
    (hle : splice.oldStart ≤ splice.oldEnd) (hend : splice.oldEnd ≤ text.length)
    (hover : t.maxLiveDocumentBytes <
      (text.take splice.oldStart ++ splice.text ++ text.drop splice.oldEnd).length) :
    splice.apply R t = { t with cursor := splice.cursor, lastMutationRejected := true } := by
  simp only [length_append, length_take, length_drop] at hover
  rw [Splice.apply, if_pos]
  rw [h.byteSize]
  omega

/-! ### Lines -/

/-- The tree holds the join of `lines`, counts them, and its read caches are valid. -/
structure Spells (t : PieceTree) (lines : List Line) : Prop extends t.Holds (joinText lines) where
  lineCount : t.lineCount = lines.length
  free : ∀ line ∈ lines, lf ∉ line
  cursor : t.cursor.Valid t.toBuffers (joinText lines)
  ceiling : t.maxLiveDocumentBytes < 2 ^ 32

end PieceTree

/-- The naive list of lines: erase `removed` lines at `start` and insert there. -/
def replaceLines (lines : List Line) (start removed : Nat) (inserted : List Line) : List Line :=
  lines.take start ++ inserted ++ lines.drop (start + removed)

/-- The naive list of lines: replace the text from a column of one line to a column of a line
below or the same. Lines and columns are clamped, and an end before the start is an
insertion at the start. -/
def replaceText (lines : List Line) (startLine startColumn endLine endColumn : Nat)
    (text : List UInt8) : List Line :=
  if lines.isEmpty then lines
  else
    let startLine := min startLine (lines.length - 1)
    let endLine := max startLine (min endLine (lines.length - 1))
    let startColumn := min startColumn (lines.getD startLine []).length
    let endColumn := min endColumn (lines.getD endLine []).length
    let endColumn := if startLine = endLine then max startColumn endColumn else endColumn
    lines.take startLine ++
      ((lines.getD startLine []).take startColumn ++ text ++
        (lines.getD endLine []).drop endColumn).splitOn lf ++
      lines.drop (endLine + 1)

variable {line : Nat} {cursor : LineCursor}

namespace PieceTree

variable {t : PieceTree} {lines : List Line}

section

variable (h : t.Spells lines)

include h

theorem count_joinText_ge (hline : line < lines.length) : line ≤ (joinText lines).count lf := by
  rw [joinText, count_join lf h.free]
  omega

/-- Looking up the start of a line of the document. -/
theorem Spells.lineStartByte (hline : line < lines.length)
    (hcursor : cursor.Valid t.toBuffers (joinText lines)) :
    (Editor.lineStartByte t.toBuffers t.root line cursor).1 = lineOffset lf lines line ∧
      (Editor.lineStartByte t.toBuffers t.root line cursor).2.Valid t.toBuffers (joinText lines) := by
  have hspec := lineStartByte_spec line h.buffers h.root (by rw [h.text]; exact h.fits)
    (by rwa [h.text]) (by rw [h.text]; exact count_joinText_ge h hline)
  rw [h.text, lineStart_joinText h.free hline] at hspec
  exact hspec

theorem Spells.lineStartByteMemoized (hline : line < lines.length)
    (hcursor : cursor.Valid t.toBuffers (joinText lines)) :
    (Editor.lineStartByteMemoized t.toBuffers t.root line cursor).1 = lineOffset lf lines line ∧
      (Editor.lineStartByteMemoized t.toBuffers t.root line cursor).2.Valid t.toBuffers
        (joinText lines) := by
  have hspec := lineStartByteMemoized_spec line h.buffers h.root
    (by rw [h.text]; exact h.fits) (by rwa [h.text])
    (by rw [h.text]; exact count_joinText_ge h hline)
  rw [h.text, lineStart_joinText h.free hline] at hspec
  exact hspec

/-- Where a line ends, its newline not counted. -/
theorem Spells.lineEndByte (hline : line < lines.length)
    (hcursor : cursor.Valid t.toBuffers (joinText lines)) :
    (PieceTree.lineEndByte t line cursor).1 = lineOffset lf lines line + lines[line].length ∧
      (PieceTree.lineEndByte t line cursor).2.Valid t.toBuffers (joinText lines) := by
  unfold PieceTree.lineEndByte
  rw [h.lineCount]
  split
  · next hnext =>
    obtain ⟨hstart, hvalid⟩ := h.lineStartByteMemoized hnext hcursor
    refine ⟨?_, hvalid⟩
    dsimp only
    rw [hstart, lineOffset_succ lf hline, Nat.add_sub_cancel]
  · next hlast =>
    refine ⟨?_, hcursor⟩
    rw [h.byteSize, joinText, length_join lf hline, drop_of_length_le (by omega)]
    rfl

end

/-! ### Replacing lines -/

section

variable (inserted : List Line)

include inserted

theorem replacementText_after :
    replacementText false (!inserted.isEmpty) inserted = terminated lf inserted := by
  by_cases hempty : inserted = []
  · simp [hempty, replacementText, joinText, terminated]
  · simp [replacementText, hempty, terminated_eq lf hempty, joinText]

theorem replacementText_before :
    replacementText (!inserted.isEmpty) false inserted = preceded lf inserted := by
  by_cases hempty : inserted = []
  · simp [hempty, replacementText, joinText, preceded]
  · simp [replacementText, hempty, preceded_eq lf hempty, joinText]

theorem replacementText_whole : replacementText false false inserted = joinText inserted := by
  simp [replacementText]

/-- A splice takes the join of `lines` to the join of `lines'`, after lookups that leave the
read caches valid. -/
structure Splice.Replaces (splice : Splice) (b : Buffers) (lines lines' : List Line) : Prop where
  ordered : splice.oldStart ≤ splice.oldEnd
  within : splice.oldEnd ≤ (joinText lines).length
  join : joinText lines' =
    (joinText lines).take splice.oldStart ++ splice.text ++ (joinText lines).drop splice.oldEnd
  lineCount : splice.lineCount = lines'.length
  cursor : splice.cursor.Valid b (joinText lines)

/-- Lines that stand above other lines that stay. -/
theorem joinText_replace_above {start endLine : Nat} (hle : start ≤ endLine)
    (hend : endLine < lines.length) :
    joinText (lines.take start ++ inserted ++ lines.drop endLine) =
      (joinText lines).take (lineOffset lf lines start) ++ terminated lf inserted ++
        (joinText lines).drop (lineOffset lf lines endLine) := by
  have hrest : lines.drop endLine ≠ [] := by
    rw [ne_eq, drop_eq_nil_iff]
    omega
  have hcut := join_cut lf (lines.take start ++ inserted) [] hrest
  rw [append_nil] at hcut
  rw [joinText, joinText, hcut, take_lineOffset lf (by omega), drop_lineOffset lf hend]
  simp [terminated, preceded]

/-- Lines up to the end of the document, with lines above that stay. -/
theorem joinText_replace_end {start : Nat} (hpos : 0 < start) (hle : start ≤ lines.length) :
    joinText (lines.take start ++ inserted) =
      (joinText lines).take (if start < lines.length then lineOffset lf lines start - 1
        else (joinText lines).length) ++ preceded lf inserted := by
  have habove : lines.take start ≠ [] := ne_nil_of_length_pos (by rw [length_take]; omega)
  have hcut := join_cut lf [] inserted habove
  rw [nil_append] at hcut
  have hkept : (joinText lines).take (if start < lines.length then lineOffset lf lines start - 1
      else (joinText lines).length) = joinText (lines.take start) := by
    split
    · next hlt =>
      have htake := take_lineOffset lf hlt
      rw [terminated_eq lf habove] at htake
      have hoffset : lineOffset lf lines start = ([lf].intercalate (lines.take start)).length + 1 := by
        rw [lineOffset, terminated_eq lf habove, length_append, length_singleton]
      rw [hoffset, Nat.add_sub_cancel, joinText, joinText,
        ← Nat.min_eq_left (Nat.le_succ ([lf].intercalate (lines.take start)).length), ← take_take,
        Nat.succ_eq_add_one, ← hoffset, htake, take_left]
    · next hge => rw [take_length, take_of_length_le (by omega)]
  rw [hkept, joinText, hcut]
  simp [terminated, joinText]

end

/-- **ReplaceLineRange** splices the naive replacement in. -/
theorem lineSplice_replaces (h : t.Spells lines) (start removed : Nat) (inserted : List Line) :
    (lineSplice t start removed inserted).Replaces t.toBuffers lines
      (replaceLines lines start removed inserted) := by
  have hn := h.lineCount
  obtain ⟨first, hfirst⟩ : ∃ first, first = min start t.lineCount := ⟨_, rfl⟩
  obtain ⟨count, hcount⟩ : ∃ count, count = min removed (t.lineCount - first) := ⟨_, rfl⟩
  have hnaive : replaceLines lines start removed inserted =
      lines.take first ++ inserted ++ lines.drop (first + count) := by
    rw [replaceLines, take_eq_take_iff.mpr (show min start _ = min first _ by omega),
      drop_eq_drop_iff.mpr (show min (start + removed) _ = min (first + count) _ by omega)]
  have hlength : t.lineCount - count + inserted.length =
      (lines.take first ++ inserted ++ lines.drop (first + count)).length := by
    simp only [length_append, length_take, length_drop]
    omega
  unfold lineSplice
  dsimp only
  rw [hnaive, ← hfirst, ← hcount]
  split
  · next habove =>
    obtain ⟨hstart, hcursor⟩ := h.lineStartByte (show first < lines.length by omega) h.cursor
    obtain ⟨hend, hcursor⟩ := h.lineStartByte (show first + count < lines.length by omega) hcursor
    refine ⟨?_, ?_, ?_, hlength, hcursor⟩
    · rw [hstart, hend]
      exact lineOffset_mono lf (by omega)
    · dsimp only
      rw [hend, joinText, length_join lf (show first + count < lines.length by omega)]
      omega
    · rw [hstart, hend, replacementText_after]
      exact joinText_replace_above inserted (by omega) (by omega)
  · next hend =>
    have hdrop : lines.drop (first + count) = [] := drop_of_length_le (by omega)
    have hsize := h.byteSize
    rw [hdrop, append_nil] at hlength ⊢
    split
    · next hpos =>
      have hjoin := joinText_replace_end inserted hpos (show first ≤ lines.length by omega)
      by_cases hlt : first < t.lineCount
      · obtain ⟨hstart, hcursor⟩ := h.lineStartByte (show first < lines.length by omega) h.cursor
        have hoffset : lineOffset lf lines first ≤ (joinText lines).length := by
          rw [joinText, length_join lf (show first < lines.length by omega)]
          omega
        rw [if_pos hlt]
        rw [if_pos (by omega)] at hjoin
        refine ⟨?_, by rw [hsize], ?_, hlength, hcursor⟩
        · dsimp only
          omega
        · rw [hstart, hsize, replacementText_before, drop_length, append_nil]
          exact hjoin
      · rw [if_neg hlt]
        rw [if_neg (by omega)] at hjoin
        refine ⟨Nat.le_refl _, by rw [hsize], ?_, hlength, h.cursor⟩
        rw [hsize, replacementText_before, drop_length, append_nil]
        exact hjoin
    · next hzero =>
      obtain rfl : first = 0 := by omega
      refine ⟨Nat.zero_le _, by rw [hsize], ?_, hlength, h.cursor⟩
      rw [hsize, replacementText_whole, drop_length]
      simp

/-! ### Replacing text -/

/-- **ResolveByteSpan** finds the bytes of the clamped columns. -/
theorem resolveByteSpan_spec (h : t.Spells lines) {startLine endLine : Nat}
    (hle : startLine ≤ endLine) (hend : endLine < lines.length) (startColumn endColumn : Nat) :
    let first := min startColumn lines[startLine].length
    let last := min endColumn lines[endLine].length
    (resolveByteSpan t startLine startColumn endLine endColumn).1 =
      (lineOffset lf lines startLine + first,
        lineOffset lf lines endLine + if startLine = endLine then max first last else last) ∧
      (resolveByteSpan t startLine startColumn endLine endColumn).2.Valid t.toBuffers
        (joinText lines) := by
  intro first last
  have hn := h.lineCount
  have hfits := h.fits
  have hlengthStart := length_join lf (show startLine < lines.length by omega)
  have hlengthEnd := length_join lf hend
  rw [← joinText] at hlengthStart hlengthEnd
  obtain ⟨hbase, hcursor⟩ := h.lineStartByteMemoized (show startLine < lines.length by omega) h.cursor
  obtain ⟨hlimit, hcursor⟩ := h.lineEndByte (show startLine < lines.length by omega) hcursor
  obtain ⟨hbaseEnd, hcursorEnd⟩ := h.lineStartByteMemoized hend hcursor
  obtain ⟨hlimitEnd, hcursorEnd⟩ := h.lineEndByte hend hcursorEnd
  have hclampStart : min startLine (t.lineCount - 1) = startLine := by omega
  have hclampEnd : max startLine (min endLine (t.lineCount - 1)) = endLine := by omega
  unfold resolveByteSpan
  rw [if_neg (by omega)]
  dsimp only
  rw [hclampStart, hclampEnd, hbase, hlimit, Nat.add_sub_cancel_left]
  split
  · next heq =>
    subst heq
    refine ⟨?_, hcursor⟩
    rw [if_pos rfl, u32_of_lt (by omega), u32_of_lt (by omega), Nat.add_max_add_left]
  · next hne =>
    refine ⟨?_, hcursorEnd⟩
    have hstep := lineOffset_succ lf (show startLine < lines.length by omega)
    have hbelow := @lineOffset_mono _ lf lines (startLine + 1) endLine (by omega)
    dsimp only
    rw [hbaseEnd, hlimitEnd, Nat.add_sub_cancel_left, if_neg (fun heq => hne heq.symm),
      u32_of_lt (by omega), u32_of_lt (by omega)]
    congr 1
    omega

/-- The join of a replacement in the middle of two lines. -/
theorem joinText_replace_columns {startLine endLine startColumn endColumn : Nat}
    (hle : startLine ≤ endLine) (hend : endLine < lines.length)
    (hstartColumn : startColumn ≤ lines[startLine].length)
    (hendColumn : endColumn ≤ lines[endLine].length) (text : List UInt8) :
    joinText (lines.take startLine ++
        (lines[startLine].take startColumn ++ text ++ lines[endLine].drop endColumn).splitOn lf ++
        lines.drop (endLine + 1)) =
      (joinText lines).take (lineOffset lf lines startLine + startColumn) ++ text ++
        (joinText lines).drop (lineOffset lf lines endLine + endColumn) := by
  rw [joinText, joinText, join_cut lf _ _ (splitOn_ne_nil _ _), intercalate_splitOn,
    take_column lf (by omega) hstartColumn, drop_column lf hend hendColumn]
  simp only [append_assoc]

/-- **ReplaceTextRange** splices the naive replacement in. -/
theorem textSplice_replaces (h : t.Spells lines) (hne : lines ≠ [])
    (startLine startColumn endLine endColumn : Nat) (text : List UInt8) :
    (textSplice t startLine startColumn endLine endColumn text).Replaces t.toBuffers lines
      (replaceText lines startLine startColumn endLine endColumn text) := by
  have hn := h.lineCount
  have hpos := length_pos_of_ne_nil hne
  obtain ⟨first, hfirst⟩ : ∃ first, first = min startLine (t.lineCount - 1) := ⟨_, rfl⟩
  obtain ⟨last, hlast⟩ : ∃ last, last = max first (min endLine (t.lineCount - 1)) := ⟨_, rfl⟩
  have hfirst_lt : first < lines.length := by omega
  have hlast_lt : last < lines.length := by omega
  have hle : first ≤ last := by omega
  obtain ⟨firstColumn, hfirstColumn⟩ : ∃ column, column = min startColumn lines[first].length :=
    ⟨_, rfl⟩
  obtain ⟨lastColumn, hlastColumn⟩ : ∃ column, column = if first = last then
      max firstColumn (min endColumn lines[last].length) else min endColumn lines[last].length :=
    ⟨_, rfl⟩
  have hcolumn : firstColumn ≤ lines[first].length := by omega
  have hcolumn' : lastColumn ≤ lines[last].length := by
    rw [hlastColumn]
    split
    · next heq =>
      subst heq
      omega
    · omega
  have hnaive : replaceText lines startLine startColumn endLine endColumn text =
      lines.take first ++
        (lines[first].take firstColumn ++ text ++ lines[last].drop lastColumn).splitOn lf ++
        lines.drop (last + 1) := by
    have hfirstGet : lines.getD first [] = lines[first] := (getElem_eq_getD []).symm
    have hlastGet : lines.getD last [] = lines[last] := (getElem_eq_getD []).symm
    unfold replaceText
    rw [if_neg (by simpa using hne)]
    dsimp only
    rw [← hn, ← hfirst, ← hlast, hfirstGet, hlastGet, ← hfirstColumn, ← hlastColumn]
  have hcount : t.lineCount - (last - first) + (positions lf text).length =
      (replaceText lines startLine startColumn endLine endColumn text).length := by
    have hfree (k : Nat) (hk : k < lines.length) : lines[k].count lf = 0 :=
      count_eq_zero.mpr (h.free _ (getElem_mem hk))
    have hfirstCount : (lines[first].take firstColumn).count lf = 0 :=
      Nat.le_zero.mp ((take_sublist _ _).count_le lf |>.trans (hfree first hfirst_lt).le)
    have hlastCount : (lines[last].drop lastColumn).count lf = 0 :=
      Nat.le_zero.mp ((drop_sublist _ _).count_le lf |>.trans (hfree last hlast_lt).le)
    rw [hnaive, length_append, length_append, length_splitOn, count_append,
      count_append, hfirstCount, hlastCount, length_positions, length_take,
      length_drop]
    omega
  obtain ⟨hspan, hcursor⟩ := resolveByteSpan_spec h hle hlast_lt startColumn endColumn
  rw [← hfirstColumn, ← hlastColumn] at hspan
  have hordered : lineOffset lf lines first + firstColumn ≤ lineOffset lf lines last + lastColumn := by
    rw [hlastColumn]
    split
    · next heq =>
      subst heq
      omega
    · have hstep := lineOffset_succ lf hfirst_lt
      have hbelow := @lineOffset_mono _ lf lines (first + 1) last (by omega)
      omega
  unfold textSplice
  dsimp only
  rw [← hfirst, ← hlast]
  rcases hresolved : resolveByteSpan t first startColumn last endColumn with ⟨⟨start, stop⟩, cursor⟩
  rw [hresolved] at hspan hcursor
  obtain ⟨rfl, rfl⟩ := Prod.mk.inj hspan
  refine ⟨hordered, ?_, ?_, hcount, hcursor⟩
  · dsimp only
    rw [joinText, length_join lf hlast_lt]
    omega
  · rw [hnaive]
    exact joinText_replace_columns hle hlast_lt hcolumn hcolumn' text

/-! ### Below and over the ceiling -/

variable {splice : Splice} {lines' : List Line}

/-- A mutation below the ceiling does what the naive list does. -/
theorem Splice.Replaces.accepted (hsplice : splice.Replaces t.toBuffers lines lines') (R : Reserve)
    (h : t.Spells lines) (hfree : ∀ line ∈ lines', lf ∉ line)
    (hfits : (joinText lines').length ≤ t.maxLiveDocumentBytes) : (splice.apply R t).Spells lines' ∧
      (splice.apply R t).maxLiveDocumentBytes = t.maxLiveDocumentBytes ∧
      (splice.apply R t).lastMutationRejected = false := by
  rw [hsplice.join] at hfits
  obtain ⟨hholds, hcount, hcursor, hceiling, hrejected⟩ :=
    apply_accepted R h.toHolds h.ceiling hsplice.ordered hsplice.within hfits
  rw [← hsplice.join] at hholds
  refine ⟨⟨hholds, hcount.trans hsplice.lineCount, hfree, ?_, ?_⟩, hceiling, hrejected⟩
  · rw [hcursor]
    exact LineCursor.valid_fresh _ _
  · rw [hceiling]
    exact h.ceiling

/-- A mutation over the ceiling changes nothing but the read caches and the flag. -/
theorem Splice.Replaces.refused (hsplice : splice.Replaces t.toBuffers lines lines') (R : Reserve)
    (h : t.Spells lines) (hover : t.maxLiveDocumentBytes < (joinText lines').length) :
    splice.apply R t = { t with cursor := splice.cursor, lastMutationRejected := true } := by
  rw [hsplice.join] at hover
  exact apply_refused R h.toHolds hsplice.ordered hsplice.within hover

/-! ### Whole documents -/

/-- **Reset** and **ResetFromText** spell what they are given. -/
theorem reset_spells (hceiling : t.maxLiveDocumentBytes < 2 ^ 32)
    (hfree : ∀ line ∈ lines, lf ∉ line) (hsize : (joinText lines).length < 2 ^ 32) :
    (reset t lines).Spells lines := by
  have hholds := rebuildFromOriginal_holds (t := { t with original := joinText lines }) hsize
  obtain ⟨hcursor, hceiling', -⟩ := rebuildFromOriginal_frame { t with original := joinText lines }
  refine ⟨⟨hholds.buffers, hholds.root, hholds.fits, hholds.text⟩, rfl, hfree, ?_, ?_⟩
  · exact hcursor ▸ LineCursor.valid_fresh _ _
  · exact hceiling' ▸ hceiling

theorem resetFromText_spells (hceiling : t.maxLiveDocumentBytes < 2 ^ 32) {content : List UInt8}
    (hsize : content.length < 2 ^ 32) : (resetFromText t content).Spells (content.splitOn lf) := by
  have hjoin : joinText (content.splitOn lf) = content := intercalate_splitOn lf
  have hholds := rebuildFromOriginal_holds (t := { t with original := content }) hsize
  obtain ⟨hcursor, hceiling', -⟩ := rebuildFromOriginal_frame { t with original := content }
  have hnewlines := rebuildFromOriginal_newlines (t := { t with original := content }) hsize
  refine ⟨⟨hholds.buffers, hholds.root, hjoin.symm ▸ hholds.fits, hjoin.symm ▸ hholds.text⟩, ?_,
    fun line hline => not_mem_of_mem_splitOn lf hline, ?_, ?_⟩
  · rw [length_splitOn, ← length_positions]
    exact congrArg (·.length + 1) hnewlines
  · exact hcursor ▸ LineCursor.valid_fresh _ _
  · exact hceiling' ▸ hceiling

end PieceTree

end Microide.Editor
