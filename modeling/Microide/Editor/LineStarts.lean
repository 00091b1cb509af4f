/-
Line starts.

`LineStartByte` answers from the walk state when the line asked for is the one after the
line resolved last, and descends the treap otherwise; `LineStartByteMemoized` answers a
repeated question from its memo. A cursor is valid when its walk stands at a newline of
the text and its memo is right. Valid cursors answer right and stay valid, so the three
ways to an answer cannot be told apart.
-/

import Microide.Editor.PieceTreeInvariant

namespace Microide.Editor

open List Lib Text Treap

/-- Where a line of a text starts: one past the newline before it. -/
def lineStart (text : List UInt8) (line : Nat) : Nat :=
  if line = 0 then 0 else (positions lf text).getD (line - 1) 0 + 1

variable {text : List UInt8} {target : Nat}

theorem lineStart_succ {offset : Nat} (h : (positions lf text)[target]? = some offset) :
    lineStart text (target + 1) = offset + 1 := by
  simp [lineStart, h]

/-! ### The walk -/

/-- The newline `target` of a piece, in its buffer's index and in the piece. -/
theorem Piece.Valid.newline {b : Buffers} (h : b.Valid) {piece : Piece} (hpiece : piece.Valid b)
    (htarget : target < piece.selfNewlines) :
    ∃ offset, (positions lf (piece.text b))[target]? = some offset ∧
      (b.newlinesOf piece.buffer).getD
        (lowerBound (b.newlinesOf piece.buffer) piece.start + target) 0 = piece.start + offset := by
  have hwithin := hpiece.within
  rw [hpiece.newlines, ← length_positions] at htarget
  obtain ⟨offset, hoffset⟩ : ∃ offset, (positions lf (piece.text b))[target]? = some offset :=
    ⟨_, getElem?_eq_getElem htarget⟩
  have hrest : (b.bufferOf piece.buffer).drop piece.start =
      piece.text b ++ (b.bufferOf piece.buffer).drop (piece.start + piece.length) :=
    (slice_append_drop _ (Nat.le_add_right _ _)).symm
  refine ⟨offset, hoffset, ?_⟩
  rw [h.newlines, lowerBound_positions, getD_eq_getElem?_getD,
    getElem?_positions_drop lf _ (by omega), hrest,
    getElem?_positions_append_left lf _ _ (by rwa [← length_positions]), hoffset]
  simp [Nat.add_comm]

/-- A walk stands at newline `target` of a text whose bytes start at `acc`. -/
structure LineWalk.Locates (b : Buffers) (text : List UInt8) (acc target : Nat)
    (walk : LineWalk) : Prop where
  piece : walk.piece.Valid b
  place : ∃ before after, text = before ++ walk.piece.text b ++ after ∧
    walk.base = acc + before.length ∧ target = before.count lf + walk.target
  target_lt : walk.target < walk.piece.selfNewlines
  newlinePos : walk.newlinePos =
    lowerBound (b.newlinesOf walk.piece.buffer) walk.piece.start + walk.target

/-- The line start a walk gives. -/
def LineWalk.start (b : Buffers) (walk : LineWalk) : Nat :=
  u32 (walk.base + ((b.newlinesOf walk.piece.buffer).getD walk.newlinePos 0 - walk.piece.start) + 1)

theorem LineWalk.Locates.sum_eq {b : Buffers} (h : b.Valid) {acc : Nat} {walk : LineWalk}
    (hwalk : walk.Locates b text acc target) :
    walk.base + ((b.newlinesOf walk.piece.buffer).getD walk.newlinePos 0 - walk.piece.start) + 1 =
        acc + lineStart text (target + 1) ∧
      lineStart text (target + 1) ≤ text.length := by
  obtain ⟨before, after, rfl, hbase, rfl⟩ := hwalk.place
  obtain ⟨offset, hoffset, hindex⟩ := hwalk.piece.newline h hwalk.target_lt
  have hmem := lt_of_mem_positions lf (mem_of_getElem? hoffset)
  have hlt : walk.target < (walk.piece.text b).count lf := by
    rw [← hwalk.piece.newlines]
    exact hwalk.target_lt
  have hposition : (positions lf (before ++ walk.piece.text b ++ after))[before.count lf +
      walk.target]? = some (before.length + offset) := by
    rw [append_assoc, getElem?_positions_append_right lf _ _ (Nat.le_add_right _ _),
      Nat.add_sub_cancel_left, getElem?_positions_append_left lf _ _ hlt, hoffset, Option.map_some,
      Nat.add_comm]
  rw [lineStart_succ hposition, hwalk.newlinePos, hindex, hbase]
  simp only [length_append]
  omega

theorem LineWalk.Locates.start_eq {b : Buffers} (h : b.Valid) {acc : Nat} {walk : LineWalk}
    (hwalk : walk.Locates b text acc target) (hsize : acc + text.length < 2 ^ 32) :
    walk.start b = acc + lineStart text (target + 1) := by
  obtain ⟨hsum, hle⟩ := hwalk.sum_eq h
  rw [LineWalk.start, hsum, u32_of_lt (by omega)]

/-- **The descent of `LineStartByte`** ends at the newline it looks for. -/
theorem findNewline_spec {b : Buffers} (line : Nat) {t : Treap} (ht : t.Valid b) (target acc : Nat)
    (hsize : acc + (t.text b).length < 2 ^ 32) (htarget : target < (t.text b).count lf) :
    ∃ walk, findNewline b line t target acc = (walk.start b, some walk) ∧ walk.line = line ∧
      walk.Locates b (t.text b) acc target := by
  induction t generalizing target acc with
  | null => simp [text] at htarget
  | node left piece subtreeLength subtreeNewlines right ihl ihr =>
      obtain ⟨hleft, hpiece, hright, -, -⟩ := ht
      have hlength := hpiece.length_text
      rw [text, length_append, length_append] at hsize
      rw [text, count_append, count_append] at htarget
      rw [findNewline, treeNewlines_eq hleft, treeLength_eq hleft]
      split
      · next hin =>
        obtain ⟨walk, hfound, hline, hwalk⟩ := ihl hleft target acc (by omega) hin
        obtain ⟨before, after, htext, hbase, hcount⟩ := hwalk.place
        refine ⟨walk, hfound, hline, hwalk.piece,
          ⟨before, after ++ piece.text b ++ right.text b, ?_, hbase, hcount⟩,
          hwalk.target_lt, hwalk.newlinePos⟩
        simp [text, htext]
      · next hafter =>
        dsimp only
        rw [u32_of_lt (show acc + (left.text b).length < 2 ^ 32 by omega)]
        split
        · next hin =>
          refine ⟨⟨line, piece, acc + (left.text b).length, target - (left.text b).count lf, _⟩,
            rfl, rfl, hpiece, ⟨left.text b, right.text b, rfl, rfl, ?_⟩, hin, rfl⟩
          dsimp only
          omega
        · next hbehind =>
          rw [hpiece.newlines] at hbehind ⊢
          rw [u32_of_lt (by omega)]
          obtain ⟨walk, hfound, hline, hwalk⟩ := ihr hright
            (target - (left.text b).count lf - (piece.text b).count lf)
            (acc + (left.text b).length + piece.length) (by omega) (by omega)
          obtain ⟨before, after, htext, hbase, hcount⟩ := hwalk.place
          refine ⟨walk, hfound, hline, hwalk.piece,
            ⟨left.text b ++ piece.text b ++ before, after, ?_, ?_, ?_⟩,
            hwalk.target_lt, hwalk.newlinePos⟩
          · rw [text]
            conv_lhs => rw [htext]
            simp
          · rw [hbase]
            simp only [length_append]
            omega
          · simp only [count_append]
            omega

/-- **The step to the next newline** of the same piece. -/
theorem walkStep_spec {b : Buffers} {line : Nat} {walk next : LineWalk} {start : Nat}
    (hwalk : walk.Locates b text 0 target) (h : walkStep b line walk = some (start, next)) :
    line = walk.line + 1 ∧ next.line = line ∧ start = next.start b ∧
      next.Locates b text 0 (target + 1) := by
  unfold walkStep at h
  split at h
  · next hcond =>
    obtain ⟨rfl, rfl⟩ := Prod.mk.inj (Option.some.inj h)
    obtain ⟨before, after, htext, hbase, hcount⟩ := hwalk.place
    refine ⟨hcond.1, rfl, rfl, hwalk.piece, ⟨before, after, htext, hbase, ?_⟩, hcond.2, ?_⟩
    · dsimp only
      omega
    · rw [hwalk.newlinePos, Nat.add_assoc]
  · exact absurd h (by simp)

/-! ### Valid cursors -/

/-- The walk stands at the newline before its line, and the memo is a line start. -/
structure LineCursor.Located (b : Buffers) (text : List UInt8) (cursor : LineCursor) : Prop where
  walk : ∀ walk, cursor.walk = some walk →
    ∃ target, walk.line = target + 1 ∧ walk.Locates b text 0 target
  memo : ∀ line start, cursor.memo = some (line, start) → start = lineStart text line

/-- A located cursor whose materialized lines are lines of the text. -/
structure LineCursor.Valid (b : Buffers) (text : List UInt8) (cursor : LineCursor) : Prop
    extends cursor.Located b text where
  views : ∀ index view, (index, view) ∈ cursor.views → (text.splitOn lf)[index]? = some view

theorem LineCursor.located_fresh (b : Buffers) (text : List UInt8) :
    ({} : LineCursor).Located b text := by
  refine ⟨?_, ?_⟩ <;> simp

theorem LineCursor.valid_fresh (b : Buffers) (text : List UInt8) : ({} : LineCursor).Valid b text :=
  ⟨located_fresh b text, by simp⟩

variable {b : Buffers} {root : Treap} {cursor : LineCursor} (line : Nat)

/-- **LineStartByte** gives the line start, however it comes to it. -/
theorem lineStartByte_located (h : b.Valid) (hroot : root.Valid b)
    (hsize : (root.text b).length < 2 ^ 32) (hcursor : cursor.Located b (root.text b))
    (hline : line ≤ (root.text b).count lf) :
    (lineStartByte b root line cursor).1 = lineStart (root.text b) line ∧
      (lineStartByte b root line cursor).2.Located b (root.text b) := by
  have hcount := count_le_length (a := lf) (l := root.text b)
  have hkeep (walk : LineWalk) (target : Nat) (hwalk : walk.line = target + 1)
      (hat : walk.Locates b (root.text b) 0 target) :
      { cursor with walk := some walk }.Located b (root.text b) := by
    refine ⟨fun walk' heq => ?_, hcursor.memo⟩
    obtain rfl := Option.some.inj heq
    exact ⟨target, hwalk, hat⟩
  unfold lineStartByte
  split
  · next hzero => exact ⟨by simp [lineStart, hzero], hcursor⟩
  · next hpos =>
    split
    · next start walk hstep =>
      obtain ⟨last, hlast, hstep⟩ := Option.bind_eq_some_iff.mp hstep
      obtain ⟨target, hlastLine, hat⟩ := hcursor.walk last hlast
      obtain ⟨hnext, hwalkLine, rfl, hat'⟩ := walkStep_spec hat hstep
      refine ⟨?_, hkeep walk (target + 1) (by omega) hat'⟩
      rw [hat'.start_eq h (by omega), Nat.zero_add, hnext, hlastLine]
    · rw [u32_of_lt (by omega)]
      obtain ⟨walk, hfound, hwalkLine, hat⟩ :=
        findNewline_spec line hroot (line - 1) 0 (by omega) (by omega)
      rw [hfound]
      refine ⟨?_, hkeep walk (line - 1) (by omega) hat⟩
      rw [hat.start_eq h (by omega), Nat.zero_add, Nat.sub_add_cancel (by omega)]

/-- **LineStartByteMemoized** gives the line start, asked before or not. -/
theorem lineStartByteMemoized_located (h : b.Valid) (hroot : root.Valid b)
    (hsize : (root.text b).length < 2 ^ 32) (hcursor : cursor.Located b (root.text b))
    (hline : line ≤ (root.text b).count lf) :
    (lineStartByteMemoized b root line cursor).1 = lineStart (root.text b) line ∧
      (lineStartByteMemoized b root line cursor).2.Located b (root.text b) := by
  obtain ⟨hstart, hvalid⟩ := lineStartByte_located line h hroot hsize hcursor hline
  have hremember : { (lineStartByte b root line cursor).2 with
      memo := some (line, (lineStartByte b root line cursor).1) }.Located b (root.text b) := by
    refine ⟨hvalid.walk, fun line' start heq => ?_⟩
    obtain ⟨rfl, rfl⟩ := Prod.mk.inj (Option.some.inj heq)
    exact hstart
  unfold lineStartByteMemoized
  split
  · next cachedLine cachedStart hmemo =>
    split
    · next heq => exact ⟨by rw [heq, hcursor.memo _ _ hmemo], hcursor⟩
    · exact ⟨hstart, hremember⟩
  · exact ⟨hstart, hremember⟩

/-- Looking up a line start leaves the materialized lines. -/
theorem lineStartByte_views (b : Buffers) (root : Treap) (cursor : LineCursor) :
    (lineStartByte b root line cursor).2.views = cursor.views := by
  unfold lineStartByte
  split
  · rfl
  · split
    · rfl
    · split <;> rfl

theorem lineStartByteMemoized_views (b : Buffers) (root : Treap) (cursor : LineCursor) :
    (lineStartByteMemoized b root line cursor).2.views = cursor.views := by
  unfold lineStartByteMemoized
  split
  · split
    · rfl
    · exact lineStartByte_views line b root cursor
  · exact lineStartByte_views line b root cursor

theorem lineStartByte_spec (h : b.Valid) (hroot : root.Valid b)
    (hsize : (root.text b).length < 2 ^ 32) (hcursor : cursor.Valid b (root.text b))
    (hline : line ≤ (root.text b).count lf) :
    (lineStartByte b root line cursor).1 = lineStart (root.text b) line ∧
      (lineStartByte b root line cursor).2.Valid b (root.text b) := by
  obtain ⟨hstart, hlocated⟩ := lineStartByte_located line h hroot hsize hcursor.toLocated hline
  exact ⟨hstart, hlocated, by rw [lineStartByte_views]; exact hcursor.views⟩

theorem lineStartByteMemoized_spec (h : b.Valid) (hroot : root.Valid b)
    (hsize : (root.text b).length < 2 ^ 32) (hcursor : cursor.Valid b (root.text b))
    (hline : line ≤ (root.text b).count lf) :
    (lineStartByteMemoized b root line cursor).1 = lineStart (root.text b) line ∧
      (lineStartByteMemoized b root line cursor).2.Valid b (root.text b) := by
  obtain ⟨hstart, hlocated⟩ := lineStartByteMemoized_located line h hroot hsize hcursor.toLocated hline
  exact ⟨hstart, hlocated, by rw [lineStartByteMemoized_views]; exact hcursor.views⟩

/-! ### Lines of a joined text -/

theorem joinText_ne_nil_splitOn {lines : List Line} (hne : lines ≠ [])
    (hfree : ∀ line ∈ lines, lf ∉ line) : (joinText lines).splitOn lf = lines :=
  splitOn_intercalate lf hfree hne

/-- The start of a line of joined lines. -/
theorem lineStart_joinText {lines : List Line} (hfree : ∀ line ∈ lines, lf ∉ line) {line : Nat}
    (hline : line < lines.length) : lineStart (joinText lines) line = lineOffset lf lines line := by
  by_cases hzero : line = 0
  · simp [lineStart, lineOffset, hzero, terminated]
  · have hposition := getElem?_positions_join lf hfree (Nat.pos_of_ne_zero hzero) hline
    have habove : lines.take line ≠ [] :=
      ne_nil_of_length_pos (by rw [length_take]; omega)
    have hlength : 0 < (terminated lf (lines.take line)).length := by
      rw [terminated_eq lf habove]
      simp
    have hstart := lineStart_succ hposition
    rw [Nat.sub_add_cancel (Nat.pos_of_ne_zero hzero)] at hstart
    rw [joinText, hstart, lineOffset]
    exact Nat.sub_add_cancel hlength

end Microide.Editor
