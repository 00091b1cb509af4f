/-
Runs of ASCII.

A run is written in one go: the row grows once, and the halves of wide glyphs at its two ends are
blanked once. That is what writing its bytes one after the other comes to, whatever stood there.

**Main results.** `writeRow_cons`: a row behind a run; `writeAscii_eq`: the screen behind a run that
fits; `appendAscii_eq`: output and REP write what their bytes do one by one.
-/

import Microide.Terminal.Screen

namespace Microide.Terminal

open List

/-! ### Rows -/

section Rows

variable {cells : Cells} {style : TerminalStyle} {cell : UInt8 → TerminalCell} {column : Nat}

theorem length_resizeLine (cells : Cells) (size : Nat) :
    (resizeLine cells size).length = max cells.length size := by
  rw [resizeLine, length_append, length_replicate]
  omega

@[simp] theorem cellAt_resizeLine (cells : Cells) (size i : Nat) :
    cellAt (resizeLine cells size) i = cellAt cells i := by
  unfold cellAt resizeLine
  rcases Nat.lt_or_ge i cells.length with inside | past
  · rw [getD_append _ _ _ _ inside]
  · rw [getD_append_right _ _ _ _ past, getD_eq_default _ _ past, getD_eq_getElem?_getD,
      getElem?_replicate]
    split <;> rfl

theorem cellAt_set (cells : Cells) (column : Nat) (cell : TerminalCell) (i : Nat) :
    cellAt (cells.set column cell) i =
      if i = column ∧ i < cells.length then cell else cellAt cells i := by
  unfold cellAt
  split_ifs <;> grind

/-- A second half is a cell of the row. -/
theorem lt_length_of_wideTrailing {i : Nat} (wide : (cellAt cells i).style.wideTrailing = true) :
    i < cells.length := by
  by_contra past
  rw [cellAt, getD_eq_default _ _ (Nat.le_of_not_lt past)] at wide
  exact Bool.false_ne_true wide

theorem cells_ext {left right : Cells} (length : left.length = right.length)
    (same : ∀ i, cellAt left i = cellAt right i) : left = right := by
  refine ext_getElem length fun i inside inside' => ?_
  have here := same i
  rwa [cellAt, cellAt, getD_eq_getElem _ _ inside, getD_eq_getElem _ _ inside'] at here

theorem length_breakWideGlyphPairForWrite (cells : Cells) (start advance : Nat)
    (style : TerminalStyle) :
    (breakWideGlyphPairForWrite cells start advance style).length = cells.length := by
  unfold breakWideGlyphPairForWrite
  dsimp only
  split_ifs <;> simp only [length_set]

/-- The halves that a write leaves are blanks. -/
theorem cellAt_breakWideGlyphPairForWrite {start advance : Nat} (some_ : 0 < advance)
    (inside : start < cells.length) (i : Nat) :
    cellAt (breakWideGlyphPairForWrite cells start advance style) i =
      if i = start + advance ∧ (cellAt cells i).style.wideTrailing = true then blankCell style
      else if i + 1 = start ∧ (cellAt cells start).style.wideTrailing = true then blankCell style
      else cellAt cells i := by
  rw [breakWideGlyphPairForWrite, if_neg (by omega)]
  dsimp only
  generalize left_ : (if (cellAt cells start).style.wideTrailing = true ∧ 0 < start then
    cells.set (start - 1) (blankCell style) else cells) = left
  have length : left.length = cells.length := by
    rw [← left_]
    split_ifs <;> simp only [length_set]
  have leftCell (i : Nat) : cellAt left i =
      if i + 1 = start ∧ (cellAt cells start).style.wideTrailing = true then blankCell style
      else cellAt cells i := by
    rw [← left_]
    split
    next wide =>
      rw [cellAt_set]
      exact if_congr ⟨fun here => ⟨by omega, wide.1⟩, fun here => ⟨by omega, by omega⟩⟩ rfl rfl
    next narrow =>
      rw [if_neg fun wide => narrow ⟨wide.2, by omega⟩]
  have last : start + advance - 1 + 1 = start + advance := by omega
  have lastCell : cellAt left (start + advance) = cellAt cells (start + advance) := by
    rw [leftCell, if_neg fun here => by omega]
  rw [last, lastCell]
  split
  next wide =>
    rw [cellAt_set, leftCell]
    exact if_congr ⟨fun here => ⟨here.1, here.1 ▸ wide.2⟩, fun here => ⟨here.1, here.1 ▸ wide.1⟩⟩ rfl rfl
  next narrow =>
    have none_ : ¬(i = start + advance ∧ (cellAt cells i).style.wideTrailing = true) := by
      rintro ⟨rfl, wide⟩
      exact narrow ⟨length ▸ lt_length_of_wideTrailing wide, wide⟩
    rw [leftCell, if_neg none_]

theorem length_writeCells (cells : Cells) (column : Nat) (bytes : List UInt8) :
    (writeCells cell cells column bytes).length = cells.length := by
  induction bytes generalizing cells column with
  | nil => rfl
  | cons byte bytes ih => rw [writeCells, ih, length_set]

theorem cellAt_writeCells {bytes : List UInt8} (inside : column + bytes.length ≤ cells.length)
    (i : Nat) : cellAt (writeCells cell cells column bytes) i =
      if column ≤ i ∧ i < column + bytes.length then cell (bytes.getD (i - column) 0)
      else cellAt cells i := by
  induction bytes generalizing cells column with
  | nil =>
    rw [writeCells, if_neg]
    rw [length_nil]
    omega
  | cons byte bytes ih =>
    rw [length_cons] at inside ⊢
    rw [writeCells, ih (by rw [length_set]; omega), cellAt_set]
    rcases Nat.lt_trichotomy i column with before | rfl | after
    · rw [if_neg (by omega), if_neg (by omega), if_neg (by omega)]
    · rw [if_neg (by omega), if_pos ⟨rfl, by omega⟩, if_pos ⟨le_rfl, by omega⟩, Nat.sub_self,
        getD_cons_zero]
    · obtain ⟨k, rfl⟩ : ∃ k, i = column + 1 + k := ⟨i - (column + 1), by omega⟩
      have next : column + 1 + k - column = k + 1 := by omega
      have other : ¬(column + 1 + k = column ∧ column + 1 + k < cells.length) := by omega
      rw [if_neg other, Nat.add_sub_cancel_left, next, getD_cons_succ]
      exact if_congr (by omega) rfl rfl

theorem length_writeRow (column : Nat) (bytes : List UInt8) (cells : Cells) :
    (writeRow cell style column bytes cells).length = max cells.length (column + bytes.length) := by
  rw [writeRow, length_writeCells, length_breakWideGlyphPairForWrite, length_resizeLine]

/-- The cells of a row behind a run. -/
theorem cellAt_writeRow {bytes : List UInt8} (some_ : 0 < bytes.length) (i : Nat) :
    cellAt (writeRow cell style column bytes cells) i =
      if column ≤ i ∧ i < column + bytes.length then cell (bytes.getD (i - column) 0)
      else if i = column + bytes.length ∧ (cellAt cells i).style.wideTrailing = true then
        blankCell style
      else if i + 1 = column ∧ (cellAt cells column).style.wideTrailing = true then blankCell style
      else cellAt cells i := by
  have size := length_resizeLine cells (column + bytes.length)
  rw [writeRow, cellAt_writeCells (by rw [length_breakWideGlyphPairForWrite]; omega),
    cellAt_breakWideGlyphPairForWrite some_ (by omega), cellAt_resizeLine, cellAt_resizeLine]

/-- **A run is its first byte and the rest**, whatever wide glyphs it overwrites. -/
theorem writeRow_cons (narrow : style.wideTrailing = false) (column : Nat) (byte : UInt8)
    {bytes : List UInt8} (some_ : 0 < bytes.length) (cells : Cells) :
    writeRow cell style column (byte :: bytes) cells =
      writeRow cell style (column + 1) bytes (writeRow cell style column [byte] cells) := by
  refine cells_ext ?_ fun i => ?_
  · rw [length_writeRow, length_writeRow, length_writeRow, length_cons, length_singleton]
    omega
  have whole := @cellAt_writeRow cells style cell column (byte :: bytes) (Nat.succ_pos _)
  have first := @cellAt_writeRow cells style cell column [byte] Nat.one_pos
  have rest := @cellAt_writeRow (writeRow cell style column [byte] cells) style cell (column + 1) bytes
    some_
  have blank : (blankCell style).style.wideTrailing = false := narrow
  -- the half that the first byte leaves behind it is a blank when the next one is written
  have next : (cellAt (writeRow cell style column [byte] cells) (column + 1)).style.wideTrailing =
      false := by
    grind
  rw [whole, rest, first, next]
  rcases Nat.lt_trichotomy i column with before | rfl | after
  · grind
  · grind
  · obtain ⟨k, rfl⟩ : ∃ k, i = column + 1 + k := ⟨i - (column + 1), by omega⟩
    grind

end Rows

/-! ### Screens -/

theorem growLines_of_le {lines : List TerminalLine} {count : Nat} (le : count ≤ lines.length) :
    growLines lines count = lines := by
  rw [growLines, Nat.sub_eq_zero_of_le le]
  exact append_nil _

theorem length_growLines (lines : List TerminalLine) (count : Nat) :
    (growLines lines count).length = max lines.length count := by
  rw [growLines, length_append, length_replicate]
  omega

namespace Screen

section Runs

variable {screen : Screen} {byte : UInt8} {bytes : List UInt8}

/-- The row of the cursor is there once a run is written. -/
theorem writeAscii_cons (some_ : bytes ≠ []) :
    screen.writeAscii (byte :: bytes) = (screen.writeAscii [byte]).writeAscii bytes := by
  have row := fun cells => @writeRow_cons screen.currentStyle.val
    (fun byte => screen.glyphCell [byte]) screen.currentStyle.property screen.cursorColumn byte bytes
    (length_pos_iff.mpr some_) cells
  have last : (byte :: bytes).getLastD 0 = bytes.getLastD 0 := by
    obtain ⟨first, rest, rfl⟩ := exists_cons_of_ne_nil some_
    rfl
  have there (change : TerminalLine → TerminalLine) : screen.cursorRow + 1 ≤
      ((growLines screen.lines (screen.cursorRow + 1)).modify screen.cursorRow change).length := by
    rw [length_modify, length_growLines]
    exact le_max_right _ _
  unfold writeAscii modifyCells modifyCursorLine ensureCursorLineExists
  dsimp only
  rw [growLines_of_le (there _), modify_modify_eq, last, length_cons, length_singleton,
    Nat.add_assoc, Nat.add_comm bytes.length]
  have lines : (fun line : TerminalLine =>
      { line with
        cells := writeRow (fun byte => screen.glyphCell [byte]) screen.currentStyle.val
          screen.cursorColumn (byte :: bytes) line.cells }) = _ := funext fun line => by
    rw [row]
  rw [lines]
  rfl

/-- Short of the margin, a printable byte is written as a run of one. -/
theorem putGlyph_ascii (plain : isPlainAscii byte = true) (overwrites : screen.insertMode = false)
    (ascii : screen.charsets.decGraphicsActive = false)
    (inside : screen.columns = 0 ∨ screen.cursorColumn < screen.columns) :
    screen.putGlyph [byte] = screen.writeAscii [byte] := by
  have low : byte < 0x80 := by
    rw [isPlainAscii, Bool.and_eq_true, decide_eq_true_eq, decide_eq_true_eq] at plain
    exact Nat.lt_trans plain.2 (Nat.lt_succ_self 127)
  have effective : effectiveGlyph screen.charsets [byte] = ([byte], 1) := by
    rw [effectiveGlyph, if_pos ⟨rfl, low⟩, ascii]
    rfl
  have advance : (if screen.columns > 0 then min 1 screen.columns else 1) = 1 := by
    split
    · exact min_eq_left ‹_›
    · rfl
  have fits : ¬(screen.columns > 0 ∧ screen.cursorColumn + 1 > screen.columns) := by omega
  rw [putGlyph, effective]
  dsimp only
  rw [if_neg Nat.one_ne_zero, if_neg (show ¬1 = 2 by decide), advance, if_neg fits, placeGlyph,
    overwrites]
  rfl

theorem putEach_cons (screen : Screen) (byte : UInt8) (bytes : List UInt8) :
    screen.putEach (byte :: bytes) = (screen.putGlyph [byte]).putEach bytes := rfl

theorem putEach_append (screen : Screen) (front back : List UInt8) :
    screen.putEach (front ++ back) = (screen.putEach front).putEach back := foldl_append

/-- **A run that fits is written as its bytes are**, one by one. -/
theorem writeAscii_eq (some_ : bytes ≠ []) (plain : ∀ byte ∈ bytes, isPlainAscii byte = true)
    (overwrites : screen.insertMode = false) (ascii : screen.charsets.decGraphicsActive = false)
    (fits : screen.columns = 0 ∨ screen.cursorColumn + bytes.length ≤ screen.columns) :
    screen.writeAscii bytes = screen.putEach bytes := by
  induction bytes generalizing screen with
  | nil => exact absurd rfl some_
  | cons byte bytes ih =>
    obtain ⟨first, plain⟩ := forall_mem_cons.mp plain
    rw [length_cons] at fits
    have put := putGlyph_ascii first overwrites ascii (by omega)
    rw [putEach_cons, put]
    rcases eq_or_ne bytes [] with rfl | more
    · rfl
    · rw [writeAscii_cons more]
      refine ih more plain overwrites ascii ?_
      refine fits.imp id fun fits => ?_
      have column : (screen.writeAscii [byte]).cursorColumn = screen.cursorColumn + 1 := rfl
      have columns : (screen.writeAscii [byte]).columns = screen.columns := rfl
      omega

/-- What the run writer takes of a run, it writes as its bytes are. -/
theorem putAsciiRun_spec (screen : Screen) (run : List UInt8)
    (taken : 0 < (screen.putAsciiRun run).1) : (screen.putAsciiRun run).1 ≤ run.length ∧
      (screen.putAsciiRun run).2 = screen.putEach (run.take (screen.putAsciiRun run).1) := by
  have whole := (@takeWhile_sublist _ run isPlainAscii).length_le
  have write (n : Nat) (some_ : 0 < n) (le : n ≤ (run.takeWhile isPlainAscii).length)
      (overwrites : screen.insertMode = false) (ascii : screen.charsets.decGraphicsActive = false)
      (fits : screen.columns = 0 ∨ screen.cursorColumn + n ≤ screen.columns) :
      screen.writeAscii (run.take n) = screen.putEach (run.take n) := by
    have size : (run.take n).length = n := length_take_of_le (le.trans whole)
    have front : run.take n = (run.takeWhile isPlainAscii).take n := by
      conv_lhs => rw [← @takeWhile_append_dropWhile _ isPlainAscii run]
      rw [take_append_of_le_length le]
    refine writeAscii_eq (ne_nil_of_length_pos (by rwa [size])) (fun byte mem => ?_) overwrites
      ascii (by rwa [size])
    rw [front] at mem
    exact mem_takeWhile_imp (mem_of_mem_take mem)
  rw [putAsciiRun] at taken ⊢
  split at taken
  · exact absurd taken (lt_irrefl 0)
  next takes =>
    rw [not_or, not_or, Bool.not_eq_true, Bool.not_eq_true] at takes
    obtain ⟨some_, overwrites, ascii⟩ := takes
    rw [if_neg (by simp [some_, overwrites, ascii])]
    split at taken
    · split at taken
      · exact absurd taken (lt_irrefl 0)
      next bounded inside =>
        rw [if_pos bounded, if_neg inside]
        exact ⟨(min_le_left _ _).trans whole,
          write _ taken (min_le_left _ _) overwrites ascii (by omega)⟩
    next unbounded =>
      rw [if_neg unbounded]
      exact ⟨whole, write _ taken le_rfl overwrites ascii (.inl (by omega))⟩

theorem appendAsciiFrom_eq {rounds : Nat} (enough : bytes.length ≤ rounds) :
    appendAsciiFrom rounds screen bytes = screen.putEach bytes := by
  induction rounds generalizing screen bytes with
  | zero =>
    obtain rfl := length_eq_zero_iff.mp (Nat.le_zero.mp enough)
    rfl
  | succ rounds ih =>
    cases bytes with
    | nil => rfl
    | cons byte rest =>
      rw [appendAsciiFrom]
      split
      next taken =>
        obtain ⟨le, put⟩ := screen.putAsciiRun_spec (byte :: rest) taken
        rw [ih (by rw [length_drop]; omega), put, ← putEach_append, take_append_drop]
      · rw [ih (Nat.le_of_succ_le_succ enough)]
        rfl

theorem putGlyphTimes_eq (screen : Screen) (byte : UInt8) (count : Nat) :
    screen.putGlyphTimes [byte] count = screen.putEach (List.replicate count byte) := by
  induction count generalizing screen with
  | zero => rfl
  | succ count ih => rw [putGlyphTimes, ih, replicate_succ, putEach_cons]

theorem repeatAsciiFrom_eq {rowLength rounds left : Nat} (enough : left ≤ rounds) :
    repeatAsciiFrom byte rowLength rounds left screen =
      screen.putEach (List.replicate left byte) := by
  induction rounds generalizing screen left with
  | zero =>
    obtain rfl := Nat.le_zero.mp enough
    rfl
  | succ rounds ih =>
    rw [repeatAsciiFrom]
    split
    next more =>
      dsimp only
      split
      · obtain ⟨left, rfl⟩ : ∃ rest, left = rest + 1 := ⟨left - 1, by omega⟩
        rw [ih (by omega), Nat.add_sub_cancel, replicate_succ, putEach_cons]
      next taken =>
        obtain ⟨le, put⟩ := screen.putAsciiRun_spec (List.replicate (min left rowLength) byte)
          (Nat.pos_of_ne_zero taken)
        rw [length_replicate] at le
        have front : (List.replicate (min left rowLength) byte).take
            (screen.putAsciiRun (List.replicate (min left rowLength) byte)).1 =
              List.replicate (screen.putAsciiRun (List.replicate (min left rowLength) byte)).1 byte := by
          rw [take_replicate, min_eq_left le]
        have rest : left = (screen.putAsciiRun (List.replicate (min left rowLength) byte)).1 +
            (left - (screen.putAsciiRun (List.replicate (min left rowLength) byte)).1) :=
          (Nat.add_sub_cancel' (le.trans (min_le_left _ _))).symm
        rw [ih (by omega), put, front, ← putEach_append, replicate_append_replicate, ← rest]
    · obtain rfl : left = 0 := by omega
      rfl

/-- **Runs are written as their bytes are**: output and REP, which write what they can a run at a
time, leave the screen that writing each byte leaves. -/
theorem appendAscii_eq (screen : Screen) (data : PlainText) (param : Nat) :
    screen.appendAscii data = screen.putEach data.val ∧
      screen.repeatLastGlyph param =
        if screen.lastGlyph = [] then screen
        else screen.putGlyphTimes screen.lastGlyph (screen.repeatCount param) := by
  refine ⟨appendAsciiFrom_eq le_rfl, ?_⟩
  rw [repeatLastGlyph]
  refine if_congr length_eq_zero_iff rfl ?_
  split
  next single =>
    obtain ⟨byte, last⟩ := length_eq_one_iff.mp single.1
    rw [repeatAsciiFrom_eq le_rfl, last, putGlyphTimes_eq]
    rfl
  · rfl

end Runs

end Screen

end Microide.Terminal
