/-
Wrapping a line from the middle.

The wrap of a row looks at no byte behind the one it breaks before, and through plain text it
breaks within the wrap width. So two lines that are the same plain text up to an edit share the
rows that cannot have reached it, and the rows from there on are those of the rest of the line.

**Main results.** `hangingIndentFor_take`: the indent is a matter of the first bytes;
`wrapRowsFrom_drop`: rows from an offset are rows of what follows it; `wrapRows_shared`: the rows
before an edit are shared.
-/

import Microide.Editor.PlainPrefix
import Microide.Editor.SoftWrap

namespace Microide.Editor

open List Text RowScan

/-! ### The hanging indent -/

theorem le_leadingIndent (tabSize visual : Nat) (text : Line) :
    visual ≤ leadingIndent tabSize visual text := by
  induction text generalizing visual with
  | nil => exact le_rfl
  | cons ch rest ih =>
    rw [leadingIndent]
    split
    · exact le_rfl
    · exact (lt_advanceVisualColumn tabSize visual ch).le.trans (ih _)

/-- The first bytes tell the indent, or it takes a column for each of them. -/
theorem leadingIndent_take (tabSize visual count : Nat) (text : Line) :
    leadingIndent tabSize visual (text.take count) = leadingIndent tabSize visual text ∨
      (visual + count ≤ leadingIndent tabSize visual (text.take count) ∧
        visual + count ≤ leadingIndent tabSize visual text) := by
  induction text generalizing visual count with
  | nil => exact .inl (by rw [take_nil])
  | cons ch rest ih =>
    cases count with
    | zero => exact .inr ⟨le_leadingIndent _ _ _, le_leadingIndent _ _ _⟩
    | succ count =>
      rw [take_succ_cons, leadingIndent, leadingIndent]
      split
      · exact .inl rfl
      · have column := lt_advanceVisualColumn tabSize visual ch
        rcases ih (advanceVisualColumn tabSize visual ch) count with same | far
        · exact .inl same
        · exact .inr ⟨by omega, by omega⟩

/-- The indent is clamped, so a little more than the wrap width tells it. -/
theorem hangingIndentFor_take {wrapColumns count : Nat} (enough : wrapColumns < count)
    (tabSize : Nat) (text : Line) : hangingIndentFor (text.take count) tabSize wrapColumns =
      hangingIndentFor text tabSize wrapColumns := by
  unfold hangingIndentFor
  rcases leadingIndent_take tabSize 0 count text with same | far
  · rw [same]
  · omega

/-! ### Rows from an offset -/

def RowScan.shift (scan : RowScan) (offset : Nat) : RowScan :=
  { scan with i := scan.i + offset, lastBreakText := scan.lastBreakText + offset }

theorem RowScan.advance_shift (scan : RowScan) (offset nextVisual : Nat) (glyph : Line) :
    (scan.shift offset).advance nextVisual glyph = (scan.advance nextVisual glyph).shift offset := by
  have same : scan.lastBreakText + offset = scan.i + offset ↔ scan.lastBreakText = scan.i :=
    Nat.add_right_cancel_iff
  unfold advance shift
  simp only [same, Nat.add_right_comm _ offset]
  split_ifs <;> rfl

theorem scanRow_shift (tabSize effectiveWrap start startText offset : Nat) (scan : RowScan)
    (glyphs : List Line) :
    scanRow tabSize effectiveWrap start (startText + offset) (scan.shift offset) glyphs =
      ((scanRow tabSize effectiveWrap start startText scan glyphs).1,
        (scanRow tabSize effectiveWrap start startText scan glyphs).2.map (· + offset)) := by
  induction glyphs generalizing scan with
  | nil => rfl
  | cons glyph glyphs ih =>
    have later : startText + offset < scan.lastBreakText + offset ↔ startText < scan.lastBreakText :=
      Nat.add_lt_add_iff_right
    rw [scanRow, scanRow]
    dsimp only [shift] at ih ⊢
    simp only [later]
    split_ifs
    · rfl
    · rfl
    · have next := ih (scan.advance (advanceVisualColumnAt tabSize scan.visual glyph) glyph)
      rw [← next]
      exact congrArg (fun scan => scanRow tabSize effectiveWrap start (startText + offset) scan glyphs)
        (advance_shift scan offset _ glyph)

theorem wrapRowsFrom_drop (tabSize wrapColumns hangingIndent offset : Nat) (text : Line)
    (rounds start startText : Nat) :
    wrapRowsFrom tabSize wrapColumns hangingIndent text rounds start (startText + offset) =
      wrapRowsFrom tabSize wrapColumns hangingIndent (text.drop offset) rounds start startText := by
  induction rounds generalizing start startText with
  | zero => rfl
  | succ rounds ih =>
    have shifted := scanRow_shift tabSize (wrapColumns - indentAt hangingIndent start) start startText
      offset ⟨start, startText, start, startText⟩ (codePoints ((text.drop offset).drop startText))
    rw [wrapRowsFrom, wrapRowsFrom]
    dsimp only [shift] at shifted ⊢
    rw [drop_drop, Nat.add_comm offset startText] at shifted ⊢
    rw [shifted]
    cases (scanRow tabSize (wrapColumns - indentAt hangingIndent start) start startText
      ⟨start, startText, start, startText⟩ (codePoints (text.drop (startText + offset)))).2 with
    | none => rfl
    | some breakText => exact congrArg _ (ih _ _)

/-- A break takes bytes and leaves some. -/
theorem scanRow_break {tabSize effectiveWrap start startText breakText : Nat} {text : Line}
    (found : (scanRow tabSize effectiveWrap start startText ⟨start, startText, start, startText⟩
      (codePoints (text.drop startText))).2 = some breakText) :
    startText < breakText ∧ breakText < text.length := by
  have begun : Scanned tabSize effectiveWrap start startText [] ⟨start, startText, start, startText⟩ :=
    ⟨rfl, rfl, .inr (Nat.zero_le _), [], [], rfl, rfl, rfl, fun _ mem => by cases mem⟩
  have spec := @scanRow_spec _ _ _ _ _ _ begun (fun _ mem => absurd mem not_mem_nil)
    (codePoints (text.drop startText)) fun _ mem => codePoint_ne_nil mem
  rw [nil_append] at spec
  generalize scanRow tabSize effectiveWrap start startText ⟨start, startText, start, startText⟩
    (codePoints (text.drop startText)) = result at spec found
  obtain ⟨visual, _⟩ := result
  subst found
  obtain ⟨row, rest, cut, some_, -, rfl, cells, rfl, -⟩ := spec
  have pieces {glyphs : List Line} (nonempty : glyphs ≠ [])
      (sub : ∀ glyph ∈ glyphs, glyph ∈ codePoints (text.drop startText)) :
      1 ≤ glyphs.flatten.length := by
    obtain ⟨glyph, glyphs, rfl⟩ := exists_cons_of_ne_nil nonempty
    have := (codePoint_length (sub glyph mem_cons_self)).1
    rw [flatten_cons, length_append]
    omega
  have before : 1 ≤ row.flatten.length := by
    refine pieces ?_ fun glyph mem => cut ▸ mem_append_left _ mem
    rintro rfl
    exact lt_irrefl start cells
  have behind : 1 ≤ rest.flatten.length :=
    pieces some_ fun glyph mem => cut ▸ mem_append_right _ mem
  have whole := congrArg List.length (flatten_codePoints (text.drop startText))
  rw [cut, flatten_append, length_append, length_drop] at whole
  omega

theorem wrapRowsFrom_congr (tabSize wrapColumns hangingIndent : Nat) {text : Line}
    {rounds more start startText : Nat} (some_ : startText < text.length)
    (enough : text.length - startText ≤ rounds) (enough' : text.length - startText ≤ more) :
    wrapRowsFrom tabSize wrapColumns hangingIndent text rounds start startText =
      wrapRowsFrom tabSize wrapColumns hangingIndent text more start startText := by
  induction rounds generalizing more start startText with
  | zero => omega
  | succ rounds ih =>
    cases more with
    | zero => omega
    | succ more =>
      rw [wrapRowsFrom, wrapRowsFrom]
      cases found : (scanRow tabSize (wrapColumns - indentAt hangingIndent start) start startText
          ⟨start, startText, start, startText⟩ (codePoints (text.drop startText))).2 with
      | none => rfl
      | some breakText =>
        have bounds := scanRow_break found
        exact congrArg _ (ih bounds.2 (by omega) (by omega))

/-- **Resuming the wrap** at an offset gives the rows from there on. -/
theorem wrapLineSegmentsFrom_drop (tabSize wrapColumns hangingIndent : Nat) {text : Line}
    {rounds start startText : Nat} (some_ : startText < text.length)
    (enough : text.length - startText ≤ rounds) :
    wrapLineSegmentsFrom (text.drop startText) tabSize wrapColumns start hangingIndent =
      wrapRowsFrom tabSize wrapColumns hangingIndent text rounds start startText := by
  have tail : text.drop startText ≠ [] :=
    ne_nil_of_length_pos (by rw [length_drop]; omega)
  have moved := wrapRowsFrom_drop tabSize wrapColumns hangingIndent startText text
    (text.drop startText).length start 0
  rw [Nat.zero_add] at moved
  rw [wrapLineSegmentsFrom, if_neg tail, ← moved]
  exact wrapRowsFrom_congr tabSize wrapColumns hangingIndent some_ (by rw [length_drop]) enough

/-! ### Rows before an edit -/

/-- A row that starts in plain text breaks within its width, whatever follows. -/
theorem scanRow_plain {tabSize effectiveWrap start done : Nat} {scan : RowScan} {front : Line}
    (plain : ∀ c ∈ front, isNonPlain c = false) (room : 1 ≤ effectiveWrap)
    (visual : scan.visual = start + done) (offset : scan.i = scan.visual)
    (aligned : scan.lastBreakText = scan.lastBreakVisual) (low : start ≤ scan.lastBreakVisual)
    (high : scan.lastBreakVisual ≤ scan.visual) (fits : done ≤ effectiveWrap)
    (far : effectiveWrap < done + front.length) :
    ∃ place, start < place ∧ place ≤ start + effectiveWrap ∧ ∀ rest,
      scanRow tabSize effectiveWrap start start scan (front.map (fun c => [c]) ++ rest) =
        (place, some place) := by
  induction front generalizing scan done with
  | nil => rw [length_nil] at far; omega
  | cons c front ih =>
    obtain ⟨plain, plain'⟩ := forall_mem_cons.mp plain
    have step := @advanceVisualColumnAt_plain tabSize scan.visual c plain
    rw [length_cons] at far
    by_cases full : done = effectiveWrap
    · have overflow : scan.visual + 1 > scan.visual ∧ scan.visual + 1 - start > effectiveWrap ∧
          scan.visual > start := by omega
      by_cases usable : scan.lastBreakText > start ∧ scan.lastBreakVisual > start
      · refine ⟨scan.lastBreakVisual, usable.2, by omega, fun rest => ?_⟩
        rw [map_cons, cons_append, scanRow, step, if_pos overflow, if_pos usable, aligned]
      · refine ⟨scan.visual, by omega, by omega, fun rest => ?_⟩
        rw [map_cons, cons_append, scanRow, step, if_pos overflow, if_neg usable, offset]
    · have stays : ¬(scan.visual + 1 > scan.visual ∧ scan.visual + 1 - start > effectiveWrap ∧
          scan.visual > start) := by omega
      have next : (scan.advance (scan.visual + 1) [c]).visual = scan.visual + 1 ∧
          (scan.advance (scan.visual + 1) [c]).i = scan.visual + 1 ∧
          (scan.advance (scan.visual + 1) [c]).lastBreakText =
            (scan.advance (scan.visual + 1) [c]).lastBreakVisual ∧
          scan.lastBreakVisual ≤ (scan.advance (scan.visual + 1) [c]).lastBreakVisual ∧
          (scan.advance (scan.visual + 1) [c]).lastBreakVisual ≤ scan.visual + 1 := by
        unfold advance
        dsimp only [length_singleton]
        split
        · refine ⟨rfl, ?_, ?_, ?_, ?_⟩ <;> dsimp only <;> omega
        · rw [if_neg fun mark => absurd mark.1 (Nat.succ_ne_self _)]
          refine ⟨rfl, ?_, ?_, ?_, ?_⟩ <;> dsimp only <;> omega
      obtain ⟨place, low', high', found⟩ := @ih (done + 1) (scan.advance (scan.visual + 1) [c])
        plain' (by omega) (by omega) (by omega) (by omega) (by omega) (by omega) (by omega)
      refine ⟨place, low', high', fun rest => ?_⟩
      rw [map_cons, cons_append, scanRow, step, if_neg stays]
      exact found rest

/-- The code points from a plain byte on. -/
theorem codePoints_drop_plain {text : Line} {start column : Nat} (plain : PlainTo text column)
    (le : start ≤ column) (inside : column ≤ text.length) : codePoints (text.drop start) =
      ((text.take column).drop start).map (fun c => [c]) ++ codePoints (text.drop column) := by
  have cut : text.drop start = (text.take column).drop start ++ text.drop column := by
    conv_lhs => rw [← take_append_drop column text]
    rw [drop_append_of_le_length (by rw [length_take]; omega)]
  rw [cut, codePoints_append_ascii]
  intro c mem
  exact (lt_of_plain (plain c (mem_of_mem_drop mem))).1

section Shared

variable {text text' : Line} {column tabSize wrapColumns hangingIndent : Nat}

/-- **The rows before an edit are shared**: those that start more than a row before it. -/
theorem wrapRows_shared (same : text.take column = text'.take column)
    (inside : column ≤ text.length) (inside' : column ≤ text'.length) (plain : PlainTo text column)
    (room : 1 ≤ wrapColumns) (narrow : hangingIndent ≤ wrapColumns / 2) {start rounds rounds' : Nat}
    (begins : start ≤ column) (enough : text.length - start ≤ rounds)
    (enough' : text'.length - start ≤ rounds') : ∃ kept resume more more',
      wrapRowsFrom tabSize wrapColumns hangingIndent text rounds start start =
        kept ++ wrapRowsFrom tabSize wrapColumns hangingIndent text more resume resume ∧
      wrapRowsFrom tabSize wrapColumns hangingIndent text' rounds' start start =
        kept ++ wrapRowsFrom tabSize wrapColumns hangingIndent text' more' resume resume ∧
      text.length - resume ≤ more ∧ text'.length - resume ≤ more' ∧
      (resume < column ∨ kept = [] ∧ resume = start) ∧ column ≤ resume + wrapColumns ∧
      ∀ row ∈ kept, row.visualStart + wrapColumns < column := by
  induction rounds generalizing start rounds' with
  | zero =>
    refine ⟨[], start, 0, rounds', rfl, rfl, enough, enough', .inr ⟨rfl, rfl⟩, ?_,
      fun _ mem => absurd mem not_mem_nil⟩
    omega
  | succ rounds ih =>
    by_cases far : column ≤ start + wrapColumns
    · exact ⟨[], start, rounds + 1, rounds', rfl, rfl, enough, enough',
        .inr ⟨rfl, rfl⟩, far, fun _ mem => absurd mem not_mem_nil⟩
    · have before : start + wrapColumns < column := Nat.lt_of_not_le far
      obtain ⟨rounds', rfl⟩ : ∃ more, rounds' = more + 1 := ⟨rounds' - 1, by omega⟩
      have clamp : indentAt hangingIndent start ≤ wrapColumns / 2 := by
        rw [indentAt]
        split <;> omega
      have plain' : PlainTo text' column := by
        rw [PlainTo, ← same]
        exact plain
      have front : ∀ c ∈ (text.take column).drop start, isNonPlain c = false := fun c mem =>
        plain c (mem_of_mem_drop mem)
      obtain ⟨place, low, high, found⟩ := @scanRow_plain tabSize
        (wrapColumns - indentAt hangingIndent start) start 0 ⟨start, start, start, start⟩ _ front
        (by omega) rfl rfl rfl le_rfl le_rfl (Nat.zero_le _)
        (by rw [length_drop, length_take]; omega)
      obtain ⟨kept, resume, more, more', rows, rows', enough, enough', early, reaches, starts⟩ :=
        @ih place rounds' (by omega) (by omega) (by omega)
      refine ⟨⟨start, place, indentAt hangingIndent start⟩ :: kept, resume, more, more', ?_, ?_,
        enough, enough', .inl ?_, reaches, forall_mem_cons.mpr ⟨before, starts⟩⟩
      · rw [wrapRowsFrom, codePoints_drop_plain plain begins inside, found]
        exact congrArg _ rows
      · rw [wrapRowsFrom, codePoints_drop_plain plain' begins inside', ← same, found]
        exact congrArg _ rows'
      · rcases early with early | ⟨-, rfl⟩
        · exact early
        · omega

end Shared

end Microide.Editor
