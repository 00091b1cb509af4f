/-
The line scanners.

`CountLineEndings`, `DecodeLines`, `MeasureLines` and `ComputeReplacementShape`, each with its own
loop. A loop that steps over the `'\n'` of a `"\r\n"` does so with `++i`; here `skip` says that a
byte is one stepped over.

`Spelled lines endings text` is the reading that they share: the lines and the break behind each
but the last.

**Main results.** `lineScanners_agree`: every text has a reading, each scanner computes its part of
it, and the lines joined by a single style of break are the text.
-/

import Microide.Editor.UndoHistory
import Microide.Text.LineBreaks

namespace Microide.Editor

open List Text

/-! ### The scanners -/

/-- `util::LineEndingSeparator`. -/
def lineEndingSeparator : LineEnding → List UInt8
  | .crlf => [cr, lf]
  | .cr => [cr]
  | .lf => [lf]

structure LineEndingCounts where
  crlf : Nat := 0
  lf : Nat := 0
  cr : Nat := 0

/-- The loop of `CountLineEndings`. -/
def countLineEndingsFrom (skip : Bool) (counts : LineEndingCounts) :
    List UInt8 → LineEndingCounts
  | [] => counts
  | c :: rest =>
    if skip then countLineEndingsFrom false counts rest
    else if c = cr then
      if rest.head? = some lf then
        countLineEndingsFrom true { counts with crlf := counts.crlf + 1 } rest
      else countLineEndingsFrom false { counts with cr := counts.cr + 1 } rest
    else if c = lf then countLineEndingsFrom false { counts with lf := counts.lf + 1 } rest
    else countLineEndingsFrom false counts rest

/-- `CountLineEndings`. -/
def countLineEndings (text : List UInt8) : LineEndingCounts := countLineEndingsFrom false {} text

/-- `DominantLineEnding`. -/
def dominantLineEnding (counts : LineEndingCounts) : LineEnding :=
  if counts.crlf ≥ counts.lf ∧ counts.crlf ≥ counts.cr ∧ counts.crlf > 0 then .crlf
  else if counts.lf ≥ counts.cr ∧ counts.lf > 0 then .lf
  else if counts.cr > 0 then .cr
  else .lf

/-- How many of the three styles stand in a text. -/
def presentStyles (counts : LineEndingCounts) : Nat :=
  (if counts.crlf > 0 then 1 else 0) + (if counts.lf > 0 then 1 else 0) +
    (if counts.cr > 0 then 1 else 0)

structure DecodedText where
  lines : List Line
  lineEnding : LineEnding := .lf
  mixedLineEndings : Bool := false

/-- The loop of `DecodeLines`; `line` is the content from `line_start` on. -/
def decodeLinesFrom (skip : Bool) (line : Line) : List UInt8 → List Line
  | [] => [line]
  | c :: rest =>
    if skip then decodeLinesFrom false line rest
    else if c ≠ cr ∧ c ≠ lf then decodeLinesFrom false (line ++ [c]) rest
    else line :: decodeLinesFrom (c == cr && rest.head? == some lf) [] rest

/-- `util::DecodeLines`. -/
def decodeLines (content : List UInt8) : DecodedText :=
  let counts := countLineEndings content
  { lines := decodeLinesFrom false [] content
    lineEnding := dominantLineEnding counts
    mixedLineEndings := presentStyles counts > 1 }

structure LineShape where
  count : Nat := 1
  lastLineSize : Nat := 0

/-- The loop of `MeasureLines`. -/
def measureLinesFrom (skip : Bool) (index lineStart count : Nat) : List UInt8 → LineShape
  | [] => ⟨count, index - lineStart⟩
  | c :: rest =>
    if skip then measureLinesFrom false (index + 1) lineStart count rest
    else if c ≠ cr ∧ c ≠ lf then measureLinesFrom false (index + 1) lineStart count rest
    else
      let paired := c == cr && rest.head? == some lf
      measureLinesFrom paired (index + 1) (if paired then index + 2 else index + 1) (count + 1) rest

/-- `util::MeasureLines`. -/
def measureLines (content : List UInt8) : LineShape := measureLinesFrom false 0 0 1 content

structure ReplacementShape where
  insertedNewlines : Nat := 0
  lastSegmentCols : Nat := 0

/-- The loop of `ComputeReplacementShape`. -/
def computeReplacementShapeFrom (skip : Bool) (shape : ReplacementShape) :
    List UInt8 → ReplacementShape
  | [] => shape
  | ch :: rest =>
    if skip then computeReplacementShapeFrom false shape rest
    else if ch = lf then computeReplacementShapeFrom false ⟨shape.insertedNewlines + 1, 0⟩ rest
    else if ch = cr then
      computeReplacementShapeFrom (rest.head? == some lf) ⟨shape.insertedNewlines + 1, 0⟩ rest
    else
      computeReplacementShapeFrom false
        ⟨shape.insertedNewlines, shape.lastSegmentCols + 1⟩ rest

/-- `ComputeReplacementShape`. -/
def computeReplacementShape (replacement : List UInt8) : ReplacementShape :=
  computeReplacementShapeFrom false {} replacement

/-! ### Readings -/

/-- A line's bytes are no breaks. -/
def Unbroken (line : Line) : Prop := ∀ c ∈ line, c ≠ cr ∧ c ≠ lf

/-- The lines of a text and the break behind each but the last. -/
inductive Spelled : List Line → List LineEnding → List UInt8 → Prop
  | last {line : Line} (unbroken : Unbroken line) : Spelled [line] [] line
  | next {line : Line} {ending : LineEnding} {lines : List Line} {endings : List LineEnding}
      {rest : List UInt8} (unbroken : Unbroken line)
      (whole : ending = .cr → rest.head? ≠ some lf) (later : Spelled lines endings rest) :
      Spelled (line :: lines) (ending :: endings) (line ++ (lineEndingSeparator ending ++ rest))

theorem Unbroken.nil : Unbroken [] := fun _ mem => absurd mem not_mem_nil

theorem unbroken_cons {c : UInt8} {line : Line} :
    Unbroken (c :: line) ↔ (c ≠ cr ∧ c ≠ lf) ∧ Unbroken line :=
  forall_mem_cons

/-- A byte in front of a reading that is no break belongs to its first line. -/
theorem Spelled.cons {lines : List Line} {endings : List LineEnding} {rest : List UInt8}
    (spelled : Spelled lines endings rest) {c : UInt8} (plain : c ≠ cr ∧ c ≠ lf) :
    ∃ lines, Spelled lines endings (c :: rest) := by
  cases spelled with
  | last unbroken => exact ⟨_, .last (unbroken_cons.mpr ⟨plain, unbroken⟩)⟩
  | next unbroken whole later =>
    exact ⟨_, .next (unbroken_cons.mpr ⟨plain, unbroken⟩) whole later⟩

/-- Every text has a reading. -/
theorem exists_spelled (text : List UInt8) : ∃ lines endings, Spelled lines endings text := by
  induction size : text.length using Nat.strong_induction_on generalizing text with
  | _ n ih =>
    subst size
    cases text with
    | nil => exact ⟨_, _, .last .nil⟩
    | cons c rest =>
      obtain ⟨lines, endings, spelled⟩ := ih rest.length (Nat.lt_succ_self _) rest rfl
      by_cases isLf : c = lf
      · subst isLf
        exact ⟨_, _, @Spelled.next [] .lf _ _ _ .nil (fun lone => LineEnding.noConfusion lone) spelled⟩
      by_cases isCr : c = cr
      · subst isCr
        by_cases paired : rest.head? = some lf
        · obtain ⟨tail, rfl⟩ := head?_eq_some_iff.mp paired
          obtain ⟨lines, endings, later⟩ :=
            ih tail.length (Nat.lt_succ_of_lt (Nat.lt_succ_self _)) tail rfl
          exact ⟨_, _,
            @Spelled.next [] .crlf _ _ _ .nil (fun lone => LineEnding.noConfusion lone) later⟩
        · exact ⟨_, _, @Spelled.next [] .cr _ _ _ .nil (fun _ => paired) spelled⟩
      · obtain ⟨lines, spelled⟩ := spelled.cons ⟨isCr, isLf⟩
        exact ⟨lines, endings, spelled⟩

theorem Spelled.length {lines : List Line} {endings : List LineEnding} {text : List UInt8}
    (spelled : Spelled lines endings text) : lines.length = endings.length + 1 := by
  induction spelled with
  | last _ => rfl
  | next _ _ _ ih => exact congrArg (· + 1) ih

/-- Where one style of break stands behind every line, joining the lines by it is the text. -/
theorem Spelled.join {lines : List Line} {endings : List LineEnding} {text : List UInt8}
    (spelled : Spelled lines endings text) {style : LineEnding} (single : ∀ e ∈ endings, e = style) :
    joinLines lines (lineEndingSeparator style) = text := by
  induction spelled with
  | last _ => exact intercalate_singleton
  | next _ _ later ih =>
    obtain ⟨rfl, single⟩ := forall_mem_cons.mp single
    have some_ := ne_nil_of_length_eq_add_one later.length
    rw [← ih single, joinLines, joinLines, intercalate_cons_of_ne_nil some_, append_assoc]

/-! ### What each scanner reads

Each loop steps along the bytes of a line, over a break, and then stands at the start of the next
line in the state it began in. -/

variable {ending : LineEnding}

section Reads

variable {lines : List Line} {endings : List LineEnding} {text rest : List UInt8} {line : Line}

theorem splitLinesFrom_line (unbroken : Unbroken line) (first : Line) :
    splitLinesFrom first false (line ++ rest) = splitLinesFrom (first ++ line) false rest := by
  induction line generalizing first with
  | nil => rw [nil_append, append_nil]
  | cons c line ih =>
    obtain ⟨⟨notCr, notLf⟩, unbroken⟩ := unbroken_cons.mp unbroken
    rw [cons_append, splitLinesFrom, if_neg notCr, if_neg notLf, ih unbroken,
      append_assoc, singleton_append]

theorem splitLinesFrom_after (alone : rest.head? ≠ some lf) (line : Line) :
    splitLinesFrom line true rest = splitLinesFrom line false rest := by
  cases rest with
  | nil => rfl
  | cons c rest =>
    have notLf : c ≠ lf := fun same => alone (congrArg some same)
    rw [splitLinesFrom, splitLinesFrom, if_neg notLf, if_neg notLf]

theorem splitLinesFrom_break (whole : ending = .cr → rest.head? ≠ some lf) :
    splitLinesFrom line false (lineEndingSeparator ending ++ rest) =
      line :: splitLinesFrom [] false rest := by
  cases ending with
  | lf => rfl
  | crlf => rfl
  | cr => exact congrArg (line :: ·) (splitLinesFrom_after (whole rfl) [])

/-- `SplitLineViews` reads the lines. -/
theorem Spelled.splitLineViews (spelled : Spelled lines endings text) :
    splitLineViews text = lines := by
  unfold Text.splitLineViews
  induction spelled with
  | @last line unbroken =>
    have whole := @splitLinesFrom_line [] line unbroken []
    rwa [append_nil] at whole
  | next unbroken whole _ ih =>
    rw [splitLinesFrom_line unbroken, splitLinesFrom_break whole, ih, nil_append]

theorem decodeLinesFrom_line (unbroken : Unbroken line) (first : Line) :
    decodeLinesFrom false first (line ++ rest) = decodeLinesFrom false (first ++ line) rest := by
  induction line generalizing first with
  | nil => rw [nil_append, append_nil]
  | cons c line ih =>
    obtain ⟨plain, unbroken⟩ := unbroken_cons.mp unbroken
    rw [cons_append, decodeLinesFrom, if_neg Bool.false_ne_true, if_pos plain, ih unbroken,
      append_assoc, singleton_append]

theorem pairsLf_eq_false (alone : rest.head? ≠ some lf) : (rest.head? == some lf) = false :=
  beq_eq_false_iff_ne.mpr alone

theorem decodeLinesFrom_break (whole : ending = .cr → rest.head? ≠ some lf) :
    decodeLinesFrom false line (lineEndingSeparator ending ++ rest) =
      line :: decodeLinesFrom false [] rest := by
  cases ending with
  | lf => rfl
  | crlf => rfl
  | cr =>
    have step : decodeLinesFrom false line (cr :: rest) =
        line :: decodeLinesFrom (rest.head? == some lf) [] rest := rfl
    rw [pairsLf_eq_false (whole rfl)] at step
    exact step

/-- `DecodeLines` reads the lines. -/
theorem Spelled.decodeLines (spelled : Spelled lines endings text) :
    (decodeLines text).lines = lines := by
  unfold Editor.decodeLines
  dsimp only
  induction spelled with
  | @last line unbroken =>
    have whole := @decodeLinesFrom_line [] line unbroken []
    rwa [append_nil] at whole
  | next unbroken whole _ ih =>
    rw [decodeLinesFrom_line unbroken, decodeLinesFrom_break whole, ih, nil_append]

theorem countLineEndingsFrom_line (unbroken : Unbroken line) (counts : LineEndingCounts) :
    countLineEndingsFrom false counts (line ++ rest) = countLineEndingsFrom false counts rest := by
  induction line with
  | nil => rfl
  | cons c line ih =>
    obtain ⟨⟨notCr, notLf⟩, unbroken⟩ := unbroken_cons.mp unbroken
    rw [cons_append, countLineEndingsFrom, if_neg Bool.false_ne_true, if_neg notCr,
      if_neg notLf, ih unbroken]

/-- One more break of a style. -/
def LineEndingCounts.add (counts : LineEndingCounts) : LineEnding → LineEndingCounts
  | .crlf => { counts with crlf := counts.crlf + 1 }
  | .lf => { counts with lf := counts.lf + 1 }
  | .cr => { counts with cr := counts.cr + 1 }

/-- The count of a style. -/
def LineEndingCounts.of (counts : LineEndingCounts) : LineEnding → Nat
  | .crlf => counts.crlf
  | .lf => counts.lf
  | .cr => counts.cr

theorem LineEndingCounts.of_add (counts : LineEndingCounts) (ending style : LineEnding) :
    (counts.add ending).of style = counts.of style + if ending = style then 1 else 0 := by
  cases ending <;> cases style <;> rfl

theorem countLineEndingsFrom_break (whole : ending = .cr → rest.head? ≠ some lf)
    (counts : LineEndingCounts) :
    countLineEndingsFrom false counts (lineEndingSeparator ending ++ rest) =
      countLineEndingsFrom false (counts.add ending) rest := by
  cases ending with
  | lf => rfl
  | crlf => rfl
  | cr =>
    have isCr : cr = cr := rfl
    rw [lineEndingSeparator, singleton_append, countLineEndingsFrom,
      if_neg Bool.false_ne_true, if_pos isCr, if_neg (whole rfl), LineEndingCounts.add]

/-- `CountLineEndings` counts the breaks of each style. -/
theorem Spelled.countLineEndings (spelled : Spelled lines endings text) (style : LineEnding) :
    (countLineEndings text).of style = endings.count style := by
  have from_ : ∀ counts : LineEndingCounts,
      (countLineEndingsFrom false counts text).of style = counts.of style + endings.count style := by
    induction spelled with
    | @last line unbroken =>
      intro counts
      have whole := @countLineEndingsFrom_line [] line unbroken counts
      rw [append_nil] at whole
      rw [whole, countLineEndingsFrom, count_nil, Nat.add_zero]
    | next unbroken whole _ ih =>
      intro counts
      rw [countLineEndingsFrom_line unbroken, countLineEndingsFrom_break whole, ih,
        LineEndingCounts.of_add, count_cons, Nat.add_assoc, Nat.add_comm (List.count _ _)]
      simp only [beq_iff_eq]
  have none_ : ({} : LineEndingCounts).of style = 0 := by cases style <;> rfl
  rw [Editor.countLineEndings, from_, none_, Nat.zero_add]

theorem measureLinesFrom_line (unbroken : Unbroken line) (index lineStart count : Nat) :
    measureLinesFrom false index lineStart count (line ++ rest) =
      measureLinesFrom false (index + line.length) lineStart count rest := by
  induction line generalizing index with
  | nil => rfl
  | cons c line ih =>
    obtain ⟨plain, unbroken⟩ := unbroken_cons.mp unbroken
    rw [cons_append, measureLinesFrom, if_neg Bool.false_ne_true, if_pos plain, ih unbroken,
      length_cons, Nat.add_assoc, Nat.add_comm 1]

/-- Behind a break the loop of `MeasureLines` stands at the start of a line. -/
theorem measureLinesFrom_break (whole : ending = .cr → rest.head? ≠ some lf)
    (index lineStart count : Nat) :
    ∃ start, measureLinesFrom false index lineStart count (lineEndingSeparator ending ++ rest) =
      measureLinesFrom false start start (count + 1) rest := by
  cases ending with
  | lf => exact ⟨index + 1, rfl⟩
  | crlf => exact ⟨index + 2, rfl⟩
  | cr =>
    have step : measureLinesFrom false index lineStart count (cr :: rest) =
        measureLinesFrom (rest.head? == some lf) (index + 1)
          (if rest.head? == some lf then index + 2 else index + 1) (count + 1) rest := rfl
    rw [pairsLf_eq_false (whole rfl), if_neg Bool.false_ne_true] at step
    exact ⟨index + 1, step⟩

/-- The length of the last line. -/
def lastSize (lines : List Line) : Nat := (lines.getLastD []).length

theorem Spelled.lastSize_cons (spelled : Spelled lines endings text) (line : Line) :
    lastSize (line :: lines) = lastSize lines := by
  cases spelled <;> rfl

/-- `MeasureLines` counts the lines and measures the last. -/
theorem Spelled.measureLines (spelled : Spelled lines endings text) :
    measureLines text = ⟨lines.length, lastSize lines⟩ := by
  have from_ : ∀ start count : Nat, measureLinesFrom false start start (count + 1) text =
      ⟨count + lines.length, lastSize lines⟩ := by
    induction spelled with
    | @last line unbroken =>
      intro start count
      have whole := @measureLinesFrom_line [] line unbroken start start (count + 1)
      rw [append_nil] at whole
      rw [whole, measureLinesFrom, Nat.add_sub_cancel_left]
      rfl
    | next unbroken whole later ih =>
      intro start count
      obtain ⟨behind, step⟩ := measureLinesFrom_break whole _ start (count + 1)
      rw [measureLinesFrom_line unbroken, step, ih, later.lastSize_cons, length_cons,
        Nat.add_assoc, Nat.add_comm 1]
  rw [Editor.measureLines, from_, Nat.zero_add]

theorem computeReplacementShapeFrom_line (unbroken : Unbroken line) (shape : ReplacementShape) :
    computeReplacementShapeFrom false shape (line ++ rest) =
      computeReplacementShapeFrom false
        ⟨shape.insertedNewlines, shape.lastSegmentCols + line.length⟩ rest := by
  induction line generalizing shape with
  | nil => rfl
  | cons c line ih =>
    obtain ⟨⟨notCr, notLf⟩, unbroken⟩ := unbroken_cons.mp unbroken
    rw [cons_append, computeReplacementShapeFrom, if_neg Bool.false_ne_true, if_neg notLf,
      if_neg notCr, ih unbroken, length_cons, Nat.add_assoc, Nat.add_comm 1]

theorem computeReplacementShapeFrom_break (whole : ending = .cr → rest.head? ≠ some lf)
    (shape : ReplacementShape) :
    computeReplacementShapeFrom false shape (lineEndingSeparator ending ++ rest) =
      computeReplacementShapeFrom false ⟨shape.insertedNewlines + 1, 0⟩ rest := by
  cases ending with
  | lf => rfl
  | crlf => rfl
  | cr =>
    have step : computeReplacementShapeFrom false shape (cr :: rest) =
        computeReplacementShapeFrom (rest.head? == some lf) ⟨shape.insertedNewlines + 1, 0⟩ rest :=
      rfl
    rw [pairsLf_eq_false (whole rfl)] at step
    exact step

/-- `ComputeReplacementShape` counts the breaks and measures the last line. -/
theorem Spelled.computeReplacementShape (spelled : Spelled lines endings text) :
    computeReplacementShape text = ⟨endings.length, lastSize lines⟩ := by
  have from_ : ∀ count : Nat, computeReplacementShapeFrom false ⟨count, 0⟩ text =
      ⟨count + endings.length, lastSize lines⟩ := by
    induction spelled with
    | @last line unbroken =>
      intro count
      have whole := @computeReplacementShapeFrom_line [] line unbroken ⟨count, 0⟩
      rw [append_nil] at whole
      rw [whole, computeReplacementShapeFrom, Nat.zero_add]
      rfl
    | next unbroken whole later ih =>
      intro count
      rw [computeReplacementShapeFrom_line unbroken, computeReplacementShapeFrom_break whole, ih,
        later.lastSize_cons, length_cons, Nat.add_assoc, Nat.add_comm 1]
  rw [Editor.computeReplacementShape, from_, Nat.zero_add]

end Reads

/-! ### The scanners agree -/

/-- With one style present, a style that is counted is the dominant one. -/
theorem dominantLineEnding_of_single {counts : LineEndingCounts} (single : presentStyles counts ≤ 1)
    {style : LineEnding} (present : 0 < counts.of style) : dominantLineEnding counts = style := by
  unfold presentStyles at single
  unfold dominantLineEnding
  cases style <;> dsimp only [LineEndingCounts.of] at present <;> split_ifs at single ⊢ <;> grind

/-- The lines and breaks that the scanners read. -/
structure ScannersRead (text : List UInt8) (lines : List Line) (endings : List LineEnding) :
    Prop where
  spelled : Spelled lines endings text
  views : splitLineViews text = lines
  decoded : (decodeLines text).lines = lines
  normalizedViews : splitLineViews (normalizeLineEndings text) = lines
  normalizedLines : (decodeLines (normalizeLineEndings text)).lines = lines
  counted : ∀ style, (countLineEndings text).of style = endings.count style
  measured : measureLines text = ⟨endings.length + 1, lastSize lines⟩
  shaped : computeReplacementShape text = ⟨endings.length, lastSize lines⟩

/-- **The line scanners agree**, and a text with a single style of break is its lines joined by
it. -/
theorem lineScanners_agree (text : List UInt8) :
    (∃ lines endings, ScannersRead text lines endings) ∧
      ((decodeLines text).mixedLineEndings = false →
        joinLines (decodeLines text).lines (lineEndingSeparator (decodeLines text).lineEnding) =
          text) := by
  obtain ⟨lines, endings, spelled⟩ := exists_spelled text
  constructor
  · have normalized : splitLineViews (normalizeLineEndings text) = lines := by
      have unbroken : cr ∉ normalizeLineEndings text := cr_notMem_normalizeFrom _ _
      rw [splitLineViews_eq_splitOn unbroken, ← splitLineViews_eq_normalized, spelled.splitLineViews]
    obtain ⟨_, _, again⟩ := exists_spelled (normalizeLineEndings text)
    refine ⟨lines, endings, spelled, spelled.splitLineViews, spelled.decodeLines, normalized, ?_,
      spelled.countLineEndings, ?_, spelled.computeReplacementShape⟩
    · rw [again.decodeLines, ← again.splitLineViews, normalized]
    · rw [spelled.measureLines, spelled.length]
  · intro single
    rw [spelled.decodeLines]
    refine spelled.join fun ending mem => (dominantLineEnding_of_single ?_ ?_).symm
    · exact Nat.le_of_not_lt (of_decide_eq_false single)
    · rw [spelled.countLineEndings]
      exact count_pos_iff.mpr mem

theorem lineScanners_agree_crlf :
    (decodeLines [97, cr, lf, 98, cr, lf]).mixedLineEndings = false ∧
      joinLines (decodeLines [97, cr, lf, 98, cr, lf]).lines
          (lineEndingSeparator (decodeLines [97, cr, lf, 98, cr, lf]).lineEnding) =
        [97, cr, lf, 98, cr, lf] :=
  ⟨by decide, (lineScanners_agree [97, cr, lf, 98, cr, lf]).2 (by decide)⟩

end Microide.Editor
