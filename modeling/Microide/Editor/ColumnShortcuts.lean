/-
Shortcuts of column conversion.

A viewport answers without a walk where the bytes before the column are plain, which the memo
knows, and where the width table says that the line is plain, or tabs and then plain.

**Main results.** `shortcuts_of_regularAt`: on a regular column the shortcuts give what the walks
give; `convertsColumn_iff`: only there, and only there is the way there and back the identity.
-/

import Microide.Editor.ColumnConversion

namespace Microide.Editor

open List Text LineLayoutFacts

/-- `TextViewport::VisualColumnAt`; `facts` is what the width table says of the line, nothing where
it is not current. -/
def visualColumnAt (memos : PlainPrefixMemos) (lines : List Line) (contentRevision : Nat)
    (facts : LineLayoutFacts) (line column tabSize : Nat) : Nat × PlainPrefixMemos :=
  if lines.length ≤ line then (0, memos)
  else
    let text := lines.getD line []
    let plain :=
      if facts.known then (facts.plainAscii, memos)
      else memos.plainAsciiThroughColumn lines line column contentRevision
    if plain.1 then (min column text.length, plain.2)
    else if facts.known && facts.tabIndented then
      let lineLength := facts.leadingTabs + (facts.visualColumns - facts.leadingTabs * tabSize)
      let clamped := min column lineLength
      (if clamped ≤ facts.leadingTabs then clamped * tabSize
        else facts.leadingTabs * tabSize + (clamped - facts.leadingTabs), plain.2)
    else (visualColumnForTextColumn text column tabSize, plain.2)

/-- `TextViewport::TextColumnAtVisualColumn`. -/
def textColumnAtVisualColumn (memos : PlainPrefixMemos) (lines : List Line) (contentRevision : Nat)
    (facts : LineLayoutFacts) (line visualColumn tabSize : Nat) : Nat × PlainPrefixMemos :=
  if lines.length ≤ line then (0, memos)
  else
    let text := lines.getD line []
    let plain :=
      if facts.known then (facts.plainAscii, memos)
      else memos.plainAsciiThroughColumn lines line visualColumn contentRevision
    if plain.1 then (min visualColumn text.length, plain.2)
    else if facts.known && facts.tabIndented then
      let lineLength := facts.leadingTabs + (facts.visualColumns - facts.leadingTabs * tabSize)
      let indentWidth := facts.leadingTabs * tabSize
      if visualColumn ≥ indentWidth then
        (min (facts.leadingTabs + (visualColumn - indentWidth)) lineLength, plain.2)
      else
        let intoTab := visualColumn % tabSize
        (visualColumn / tabSize + (if intoTab * 2 ≤ tabSize then 0 else 1), plain.2)
    else (textColumnForVisualColumn text visualColumn tabSize, plain.2)

/-- What the width table offers of a line: nothing, or what was measured. -/
def CachedFacts (line : Line) (tabSize : Nat) (facts : LineLayoutFacts) : Prop :=
  facts = {} ∨ facts = (measureLineFacts line tabSize).reported

/-- A column converts: the cached conversions at it are the walks, in every run of the memo and
whatever the width table offers; and from a cluster boundary the way there and back returns. -/
structure ConvertsColumn (line : Line) (tabSize column : Nat) : Prop where
  shortcuts : ∀ contents memos contentRevision lineIndex facts, MemoRun contents memos →
    (contents contentRevision)[lineIndex]? = some line → CachedFacts line tabSize facts →
      (visualColumnAt memos (contents contentRevision) contentRevision facts lineIndex column
          tabSize).1 = visualColumnForTextColumn line column tabSize ∧
        (textColumnAtVisualColumn memos (contents contentRevision) contentRevision facts lineIndex
          column tabSize).1 = textColumnForVisualColumn line column tabSize
  roundTrip : ∀ before after, codePoints line = before ++ after → before.flatten.length = column →
    BeginsCluster after →
      textColumnForVisualColumn line (visualColumnForTextColumn line column tabSize) tabSize = column

/-- A column is regular: no mark stands right behind plain bytes, and the clamp of a cluster
boundary goes back over no code point with a cell. -/
structure RegularAt (line : Line) (column : Nat) : Prop where
  noMark : PlainTo line column → BeginsCluster (codePoints (line.drop column))
  clampKeeps : ∀ before after, codePoints line = before ++ after →
    before.flatten.length = column → BeginsCluster after → ∀ front glyph back,
      before = front ++ glyph :: back → clampTextColumn line column ≤ front.flatten.length →
        isZeroWidth glyph = true

section RoundTrip

variable {tabSize column : Nat} {line : Line}

theorem startingBefore_left {i : Nat} {before : List Line} (le : column ≤ i + before.flatten.length)
    (after : List Line) : startingBefore column i (before ++ after) = startingBefore column i before := by
  induction before generalizing i with
  | nil => exact startingBefore_of_le le after
  | cons glyph before ih =>
    rw [flatten_cons, length_append, ← Nat.add_assoc] at le
    rw [cons_append, startingBefore, startingBefore, ih le]

theorem startingBefore_early {i : Nat} {glyphs front back : List Line} {glyph : Line}
    (cut : startingBefore column i glyphs = front ++ glyph :: back) :
    i + front.flatten.length < column := by
  induction glyphs generalizing i front with
  | nil => exact absurd cut.symm (append_ne_nil_of_right_ne_nil _ (cons_ne_nil _ _))
  | cons first glyphs ih =>
    rw [startingBefore] at cut
    split at cut
    next early =>
      cases front with
      | nil => exact early
      | cons head front =>
        obtain ⟨rfl, rest⟩ := List.cons.inj cut
        rw [flatten_cons, length_append, ← Nat.add_assoc]
        exact ih rest
    · exact absurd cut.symm (append_ne_nil_of_right_ne_nil _ (cons_ne_nil _ _))

/-- Where not all code points are marks, there is a first that is none. -/
theorem exists_first_cell {glyphs : List Line} (cells : ¬∀ glyph ∈ glyphs, isZeroWidth glyph = true) :
    ∃ zero cell rest, glyphs = zero ++ cell :: rest ∧ (∀ mark ∈ zero, isZeroWidth mark = true) ∧
      isZeroWidth cell = false := by
  induction glyphs with
  | nil => exact absurd (fun _ mem => absurd mem not_mem_nil) cells
  | cons glyph glyphs ih =>
    cases first : isZeroWidth glyph with
    | false => exact ⟨[], glyph, glyphs, rfl, fun _ mem => absurd mem not_mem_nil, first⟩
    | true =>
      obtain ⟨zero, cell, rest, rfl, zeros, cell_⟩ := ih fun all =>
        cells (forall_mem_cons.mpr ⟨first, all⟩)
      exact ⟨glyph :: zero, cell, rest, rfl, forall_mem_cons.mpr ⟨first, zeros⟩, cell_⟩

/-- **The way there and back** from a cluster boundary returns exactly if the clamp goes back over
no code point with a cell. -/
theorem roundTrip_iff {before after : List Line} (cut : codePoints line = before ++ after)
    (size : before.flatten.length = column) (begins : BeginsCluster after) :
    textColumnForVisualColumn line (visualColumnForTextColumn line column tabSize) tabSize = column ↔
      ∀ front glyph back, before = front ++ glyph :: back →
        clampTextColumn line column ≤ front.flatten.length → isZeroWidth glyph = true := by
  have le := clampTextColumn_le line column
  rw [visualColumnForTextColumn_eq, cut, startingBefore_left (by omega)]
  obtain ⟨passed, split, reaches⟩ := @startingBefore_cut (clampTextColumn line column) 0 before
  have early {front back : List Line} {glyph : Line} := @startingBefore_early
    (clampTextColumn line column) 0 before front back glyph
  generalize startingBefore (clampTextColumn line column) 0 before = walked at split reaches early
  have cut' : codePoints line = walked ++ (passed ++ after) := by
    rw [cut, split, append_assoc]
  have some_ : ∀ glyph ∈ passed, glyph ≠ [] := fun glyph mem =>
    codePoint_ne_nil (cut' ▸ mem_append_right _ (mem_append_left _ mem))
  have total : walked.flatten.length + passed.flatten.length = column := by
    rw [← size, split, flatten_append, length_append]
  have marks : walked.flatten.length +
      ((passed ++ after).takeWhile isZeroWidth).flatten.length = column ↔
        ∀ glyph ∈ passed, isZeroWidth glyph = true := by
    constructor
    · intro same
      by_contra cells
      obtain ⟨zero, cell, rest, parts, zeros, cell_⟩ := exists_first_cell cells
      have taken := @takeWhile_marks zero (cell :: rest ++ after) zeros fun glyph mem => by
        cases mem
        exact cell_
      have bytes := length_pos_iff.mpr (some_ cell (by rw [parts]; simp))
      rw [parts, append_assoc, taken] at same
      rw [parts, flatten_append, flatten_cons, length_append, length_append] at total
      omega
    · intro zeros
      rw [takeWhile_marks zeros begins, total]
  rw [textColumnForVisualColumn_walk cut', marks, split]
  constructor
  · rintro zeros front glyph back parts late
    rcases append_eq_append_iff.mp parts with ⟨more, rfl, rest⟩ | ⟨more, longer, rest⟩
    · exact zeros glyph (by rw [rest]; simp)
    · cases more with
      | nil => exact zeros glyph (by rw [← nil_append passed, ← rest]; exact mem_cons_self)
      | cons first more =>
        have := early longer
        omega
  · rintro keeps glyph mem
    obtain ⟨front, back, parts⟩ := append_of_mem mem
    refine keeps (walked ++ front) glyph back (by rw [parts, append_assoc]) ?_
    have := reaches (ne_nil_of_mem mem)
    rw [flatten_append, length_append]
    omega

end RoundTrip

section Shortcuts

variable {tabSize column : Nat} {line : Line}

/-- On a regular column behind plain bytes both walks are the identity. -/
theorem plain_identity (regular : RegularAt line column) (plain : PlainTo line column) :
    visualColumnForTextColumn line column tabSize = min column line.length ∧
      textColumnForVisualColumn line column tabSize = min column line.length := by
  have begins := regular.noMark plain
  constructor
  · rw [visualColumnForTextColumn_plain plain]
    rcases clampTextColumn_plain plain with clamped | ⟨inside, back⟩
    · exact clamped
    · -- the clamp would go back over the plain byte before
      have early : clampTextColumn line column < line.length := by omega
      have cut := codePoints_plainTo plain
      have size : ((line.take column).map fun c => [c]).flatten.length = column := by
        rw [flatten_map_singleton, length_take_of_le inside.le]
      have last : line.take column = line.take (clampTextColumn line column) ++
          [line.getD (clampTextColumn line column) 0] := by
        rw [getD_eq_getElem?_getD, getElem?_eq_getElem early, Option.getD_some,
          take_concat_get', back]
      have mark := regular.clampKeeps _ _ cut size begins
        ((line.take (clampTextColumn line column)).map fun c => [c])
        [line.getD (clampTextColumn line column) 0] []
        (by rw [last, map_append]; rfl)
        (by rw [flatten_map_singleton, length_take_of_le early.le])
      have byte := plain_byte plain (by omega) early
      have step := @advanceVisualColumnAt_plain tabSize 0 _ byte
      rw [advanceVisualColumnAt_eq_iff.mpr mark] at step
      omega
  · rcases Nat.lt_or_ge column line.length with inside | past
    · have none_ := @takeWhile_marks [] _ (fun _ mem => absurd mem not_mem_nil) begins
      rw [nil_append] at none_
      rw [textColumnForVisualColumn_plain plain inside.le, none_, min_eq_left inside.le]
      rfl
    · have lands := @textColumnTo_spec tabSize column line.length (codePoints line).length 0 0 _
        le_rfl (Nat.zero_le _)
      rw [PlainTo, take_of_length_le past] at plain
      rw [min_eq_right past]
      refine lands.of_le ?_
      rw [codePoints_ascii_line fun c mem => (lt_of_plain (plain c mem)).1, walkFrom_plain plain]
      omega

theorem getElem?_getD {lines : List Line} {lineIndex : Nat} (found : lines[lineIndex]? = some line) :
    lines.getD lineIndex [] = line ∧ ¬lines.length ≤ lineIndex := by
  refine ⟨?_, Nat.not_le_of_lt (List.getElem?_eq_some_iff.mp found).1⟩
  rw [getD_eq_getElem?_getD, found]
  rfl

theorem reported_tabIndented {facts : LineLayoutFacts} (tabs : facts.reported.tabIndented = true) :
    facts.reported = facts ∧ facts.tabIndented = true := by
  unfold reported at tabs ⊢
  split at tabs
  next fits =>
    rw [if_pos fits]
    exact ⟨rfl, tabs⟩
  · exact absurd tabs Bool.false_ne_true

/-- **On a regular column the shortcuts give what the walks give.** -/
theorem shortcuts_of_regularAt (positive : 0 < tabSize) (regular : RegularAt line column)
    {contents : Nat → List Line} {memos : PlainPrefixMemos} {contentRevision lineIndex : Nat}
    {facts : LineLayoutFacts} (run : MemoRun contents memos)
    (found : (contents contentRevision)[lineIndex]? = some line)
    (cached : CachedFacts line tabSize facts) :
    (visualColumnAt memos (contents contentRevision) contentRevision facts lineIndex column
        tabSize).1 = visualColumnForTextColumn line column tabSize ∧
      (textColumnAtVisualColumn memos (contents contentRevision) contentRevision facts lineIndex
        column tabSize).1 = textColumnForVisualColumn line column tabSize := by
  obtain ⟨text, shown⟩ := getElem?_getD found
  unfold visualColumnAt textColumnAtVisualColumn
  rw [if_neg shown, if_neg shown, text]
  rcases cached with rfl | rfl
  · have asked := (plainAsciiThroughColumn_spec run.exact column found).1
    dsimp only at asked ⊢
    rw [if_neg Bool.false_ne_true]
    split
    next plain =>
      exact (plain_identity regular (asked.mp plain)).imp Eq.symm Eq.symm
    · exact ⟨rfl, rfl⟩
  · have known : (measureLineFacts line tabSize).reported.known = true := by
      unfold reported
      split <;> rfl
    have plain_ : (measureLineFacts line tabSize).reported.plainAscii =
        (measureLineFacts line tabSize).plainAscii := by
      unfold reported
      split <;> rfl
    dsimp only
    rw [known, if_pos rfl, plain_, Bool.true_and]
    split
    next plain =>
      have whole := (@measureLineFacts_plainAscii tabSize line).mp plain
      rw [PlainTo, take_length] at whole
      have plain' : PlainTo line column := fun c mem => whole c (mem_of_mem_take mem)
      exact (plain_identity regular plain').imp Eq.symm Eq.symm
    · split
      next tabs =>
        obtain ⟨same, tabs⟩ := reported_tabIndented tabs
        obtain ⟨plain, parts, bytes, -⟩ := measureLineFacts_tabIndented tabs
        rw [same, measureLineFacts_visualColumns positive]
        generalize (measureLineFacts line tabSize).leadingTabs = count at parts
        subst parts
        have length : count + (count * tabSize + plain.length - count * tabSize) =
            count + plain.length := by omega
        rw [codePoints_ascii_line (ascii_tabIndented bytes), walkFrom_tabIndented positive bytes,
          length, visualColumnForTextColumn_tabIndented positive bytes,
          textColumnForVisualColumn_tabIndented positive bytes]
        refine ⟨rfl, ?_⟩
        split <;> rfl
      · exact ⟨rfl, rfl⟩

/-- A column that converts has no mark right behind its plain bytes: without the table the way back
would stop in front of it. -/
theorem noMark_of_convertsColumn (converts : ConvertsColumn line tabSize column)
    (plain : PlainTo line column) : BeginsCluster (codePoints (line.drop column)) := by
  rcases Nat.lt_or_ge column line.length with inside | past
  · have shortcut := (converts.shortcuts (fun _ => [line]) {} 0 0 {} .cold rfl (.inl rfl)).2
    have asked := (@plainAsciiThroughColumn_spec (fun _ => [line]) {} MemoRun.cold.exact 0 0 line
      column rfl).1.mpr plain
    have answer : (textColumnAtVisualColumn {} [line] 0 {} 0 column tabSize).1 = column := by
      unfold textColumnAtVisualColumn
      rw [if_neg (show ¬[line].length ≤ 0 from Nat.not_succ_le_zero 0), if_neg Bool.false_ne_true,
        if_pos asked]
      exact min_eq_left inside.le
    rw [answer, textColumnForVisualColumn_plain plain inside.le] at shortcut
    intro glyph mem
    by_contra mark
    rw [Bool.not_eq_false] at mark
    obtain ⟨rest, more⟩ := head?_eq_some_iff.mp mem
    have some_ : glyph ≠ [] := codePoint_ne_nil (more ▸ mem_cons_self)
    have bytes := length_pos_iff.mpr some_
    rw [more, takeWhile_cons_of_pos mark, flatten_cons, length_append] at shortcut
    omega
  · rw [drop_of_length_le past]
    exact fun _ mem => by cases mem

/-- **A column converts exactly if it is regular.** -/
theorem convertsColumn_iff (positive : 0 < tabSize) :
    ConvertsColumn line tabSize column ↔ RegularAt line column := by
  constructor
  · intro converts
    refine ⟨noMark_of_convertsColumn converts, fun before after cut size begins => ?_⟩
    exact (roundTrip_iff cut size begins).mp (converts.roundTrip before after cut size begins)
  · intro regular
    constructor
    · intro contents memos contentRevision lineIndex facts run found cached
      exact shortcuts_of_regularAt positive regular run found cached
    · intro before after cut size begins
      exact (roundTrip_iff cut size begins).mpr (regular.clampKeeps before after cut size begins)

end Shortcuts

/-- The start of `ab` converts. -/
theorem convertsColumn_iff_start : ConvertsColumn [0x61, 0x62] 4 0 := by
  refine (convertsColumn_iff (by decide)).mpr ⟨fun _ glyph mem => ?_, ?_⟩
  · cases mem
    rfl
  · rintro before after cut size - front glyph back rfl -
    have mem : glyph ∈ codePoints [0x61, 0x62] := by
      rw [cut]
      simp
    have bytes := length_pos_iff.mpr (codePoint_ne_nil mem)
    rw [flatten_append, flatten_cons, length_append, length_append] at size
    omega

/-- In `e`, a combining acute and `x`, visual column 1 is byte 1 without the width table, between
the letter and its mark, and byte 3 with it. -/
theorem convertsColumn_combining :
    (textColumnAtVisualColumn {} [[0x65, 0xCC, 0x81, 0x78]] 0 {} 0 1 4).1 = 1 ∧
      (textColumnAtVisualColumn {} [[0x65, 0xCC, 0x81, 0x78]] 0
        (measureLineFacts [0x65, 0xCC, 0x81, 0x78] 4).reported 0 1 4).1 = 3 ∧
      ¬ConvertsColumn [0x65, 0xCC, 0x81, 0x78] 4 1 := by
  refine ⟨by decide +kernel, by decide +kernel, fun converts => ?_⟩
  have same := (converts.shortcuts (fun _ => [[0x65, 0xCC, 0x81, 0x78]]) {} 0 0 {} .cold rfl
    (.inl rfl)).2
  exact absurd same (by decide +kernel)

end Microide.Editor
