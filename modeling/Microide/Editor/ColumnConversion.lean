/-
Columns of text and of the screen.

The walk from a byte column of a line to its visual column, and the walk back, which lands on the
nearer side of the cluster the visual column is in.

**Main results.** `visualColumnForTextColumn_eq`: the walk is over the code points that start before
the column; `textColumnTo_spec`: where the walk back lands; `textColumnForVisualColumn_walk`: from
where the walk has been it lands behind the marks that follow.
-/

import Microide.Editor.CaretSets
import Microide.Editor.LineFacts
import Microide.Editor.SoftWrap

namespace Microide.Editor

open List Text

/-! ### The walks -/

/-- The loop of `VisualColumnForTextColumn`. -/
def visualColumnTo (tabSize column : Nat) : Nat → Nat → List Line → Nat
  | _, visualColumn, [] => visualColumn
  | i, visualColumn, glyph :: glyphs =>
    if i < column then
      visualColumnTo tabSize column (i + glyph.length)
        (advanceVisualColumnAt tabSize visualColumn glyph) glyphs
    else visualColumn

/-- `TextLayout::VisualColumnForTextColumn`. -/
def visualColumnForTextColumn (line : Line) (textColumn tabSize : Nat) : Nat :=
  let clampedColumn := clampTextColumn line textColumn
  let plainPrefix := firstNonPlainAsciiByte (line.take clampedColumn)
  visualColumnTo tabSize clampedColumn plainPrefix plainPrefix (codePoints (line.drop plainPrefix))

/-- The loop of `TextColumnForVisualColumn`, at most `rounds` clusters. -/
def textColumnTo (tabSize visualColumn lineSize : Nat) : Nat → Nat → Nat → List Line → Nat
  | 0, _, _, _ => lineSize
  | _ + 1, _, _, [] => lineSize
  | rounds + 1, i, currentVisual, glyph :: glyphs =>
    let nextText := i + glyph.length
    let nextVisual := advanceVisualColumnAt tabSize currentVisual glyph
    if nextVisual = currentVisual then
      textColumnTo tabSize visualColumn lineSize rounds nextText currentVisual glyphs
    else
      let marks := glyphs.takeWhile fun mark =>
        advanceVisualColumnAt tabSize nextVisual mark == nextVisual
      let clusterEnd := nextText + marks.flatten.length
      if visualColumn < nextVisual then
        if visualColumn - currentVisual ≤ nextVisual - visualColumn then i else clusterEnd
      else
        textColumnTo tabSize visualColumn lineSize rounds clusterEnd nextVisual
          (glyphs.drop marks.length)

/-- `TextLayout::TextColumnForVisualColumn`. Every round takes a code point. -/
def textColumnForVisualColumn (line : Line) (visualColumn tabSize : Nat) : Nat :=
  textColumnTo tabSize visualColumn line.length (codePoints line).length 0 0 (codePoints line)

/-! ### Where the walks go -/

/-- The code points that start before a column, the first at offset `i`. -/
def startingBefore (column : Nat) : Nat → List Line → List Line
  | _, [] => []
  | i, glyph :: glyphs =>
    if i < column then glyph :: startingBefore column (i + glyph.length) glyphs else []

section Walks

variable {tabSize column : Nat}

theorem visualColumnTo_eq (i visualColumn : Nat) (glyphs : List Line) :
    visualColumnTo tabSize column i visualColumn glyphs =
      walkFrom tabSize visualColumn (startingBefore column i glyphs) := by
  induction glyphs generalizing i visualColumn with
  | nil => rfl
  | cons glyph glyphs ih =>
    rw [visualColumnTo, startingBefore]
    split
    · rw [ih, walkFrom_cons]
    · rfl

theorem startingBefore_append {before : List Line} (some_ : ∀ glyph ∈ before, glyph ≠ []) {i : Nat}
    (inside : i + before.flatten.length ≤ column) (after : List Line) :
    startingBefore column i (before ++ after) =
      before ++ startingBefore column (i + before.flatten.length) after := by
  induction before generalizing i with
  | nil => rfl
  | cons glyph before ih =>
    obtain ⟨first, some_⟩ := forall_mem_cons.mp some_
    have bytes := length_pos_iff.mpr first
    rw [flatten_cons, length_append] at inside ⊢
    rw [cons_append, startingBefore, if_pos (by omega), ih some_ (by omega), cons_append,
      Nat.add_assoc]

theorem startingBefore_of_le {i : Nat} (le : column ≤ i) (glyphs : List Line) :
    startingBefore column i glyphs = [] := by
  cases glyphs with
  | nil => rfl
  | cons glyph glyphs => exact if_neg (Nat.not_lt_of_le le)

/-- The code points that start before a column come first. -/
theorem startingBefore_cut (i : Nat) (glyphs : List Line) :
    ∃ after, glyphs = startingBefore column i glyphs ++ after ∧
      (after ≠ [] → column ≤ i + (startingBefore column i glyphs).flatten.length) := by
  induction glyphs generalizing i with
  | nil => exact ⟨[], rfl, fun some_ => absurd rfl some_⟩
  | cons glyph glyphs ih =>
    rw [startingBefore]
    split
    · obtain ⟨after, cut, reaches⟩ := ih (i + glyph.length)
      refine ⟨after, congrArg _ cut, fun some_ => ?_⟩
      rw [flatten_cons, length_append, ← Nat.add_assoc]
      exact reaches some_
    next late =>
      exact ⟨glyph :: glyphs, rfl, fun _ => Nat.le_of_not_lt late⟩

theorem codePoints_plainTo {line : Line} {offset : Nat} (plain : PlainTo line offset) :
    codePoints line = (line.take offset).map (fun c => [c]) ++ codePoints (line.drop offset) := by
  conv_lhs => rw [← take_append_drop offset line]
  exact codePoints_append_ascii (fun c mem => (lt_of_plain (plain c mem)).1) _

theorem flatten_map_singleton (line : Line) : (line.map fun c => [c]).flatten = line := by
  induction line with
  | nil => rfl
  | cons c line ih => rw [map_cons, flatten_cons, ih]; rfl

/-- The walk to a text column walks over the code points that start before it. -/
theorem visualColumnForTextColumn_eq (line : Line) (textColumn : Nat) :
    visualColumnForTextColumn line textColumn tabSize =
      walkFrom tabSize 0 (startingBefore (clampTextColumn line textColumn) 0 (codePoints line)) := by
  unfold visualColumnForTextColumn
  dsimp only
  generalize clampTextColumn line textColumn = clamped
  have le : firstNonPlainAsciiByte (line.take clamped) ≤ clamped ∧
      firstNonPlainAsciiByte (line.take clamped) ≤ line.length := by
    have := @findIdx_le_length _ isNonPlain (line.take clamped)
    rw [length_take] at this
    exact ⟨this.trans (min_le_left _ _), this.trans (min_le_right _ _)⟩
  have plain : PlainTo line (firstNonPlainAsciiByte (line.take clamped)) := by
    rw [PlainTo, ← min_eq_left le.1, ← take_take]
    exact plainTo_firstNonPlainAsciiByte (line.take clamped)
  generalize firstNonPlainAsciiByte (line.take clamped) = plainPrefix at le plain
  have size : ((line.take plainPrefix).map fun c => [c]).flatten.length = plainPrefix := by
    rw [flatten_map_singleton, length_take_of_le le.2]
  have some_ : ∀ glyph ∈ (line.take plainPrefix).map fun c => [c], glyph ≠ [] := by
    intro glyph mem
    obtain ⟨c, -, rfl⟩ := mem_map.mp mem
    exact cons_ne_nil _ _
  rw [codePoints_plainTo plain, startingBefore_append some_ (by omega), walkFrom_append,
    walkFrom_plain plain, size, length_take_of_le le.2, Nat.zero_add, visualColumnTo_eq]

/-- Where the walk back lands: at the end of the line, or on either side of the cluster whose cells
the visual column is in, whichever is nearer. -/
inductive Lands (tabSize visualColumn lineSize i current : Nat) (glyphs : List Line) : Nat → Prop
  | past (le : walkFrom tabSize current glyphs ≤ visualColumn) :
      Lands tabSize visualColumn lineSize i current glyphs lineSize
  | inside {before after : List Line} {glyph : Line} (cut : glyphs = before ++ glyph :: after)
      (low : walkFrom tabSize current before ≤ visualColumn)
      (high : visualColumn < advanceVisualColumnAt tabSize (walkFrom tabSize current before) glyph) :
      Lands tabSize visualColumn lineSize i current glyphs
        (if visualColumn - walkFrom tabSize current before ≤
            advanceVisualColumnAt tabSize (walkFrom tabSize current before) glyph - visualColumn then
          i + before.flatten.length
        else i + before.flatten.length + glyph.length +
          (after.takeWhile isZeroWidth).flatten.length)

theorem Lands.behind {visualColumn lineSize i current place : Nat} {front glyphs : List Line}
    (lands : Lands tabSize visualColumn lineSize (i + front.flatten.length)
      (walkFrom tabSize current front) glyphs place) :
    Lands tabSize visualColumn lineSize i current (front ++ glyphs) place := by
  cases lands with
  | past le => exact .past (by rwa [walkFrom_append])
  | @inside before after glyph cut low high =>
    rw [← walkFrom_append] at low high ⊢
    have landed := @Lands.inside tabSize visualColumn lineSize i current (front ++ glyphs)
      (front ++ before) after glyph (by rw [cut, append_assoc]) low high
    rwa [flatten_append, length_append, ← Nat.add_assoc] at landed

/-- **Where the walk back lands.** -/
theorem textColumnTo_spec {visualColumn lineSize rounds i current : Nat} {glyphs : List Line}
    (enough : glyphs.length ≤ rounds) (low : current ≤ visualColumn) :
    Lands tabSize visualColumn lineSize i current glyphs
      (textColumnTo tabSize visualColumn lineSize rounds i current glyphs) := by
  induction rounds generalizing i current glyphs with
  | zero =>
    rw [length_eq_zero_iff.mp (Nat.le_zero.mp enough)]
    exact .past low
  | succ rounds ih =>
    cases glyphs with
    | nil => exact .past low
    | cons glyph glyphs =>
      rw [length_cons] at enough
      have marks_ : (fun mark => advanceVisualColumnAt tabSize
          (advanceVisualColumnAt tabSize current glyph) mark ==
            advanceVisualColumnAt tabSize current glyph) = isZeroWidth := by
        funext mark
        rw [Bool.eq_iff_iff, beq_iff_eq]
        exact advanceVisualColumnAt_eq_iff
      rw [textColumnTo]
      rw [marks_]
      split
      next mark =>
        have next := @ih (i + glyph.length) current glyphs (by omega) low
        refine @Lands.behind tabSize visualColumn lineSize i current _ [glyph] glyphs ?_
        rw [flatten_singleton, walkFrom_cons, mark]
        exact next
      · split
        next cell here =>
          have landed := @Lands.inside tabSize visualColumn lineSize i current (glyph :: glyphs) []
            glyphs glyph rfl low here
          exact landed
        next cell further =>
          have marks : ∀ mark ∈ glyphs.takeWhile isZeroWidth, isZeroWidth mark = true :=
            fun mark mem => mem_takeWhile_imp mem
          have still := (@walkFrom_eq_iff tabSize (advanceVisualColumnAt tabSize current glyph) _).mpr
            marks
          have rest : glyphs.drop (glyphs.takeWhile isZeroWidth).length =
              glyphs.dropWhile isZeroWidth := by
            have dropped := @drop_left _ (glyphs.takeWhile isZeroWidth)
              (glyphs.dropWhile isZeroWidth)
            rwa [takeWhile_append_dropWhile] at dropped
          have next := @ih (i + glyph.length + (glyphs.takeWhile isZeroWidth).flatten.length)
            (advanceVisualColumnAt tabSize current glyph)
            (glyphs.drop (glyphs.takeWhile isZeroWidth).length)
            (by rw [length_drop]; omega) (Nat.le_of_not_lt further)
          have whole : glyph :: glyphs = (glyph :: glyphs.takeWhile isZeroWidth) ++
              glyphs.drop (glyphs.takeWhile isZeroWidth).length := by
            rw [rest, cons_append, takeWhile_append_dropWhile]
          rw [whole]
          refine Lands.behind ?_
          rw [walkFrom_cons, still, flatten_cons, length_append, ← Nat.add_assoc]
          exact next

theorem takeWhile_marks {marks rest : List Line} (zero : ∀ mark ∈ marks, isZeroWidth mark = true)
    (begins : BeginsCluster rest) : (marks ++ rest).takeWhile isZeroWidth = marks := by
  rw [takeWhile_append_of_pos zero]
  cases rest with
  | nil => exact append_nil _
  | cons glyph rest =>
    have cell : ¬isZeroWidth glyph = true := by
      rw [begins glyph rfl]
      exact Bool.false_ne_true
    rw [takeWhile_cons_of_neg cell, append_nil]

/-- From the visual column behind some code points the walk back lands behind the marks that
follow. -/
theorem Lands.walk {i current place : Nat} {before after : List Line}
    (lands : Lands tabSize (walkFrom tabSize current before)
      (i + (before ++ after).flatten.length) i current (before ++ after) place) :
    place = i + before.flatten.length + (after.takeWhile isZeroWidth).flatten.length := by
  cases lands with
  | past le =>
    rw [walkFrom_append] at le
    have marks := walkFrom_eq_iff.mp (le.antisymm (le_walkFrom _ _ _))
    have all := @takeWhile_marks after [] marks fun _ mem => by cases mem
    rw [append_nil] at all
    rw [all, flatten_append, length_append, Nat.add_assoc]
  | @inside before' after' glyph cut low high =>
    obtain ⟨marks, rfl, rest⟩ : ∃ marks, before' = before ++ marks ∧
        after = marks ++ glyph :: after' := by
      rcases append_eq_append_iff.mp cut with ⟨marks, longer, rest⟩ | ⟨more, longer, rest⟩
      · exact ⟨marks, longer, rest⟩
      · cases more with
        | nil => exact ⟨[], by rw [longer, append_nil, append_nil], rest.symm⟩
        | cons first more =>
          obtain ⟨rfl, -⟩ := List.cons.inj rest
          rw [longer, walkFrom_append, walkFrom_cons] at high
          exact absurd high (Nat.not_lt_of_le (le_walkFrom _ _ _))
    rw [walkFrom_append] at low high ⊢
    have still := low.antisymm (le_walkFrom _ _ _)
    have zero := walkFrom_eq_iff.mp still
    rw [still] at high ⊢
    have cell : BeginsCluster (glyph :: after') := by
      rintro first mem
      cases mem
      exact lt_advanceVisualColumnAt_iff.mp high
    rw [rest, takeWhile_marks zero cell, Nat.sub_self, if_pos (Nat.zero_le _), flatten_append,
      length_append, Nat.add_assoc]

theorem textColumnForVisualColumn_walk {line : Line} {before after : List Line}
    (cut : codePoints line = before ++ after) :
    textColumnForVisualColumn line (walkFrom tabSize 0 before) tabSize =
      before.flatten.length + (after.takeWhile isZeroWidth).flatten.length := by
  have lands := @textColumnTo_spec tabSize (walkFrom tabSize 0 before) line.length
    (codePoints line).length 0 0 (codePoints line) le_rfl (Nat.zero_le _)
  have size : line.length = 0 + (before ++ after).flatten.length := by
    rw [← cut, flatten_codePoints, Nat.zero_add]
  rw [textColumnForVisualColumn]
  generalize textColumnTo tabSize (walkFrom tabSize 0 before) line.length (codePoints line).length 0
    0 (codePoints line) = place at lands
  rw [cut, size] at lands
  rw [lands.walk, Nat.zero_add]

end Walks

/-! ### Clamped columns -/

theorem isContinuationByte_plain {c : UInt8} (plain : c < 0x80) : isContinuationByte c = false := by
  have low : ∀ n < 128, n &&& 192 ≠ 128 := by decide +kernel
  refine eq_false_of_ne_true fun continues => low c.toNat (UInt8.lt_iff_toNat_lt.mp plain) ?_
  have same := congrArg UInt8.toNat (beq_iff_eq.mp continues)
  rwa [UInt8.toNat_and] at same

theorem clampTextColumn_le (line : Line) (column : Nat) : clampTextColumn line column ≤ column := by
  rw [clampTextColumn]
  split
  · assumption
  · exact codePointStart_le _ _ _

theorem plain_byte {line : Line} {offset k : Nat} (plain : PlainTo line offset) (early : k < offset)
    (inside : k < line.length) : isNonPlain (line.getD k 0) = false := by
  refine plain _ (mem_take_iff_getElem.mpr ⟨k, lt_min early inside, ?_⟩)
  rw [getD_eq_getElem?_getD, getElem?_eq_getElem inside, Option.getD_some]

/-- Behind plain bytes a column is clamped to the line, or to the byte before. -/
theorem clampTextColumn_plain {line : Line} {column : Nat} (plain : PlainTo line column) :
    clampTextColumn line column = min column line.length ∨
      (column < line.length ∧ clampTextColumn line column + 1 = column) := by
  rw [clampTextColumn]
  split
  next past =>
    exact .inl (min_eq_right past).symm
  next inside =>
    have inside := Nat.lt_of_not_le inside
    cases column with
    | zero => exact .inl (Nat.zero_min _).symm
    | succ column =>
      rw [codePointStart]
      split
      · right
        refine ⟨inside, ?_⟩
        cases column with
        | zero => rfl
        | succ column =>
          have before := plain_byte plain (Nat.lt_succ_self _) (by omega)
          rw [codePointStart, isContinuationByte_plain (lt_of_plain before).1, Bool.and_false,
            if_neg Bool.false_ne_true]
      · exact .inl (min_eq_left inside.le).symm

section Clamped

variable {tabSize : Nat} {line : Line} {column : Nat}

theorem ne_nil_of_mem_map_singleton {front : Line} :
    ∀ glyph ∈ front.map (fun c => [c]), glyph ≠ [] := by
  intro glyph mem
  obtain ⟨c, -, rfl⟩ := mem_map.mp mem
  exact cons_ne_nil _ _

/-- Behind plain bytes the walk gives the clamped column. -/
theorem visualColumnForTextColumn_plain (plain : PlainTo line column) :
    visualColumnForTextColumn line column tabSize = clampTextColumn line column := by
  have plain' := plain.mono (clampTextColumn_le line column)
  have size : ((line.take (clampTextColumn line column)).map fun c => [c]).flatten.length =
      clampTextColumn line column := by
    rw [flatten_map_singleton, length_take_of_le (clampTextColumn_le_length line column)]
  rw [visualColumnForTextColumn_eq, codePoints_plainTo plain',
    startingBefore_append ne_nil_of_mem_map_singleton (by rw [size, Nat.zero_add]),
    startingBefore_of_le (by rw [size, Nat.zero_add]), append_nil, walkFrom_plain plain',
    length_take_of_le (clampTextColumn_le_length line column), Nat.zero_add]

/-- Behind plain bytes the walk back lands behind the marks that follow. -/
theorem textColumnForVisualColumn_plain (plain : PlainTo line column)
    (inside : column ≤ line.length) : textColumnForVisualColumn line column tabSize =
      column + ((codePoints (line.drop column)).takeWhile isZeroWidth).flatten.length := by
  have back := @textColumnForVisualColumn_walk tabSize line _ _ (codePoints_plainTo plain)
  rwa [walkFrom_plain plain, Nat.zero_add, flatten_map_singleton, length_take_of_le inside]
    at back

end Clamped

/-! ### Lines of tabs and then plain bytes -/

section Ascii

variable {tabSize column : Nat} {line : Line}

section

variable (ascii : ∀ c ∈ line, c < 0x80)

include ascii

theorem codePoints_ascii_line : codePoints line = line.map fun c => [c] := by
  have whole := codePoints_append_ascii ascii []
  rwa [append_nil, codePoints_nil, append_nil] at whole

theorem clampTextColumn_ascii : clampTextColumn line column = min column line.length := by
  rw [clampTextColumn]
  split
  next past =>
    exact (min_eq_right past).symm
  next inside =>
    have inside := Nat.lt_of_not_le inside
    rw [min_eq_left inside.le]
    cases column with
    | zero => rfl
    | succ column =>
      have here : line.getD (column + 1) 0 < 0x80 := by
        rw [getD_eq_getElem?_getD, getElem?_eq_getElem inside, Option.getD_some]
        exact ascii _ (getElem_mem inside)
      rw [codePointStart, isContinuationByte_plain here, Bool.and_false, if_neg Bool.false_ne_true]

/-- On an ASCII line the walk takes the bytes before the column. -/
theorem visualColumnForTextColumn_ascii : visualColumnForTextColumn line column tabSize =
      walkFrom tabSize 0 ((line.take column).map fun c => [c]) := by
  have size : ((line.take column).map fun c => [c]).flatten.length = min column line.length := by
    rw [flatten_map_singleton, length_take]
  have cut : codePoints line = (line.take column).map (fun c => [c]) ++
      (line.drop column).map fun c => [c] := by
    rw [codePoints_ascii_line ascii, ← map_append, take_append_drop]
  rw [visualColumnForTextColumn_eq, clampTextColumn_ascii ascii, cut,
    startingBefore_append ne_nil_of_mem_map_singleton (by rw [size, Nat.zero_add]),
    startingBefore_of_le (by rw [size, Nat.zero_add]), append_nil]

theorem takeWhile_ascii : (line.map fun c => [c]).takeWhile isZeroWidth = [] := by
  cases line with
  | nil => rfl
  | cons c line =>
    have low : ¬0x80 ≤ c := (UInt8.not_le).mpr (ascii c mem_cons_self)
    have cell : ¬isZeroWidth [c] = true := by
      rw [isZeroWidth, decide_eq_false low, Bool.false_and]
      exact Bool.false_ne_true
    exact takeWhile_cons_of_neg cell

end

variable {count : Nat} {plain : Line}

theorem ascii_tabIndented (plain_ : ∀ c ∈ plain, isNonPlain c = false) :
    ∀ c ∈ List.replicate count tabByte ++ plain, c < 0x80 := by
  intro c mem
  rcases mem_append.mp mem with tab | mem
  · rw [eq_of_mem_replicate tab]
    decide
  · exact (lt_of_plain (plain_ c mem)).1

/-- The visual column behind tabs and some plain bytes. -/
theorem walkFrom_tabIndented (positive : 0 < tabSize) (plain_ : ∀ c ∈ plain, isNonPlain c = false) :
    walkFrom tabSize 0 ((List.replicate count tabByte ++ plain).map fun c => [c]) =
      count * tabSize + plain.length := by
  have tabs := @walkFrom_tabs tabSize positive 0 count
  rw [Nat.zero_mul, Nat.zero_add] at tabs
  rw [map_append, walkFrom_append, tabs, walkFrom_plain plain_]

theorem visualColumnForTextColumn_tabIndented (positive : 0 < tabSize)
    (plain_ : ∀ c ∈ plain, isNonPlain c = false) :
    visualColumnForTextColumn (List.replicate count tabByte ++ plain) column tabSize =
      if min column (count + plain.length) ≤ count then min column (count + plain.length) * tabSize
      else count * tabSize + (min column (count + plain.length) - count) := by
  have front : (List.replicate count tabByte ++ plain).take column =
      List.replicate (min column count) tabByte ++ plain.take (column - count) := by
    rw [take_append, take_replicate, length_replicate]
  rw [visualColumnForTextColumn_ascii (ascii_tabIndented plain_), front,
    walkFrom_tabIndented positive fun c mem => plain_ c (mem_of_mem_take mem),
    length_take]
  split
  next within =>
    have stops : min column (count + plain.length) = min column count := by omega
    rw [stops]
    omega
  next beyond =>
    have stops : min column count = count := by omega
    rw [stops]
    omega

/-- The cut the walk back lands in is the one with the column in its cells. -/
theorem Lands.unique {visualColumn lineSize i current place : Nat} {before after : List Line}
    {glyph : Line}
    (lands : Lands tabSize visualColumn lineSize i current (before ++ glyph :: after) place)
    (low : walkFrom tabSize current before ≤ visualColumn)
    (high : visualColumn < advanceVisualColumnAt tabSize (walkFrom tabSize current before) glyph) :
    place = if visualColumn - walkFrom tabSize current before ≤
        advanceVisualColumnAt tabSize (walkFrom tabSize current before) glyph - visualColumn then
      i + before.flatten.length
    else i + before.flatten.length + glyph.length + (after.takeWhile isZeroWidth).flatten.length := by
  have beyond {front more : List Line} {first : Line}
      (high : visualColumn < advanceVisualColumnAt tabSize (walkFrom tabSize current front) first) :
      visualColumn < walkFrom tabSize current (front ++ first :: more) := by
    rw [walkFrom_append, walkFrom_cons]
    exact high.trans_le (le_walkFrom _ _ _)
  cases lands with
  | past le => exact absurd (beyond high) (Nat.not_lt_of_le le)
  | @inside before' after' glyph' cut low' high' =>
    rcases append_eq_append_iff.mp cut with ⟨more, longer, rest⟩ | ⟨more, longer, rest⟩
    all_goals
      cases more with
      | nil =>
        rw [append_nil] at longer
        obtain ⟨rfl, rfl⟩ := List.cons.inj rest
        rw [longer]
      | cons first more =>
        obtain ⟨rfl, -⟩ := List.cons.inj rest
        subst longer
        first
        | exact absurd (beyond high) (Nat.not_lt_of_le low')
        | exact absurd (beyond high') (Nat.not_lt_of_le low)

theorem Lands.of_le {visualColumn lineSize i current place : Nat} {glyphs : List Line}
    (lands : Lands tabSize visualColumn lineSize i current glyphs place)
    (le : walkFrom tabSize current glyphs ≤ visualColumn) : place = lineSize := by
  cases lands with
  | past => rfl
  | @inside before after glyph cut low high =>
    rw [cut, walkFrom_append, walkFrom_cons] at le
    exact absurd (high.trans_le (le_walkFrom _ _ _)) (Nat.not_lt_of_le le)

theorem textColumnForVisualColumn_tabIndented (positive : 0 < tabSize)
    (plain_ : ∀ c ∈ plain, isNonPlain c = false) :
    textColumnForVisualColumn (List.replicate count tabByte ++ plain) column tabSize =
      if count * tabSize ≤ column then
        min (count + (column - count * tabSize)) (count + plain.length)
      else column / tabSize + (if column % tabSize * 2 ≤ tabSize then 0 else 1) := by
  have ascii := @ascii_tabIndented count plain plain_
  have size : (List.replicate count tabByte ++ plain).length = count + plain.length := by
    rw [length_append, length_replicate]
  have lands := @textColumnTo_spec tabSize column (List.replicate count tabByte ++ plain).length
    (codePoints (List.replicate count tabByte ++ plain)).length 0 0 _ le_rfl (Nat.zero_le _)
  rw [← textColumnForVisualColumn, codePoints_ascii_line ascii, size] at lands
  split
  next right =>
    rcases Nat.lt_or_ge plain.length (column - count * tabSize) with beyond | within
    · have whole := lands.of_le (by rw [walkFrom_tabIndented positive plain_]; omega)
      omega
    · -- behind the tabs and the first plain bytes
      have front : ∀ c ∈ plain.take (column - count * tabSize), isNonPlain c = false :=
        fun c mem => plain_ c (mem_of_mem_take mem)
      have cut : codePoints (List.replicate count tabByte ++ plain) =
          (List.replicate count tabByte ++ plain.take (column - count * tabSize)).map (fun c => [c]) ++
            (plain.drop (column - count * tabSize)).map fun c => [c] := by
        rw [codePoints_ascii_line ascii, ← map_append, append_assoc, take_append_drop]
      have back := @textColumnForVisualColumn_walk tabSize _ _ _ cut
      rw [walkFrom_tabIndented positive front, flatten_map_singleton,
        takeWhile_ascii fun c mem => (lt_of_plain (plain_ c (mem_of_mem_drop mem))).1,
        length_append, length_replicate, length_take_of_le within,
        Nat.add_sub_cancel' right] at back
      rw [back, min_eq_left (Nat.add_le_add_left within count)]
      rfl
  next left =>
    -- inside a tab
    have early : column / tabSize < count :=
      Nat.div_lt_of_lt_mul (by rw [Nat.mul_comm]; exact Nat.lt_of_not_le left)
    have stops (k : Nat) : walkFrom tabSize 0 ((List.replicate k tabByte).map fun c => [c]) =
        k * tabSize := by
      have tabs := @walkFrom_tabs tabSize positive 0 k
      rwa [Nat.zero_mul, Nat.zero_add] at tabs
    have step : advanceVisualColumnAt tabSize (column / tabSize * tabSize) [tabByte] =
        (column / tabSize + 1) * tabSize := walkFrom_tabs positive (column / tabSize) 1
    have cut : (List.replicate count tabByte ++ plain).map (fun c => [c]) =
        (List.replicate (column / tabSize) tabByte).map (fun c => [c]) ++ [tabByte] ::
          (List.replicate (count - column / tabSize - 1) tabByte ++ plain).map fun c => [c] := by
      obtain ⟨more, rfl⟩ : ∃ more, count = column / tabSize + (more + 1) :=
        ⟨count - column / tabSize - 1, by omega⟩
      rw [Nat.add_sub_cancel_left, Nat.add_sub_cancel, replicate_add, replicate_succ]
      simp only [map_append, map_cons, append_assoc, cons_append]
    have parts := Nat.div_add_mod column tabSize
    have rest := Nat.mod_lt column positive
    rw [Nat.mul_comm] at parts
    rw [cut] at lands
    have place := lands.unique (by rw [stops]; omega) (by rw [stops, step, Nat.succ_mul]; omega)
    rw [stops, step, Nat.succ_mul, flatten_map_singleton, length_replicate, takeWhile_ascii
      (@ascii_tabIndented (count - column / tabSize - 1) plain plain_)] at place
    rw [place]
    have nearer : (column - column / tabSize * tabSize ≤
        column / tabSize * tabSize + tabSize - column) ↔ column % tabSize * 2 ≤ tabSize := by omega
    simp only [nearer]
    split
    · rw [Nat.zero_add, Nat.add_zero]
    · rw [Nat.zero_add]
      rfl

end Ascii

end Microide.Editor
