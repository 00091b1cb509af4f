/-
The lines the rows of a comparison stand for.

The patch generator reads a comparison row by row and tells from a row's line number
whether it is the last one of a side. This module says what these tests mean on the
comparison of two texts without `'\r'`: the rows spell the lines of both files
(`RowsOf.fileLines_eq`), the test for a missing newline finds the last line of a side
(`RowsOf.last_split`), and the test for a phantom finds the row after the last line.
-/

import Microide.Compare.CompareRows
import Microide.Project.PatchGenerator

namespace Microide.Project

open List Lib Text Compare CompareRow

/-- The text a row shows on one side, if it has one there. -/
def sideText (rightSide : Bool) (row : CompareRow) : Option Line :=
  if rightSide then row.right? else row.left?

/-- The side lacks its final newline. -/
def missingOn (model : CompareModel) (rightSide : Bool) : Bool :=
  if rightSide then model.rightFinalNewlineMissing else model.leftFinalNewlineMissing

/-- The line a row stands for on one side, with its newline. The phantom is not a line. -/
def rowLine (model : CompareModel) (rightSide : Bool) (row : CompareRow) :
    Option (FileLine UInt8) :=
  match sideText rightSide row with
  | none => none
  | some text =>
    if text.isEmpty && phantomOn model rightSide row then none
    else some { text, newline := !noNewlineOn model rightSide row }

/-- The kind of a row that has no line on this side. -/
def otherKind (rightSide : Bool) : CompareRowKind :=
  if rightSide then .deleted else .added

variable {rightSide : Bool} {row : CompareRow}

@[simp] theorem sideText_eq_none_iff :
    sideText rightSide row = none ↔ row.kind = otherKind rightSide := by
  cases rightSide <;> simp [sideText, otherKind, left?, right?]

theorem noNewlineOn_eq (model : CompareModel) (rightSide : Bool) (row : CompareRow) :
    noNewlineOn model rightSide row =
      (sideLine rightSide row == lastSideLine model.rows rightSide && missingOn model rightSide) :=
  rfl

theorem phantomOn_eq (model : CompareModel) (rightSide : Bool) (row : CompareRow) :
    phantomOn model rightSide row =
      (sideLine rightSide row == lastSideLine model.rows rightSide && !missingOn model rightSide) :=
  rfl

/-! ### Line numbers -/

variable {after before rows : List CompareRow}

/-- The number of a line counts the lines before it. -/
theorem sideLine_of_numbered {i j : Nat} (h : Numbered i j (before ++ row :: after))
    (rightSide : Bool) : sideLine rightSide row =
      if row.kind = otherKind rightSide then 0
      else (if rightSide then j else i) + (before.filterMap (sideText rightSide)).length := by
  rw [numbered_append] at h
  obtain ⟨-, hleft, hright, -⟩ := h
  cases rightSide
  · exact hleft
  · exact hright

theorem le_lastSideLine (hmem : row ∈ rows) (rightSide : Bool) :
    sideLine rightSide row ≤ lastSideLine rows rightSide := by
  have hmono : ∀ (rows : List CompareRow) (n : Nat),
      n ≤ rows.foldl (fun last row => max last (sideLine rightSide row)) n ∧
        ∀ row ∈ rows, sideLine rightSide row ≤
          rows.foldl (fun last row => max last (sideLine rightSide row)) n := by
    intro rows
    induction rows with
    | nil => simp
    | cons r rows ih =>
        intro n
        obtain ⟨hle, hmem⟩ := ih (max n (sideLine rightSide r))
        simp only [foldl_cons, forall_mem_cons]
        exact ⟨by omega, by omega, hmem⟩
  exact (hmono rows 0).2 row hmem

theorem lastSideLine_le {n : Nat} (hle : ∀ row ∈ rows, sideLine rightSide row ≤ n) :
    lastSideLine rows rightSide ≤ n := by
  have hbound : ∀ (rows : List CompareRow) (m : Nat), m ≤ n →
      (∀ row ∈ rows, sideLine rightSide row ≤ n) →
      rows.foldl (fun last row => max last (sideLine rightSide row)) m ≤ n := by
    intro rows
    induction rows with
    | nil => simp
    | cons r rows ih =>
        intro m hm hrows
        obtain ⟨hr, hrest⟩ := forall_mem_cons.mp hrows
        exact ih _ (Nat.max_le.mpr ⟨hm, hr⟩) hrest
  exact hbound rows 0 (Nat.zero_le _) hle

/-- The last line number of a side is the number of its lines. -/
theorem lastSideLine_of_numbered (h : Numbered 1 1 rows) (rightSide : Bool) :
    lastSideLine rows rightSide = (rows.filterMap (sideText rightSide)).length := by
  have hnumber : ∀ before row after, rows = before ++ row :: after → sideLine rightSide row =
      if row.kind = otherKind rightSide then 0
      else 1 + (before.filterMap (sideText rightSide)).length := by
    rintro before row after rfl
    simpa using sideLine_of_numbered h rightSide
  apply Nat.le_antisymm
  · apply lastSideLine_le
    intro row hmem
    obtain ⟨before, after, rfl⟩ := append_of_mem hmem
    rw [hnumber before row after rfl]
    split
    · exact Nat.zero_le _
    · next hkind =>
      cases htext : sideText rightSide row with
      | none => exact absurd (sideText_eq_none_iff.mp htext) hkind
      | some text =>
          simp only [filterMap_append, filterMap_cons, htext, length_append, length_cons]
          omega
  · rcases eq_nil_or_concat' (rows.filterMap (sideText rightSide)) with hnil | ⟨init, last, heq⟩
    · simp [hnil]
    · obtain ⟨before, after, rfl, hbefore, hafter⟩ := filterMap_eq_append_iff.mp heq
      obtain ⟨skipped, row, rest, rfl, hskipped, hrow, -⟩ := filterMap_eq_cons_iff.mp hafter
      have hmem : row ∈ before ++ (skipped ++ row :: rest) := by simp
      have hle := le_lastSideLine hmem rightSide
      rw [hnumber (before ++ skipped) row rest (by simp), if_neg] at hle
      · have hnone : skipped.filterMap (sideText rightSide) = [] :=
          filterMap_eq_nil_iff.mpr hskipped
        rw [heq]
        simp only [filterMap_append, hbefore, hnone, append_nil] at hle
        simp only [length_append, length_singleton]
        omega
      · intro hkind
        rw [sideText_eq_none_iff.mpr hkind] at hrow
        cases hrow

/-- A row carries the last line number of a side exactly when it has a line there and no
later row does. -/
theorem sideLine_eq_last_iff (h : Numbered 1 1 (before ++ row :: after))
    (hne : (before ++ row :: after).filterMap (sideText rightSide) ≠ []) :
    sideLine rightSide row = lastSideLine (before ++ row :: after) rightSide ↔
      row.kind ≠ otherKind rightSide ∧ ∀ r ∈ after, r.kind = otherKind rightSide := by
  rw [lastSideLine_of_numbered h, sideLine_of_numbered h]
  have hpos := length_pos_iff.mpr hne
  have hafter : (after.filterMap (sideText rightSide)).length = 0 ↔
      ∀ r ∈ after, r.kind = otherKind rightSide := by
    simp
  cases htext : sideText rightSide row with
  | none =>
      have hkind := sideText_eq_none_iff.mp htext
      simp only [hkind, if_true, ne_eq, not_true_eq_false, false_and, iff_false]
      omega
  | some text =>
      have hkind : row.kind ≠ otherKind rightSide := by
        intro hkind
        rw [sideText_eq_none_iff.mpr hkind] at htext
        cases htext
      simp only [hkind, if_false, ne_eq, not_false_eq_true, true_and, ← hafter,
        filterMap_append, filterMap_cons, htext, length_append, length_cons,
        ite_self]
      omega

/-! ### The rows of a comparison -/

/-- The rows of `model` spell the two texts, which have no `'\r'`. -/
structure RowsOf (model : CompareModel) (left right : List UInt8) : Prop where
  spelled (rightSide : Bool) : model.rows.filterMap (sideText rightSide) =
    (if rightSide then right else left).splitOn lf
  numbered : Numbered 1 1 model.rows
  same : ∀ row ∈ model.rows, row.kind = .unchanged → row.leftText = row.rightText
  missing (rightSide : Bool) : missingOn model rightSide =
    finalNewlineMissing (if rightSide then right else left)
  phantom : ∃ real i j hunk, model.rows = real ++
    phantomRows (!finalNewlineMissing left) (!finalNewlineMissing right) i j hunk
  noCrlf : model.leftUsesCrlf = false ∧ model.rightUsesCrlf = false

theorem usesCrlf_of_not_mem {source : List UInt8} (hcr : cr ∉ source) : usesCrlf source = false := by
  unfold usesCrlf
  split
  · next newline _ =>
    have hne : source[newline - 1]? ≠ some cr := fun h => hcr (mem_of_getElem? h)
    simp [hne]
  · rfl

theorem finalNewlineMissing_eq_false_iff (source : List UInt8) :
    finalNewlineMissing source = false ↔ (source.splitOn lf).getLast? = some [] := by
  rw [getLast?_splitOn_eq_nil_iff]
  cases source <;> simp [finalNewlineMissing]

/-- The comparison of two texts without `'\r'` that matches equal lines only. -/
theorem rowsOf_buildCompareModel {K : Type} (A : Doubles K) {left right : List UInt8}
    (hleft : cr ∉ left) (hright : cr ∉ right) {options : CompareBuildOptions}
    (hoptions : options.ignoreWhitespace = false) :
    RowsOf (buildCompareModel A left right options) left right := by
  have hspells := buildCompareModel_spells A left right options
  obtain ⟨real, hunk, -, hrows⟩ := buildCompareModel_rows A left right options
  refine ⟨?_, hspells.numbered, ?_, ?_, ⟨real, _, _, hunk, hrows⟩, ?_⟩
  · intro rightSide
    cases rightSide
    · exact hspells.left_eq.trans (splitLineViews_eq_splitOn hleft)
    · exact hspells.right_eq.trans (splitLineViews_eq_splitOn hright)
  · intro row hrow hkind
    simpa [linesEqualForDiff, hoptions] using hspells.same row hrow hkind
  · intro rightSide
    cases rightSide <;> rfl
  · exact ⟨usesCrlf_of_not_mem hleft, usesCrlf_of_not_mem hright⟩

namespace RowsOf

variable {model : CompareModel} {left right : List UInt8}

section

variable (h : RowsOf model left right)

include h

theorem sideText_ne_nil (rightSide : Bool) : model.rows.filterMap (sideText rightSide) ≠ [] := by
  rw [h.spelled]
  exact splitOn_ne_nil _ _

/-- The row of the last line of a side has no later row with a line there. -/
theorem last_iff (hrows : model.rows = before ++ row :: after) (rightSide : Bool) :
    sideLine rightSide row = lastSideLine model.rows rightSide ↔
      row.kind ≠ otherKind rightSide ∧ ∀ r ∈ after, r.kind = otherKind rightSide := by
  have hne := h.sideText_ne_nil rightSide
  have hnumbered := h.numbered
  rw [hrows] at hne hnumbered ⊢
  exact sideLine_eq_last_iff hnumbered hne

/-- Every side has a last row. -/
theorem exists_last (rightSide : Bool) :
    ∃ before row after text, model.rows = before ++ row :: after ∧
      sideText rightSide row = some text ∧ (∀ r ∈ after, r.kind = otherKind rightSide) ∧
      model.rows.filterMap (sideText rightSide) =
        before.filterMap (sideText rightSide) ++ [text] := by
  obtain ⟨init, last, heq⟩ := (eq_nil_or_concat' _).resolve_left (h.sideText_ne_nil rightSide)
  obtain ⟨before, after, hrows, hbefore, hafter⟩ := filterMap_eq_append_iff.mp heq
  obtain ⟨skipped, row, rest, rfl, hskipped, hrow, hrest⟩ := filterMap_eq_cons_iff.mp hafter
  refine ⟨before ++ skipped, row, rest, last, by simp [hrows], hrow, ?_, ?_⟩
  · intro r hr
    exact sideText_eq_none_iff.mp (filterMap_eq_nil_iff.mp hrest r hr)
  · rw [heq, filterMap_append, hbefore, filterMap_eq_nil_iff.mpr hskipped, append_nil]

/-- **The rows stand for the lines of the files.** -/
theorem fileLines_eq (rightSide : Bool) : model.rows.filterMap (rowLine model rightSide) =
      fileLines lf (if rightSide then right else left) := by
  obtain ⟨before, row, after, text, hrows, htext, hafter, hspelled⟩ := h.exists_last rightSide
  have hkind : row.kind ≠ otherKind rightSide := by
    intro hkind
    rw [sideText_eq_none_iff.mpr hkind] at htext
    cases htext
  have hlast := (h.last_iff hrows rightSide).mpr ⟨hkind, hafter⟩
  -- Before the last row every line is terminated, after it there is none.
  have hbefore : before.filterMap (rowLine model rightSide) =
      (before.filterMap (sideText rightSide)).map fun text => { text } := by
    rw [map_filterMap]
    apply filterMap_congr
    intro r hr
    have hnot : sideLine rightSide r ≠ lastSideLine model.rows rightSide := by
      obtain ⟨pre, post, rfl⟩ := append_of_mem hr
      intro heq
      have hsplit : model.rows = pre ++ r :: (post ++ row :: after) := by simp [hrows]
      exact hkind (((h.last_iff hsplit rightSide).mp heq).2 row (by simp))
    cases hr' : sideText rightSide r <;> simp [rowLine, hr', noNewlineOn_eq, phantomOn_eq, hnot]
  have hnone : after.filterMap (rowLine model rightSide) = [] := by
    rw [filterMap_eq_nil_iff]
    intro r hr
    simp [rowLine, sideText_eq_none_iff.mpr (hafter r hr)]
  rw [fileLines, ← h.spelled, hspelled, hrows, filterMap_append, filterMap_cons, hbefore, hnone]
  have hmissing : missingOn model rightSide = false ↔ text = [] := by
    rw [h.missing, finalNewlineMissing_eq_false_iff, ← h.spelled, hspelled]
    simp
  cases hm : missingOn model rightSide with
  | false =>
      simp [rowLine, htext, phantomOn_eq, hlast, hm, hmissing.mp hm, linesOfPieces]
  | true =>
      have hne : text ≠ [] := fun hnil => by simp [hmissing.mpr hnil] at hm
      simp [rowLine, htext, noNewlineOn_eq, hlast, hm, hne, linesOfPieces]

/-- A row that shows a missing newline is the last one of its side. -/
theorem noNewline_split (hrows : model.rows = before ++ row :: after)
    (hno : noNewlineOn model rightSide row = true) :
    row.kind ≠ otherKind rightSide ∧ (∀ r ∈ after, r.kind = otherKind rightSide) ∧
      missingOn model rightSide = true := by
  rw [noNewlineOn_eq, Bool.and_eq_true, beq_iff_eq, h.last_iff hrows] at hno
  exact ⟨hno.1.1, hno.1.2, hno.2⟩

/-- The phantom of a side is in the last row, which shows whether the other side has one
too. -/
theorem last_row (hmissing : missingOn model rightSide = false) :
    ∀ row ∈ model.rows.getLast?, row.kind =
      if missingOn model (!rightSide) then otherKind (!rightSide) else .unchanged := by
  obtain ⟨real, i, j, hunk, hrows⟩ := h.phantom
  have hleft : missingOn model false = finalNewlineMissing left := h.missing false
  have hright : missingOn model true = finalNewlineMissing right := h.missing true
  rw [hrows, ← hleft, ← hright]
  cases rightSide with
  | false => cases hother : missingOn model true <;> simp [hmissing, hother, phantomRows, otherKind]
  | true => cases hother : missingOn model false <;> simp [hmissing, hother, phantomRows, otherKind]

/-- An unchanged row is a phantom on both sides or on none. -/
theorem phantomOn_unchanged (hmem : row ∈ model.rows) (hkind : row.kind = .unchanged)
    (rightSide : Bool) (hphantom : phantomOn model rightSide row = true) :
    phantomOn model (!rightSide) row = true := by
  rw [phantomOn_eq, Bool.and_eq_true, beq_iff_eq, Bool.not_eq_true'] at hphantom
  obtain ⟨before, after, hrows⟩ := append_of_mem hmem
  have hlast := ((h.last_iff hrows rightSide).mp hphantom.1).2
  have hphantomRow := h.last_row hphantom.2
  -- The phantom is in the last row, and that row has a line on this side: it is this row.
  have hnil : after = [] := by
    rcases eq_nil_or_concat' after with hnil | ⟨init, r, rfl⟩
    · exact hnil
    · have hend : model.rows = (before ++ row :: init) ++ [r] := by simp [hrows]
      have hr := hphantomRow r (by rw [hend, getLast?_concat]; rfl)
      rw [hlast r (by simp)] at hr
      split at hr <;> cases rightSide <;> cases hr
  subst hnil
  have hother : missingOn model (!rightSide) = false := by
    have hr := hphantomRow row (by simp [hrows])
    rw [hkind] at hr
    split at hr
    · cases rightSide <;> cases hr
    · next hother => simpa using hother
  rw [phantomOn_eq, hother, Bool.not_false, Bool.and_true, beq_iff_eq, h.last_iff hrows]
  refine ⟨?_, by simp⟩
  cases rightSide <;> simp [hkind, otherKind]

end

end RowsOf

/-! ### The line of a row -/

theorem rowLine_eq_some_iff {model : CompareModel} {line : FileLine UInt8} :
    rowLine model rightSide row = some line ↔ ∃ text, sideText rightSide row = some text ∧
      (text.isEmpty && phantomOn model rightSide row) = false ∧
      line = { text, newline := !noNewlineOn model rightSide row } := by
  unfold rowLine
  split
  · next htext => simp [htext]
  · next text htext =>
    rw [htext]
    split
    · next hphantom =>
      simp only [reduceCtorEq, Option.some.injEq, false_iff, not_exists, not_and]
      rintro _ rfl hfalse
      rw [hphantom] at hfalse
      cases hfalse
    · next hphantom =>
      rw [Bool.not_eq_true] at hphantom
      constructor
      · rintro ⟨rfl⟩
        exact ⟨text, rfl, hphantom, rfl⟩
      · rintro ⟨_, ⟨rfl⟩, -, rfl⟩
        rfl

theorem rowLine_newline {model : CompareModel} {line : FileLine UInt8}
    (h : rowLine model rightSide row = some line) :
    line.newline = !noNewlineOn model rightSide row := by
  obtain ⟨text, -, -, rfl⟩ := rowLine_eq_some_iff.mp h
  rfl

theorem rowLine_of_otherKind {model : CompareModel} (h : row.kind = otherKind rightSide) :
    rowLine model rightSide row = none := by
  simp [rowLine, sideText_eq_none_iff.mpr h]

/-- A row with a text but no line is a phantom. -/
theorem phantomOn_of_rowLine_none {model : CompareModel} (hkind : row.kind ≠ otherKind rightSide)
    (hnone : rowLine model rightSide row = none) :
    sideLine rightSide row = lastSideLine model.rows rightSide ∧
      missingOn model rightSide = false := by
  cases htext : sideText rightSide row with
  | none => exact absurd (sideText_eq_none_iff.mp htext) hkind
  | some text =>
      have hphantom : phantomOn model rightSide row = true := by
        by_contra hphantom
        simp [rowLine, htext, hphantom] at hnone
      simpa [phantomOn_eq] using hphantom

/-- A side that lacks its final newline has no phantom. -/
theorem rowLine_ne_none {model : CompareModel} (hkind : row.kind ≠ otherKind rightSide)
    (hmissing : missingOn model rightSide = true) : rowLine model rightSide row ≠ none := by
  intro hnone
  rw [(phantomOn_of_rowLine_none hkind hnone).2] at hmissing
  cases hmissing

namespace RowsOf

variable {model : CompareModel} {left right : List UInt8}

section

variable (h : RowsOf model left right)

include h

/-- The last line of a side that lacks its final newline shows it. -/
theorem noNewline_of_no_lines_after (hrows : model.rows = before ++ row :: after)
    (hkind : row.kind ≠ otherKind rightSide) (hmissing : missingOn model rightSide = true)
    (hnone : ∀ r ∈ after, rowLine model rightSide r = none) :
    noNewlineOn model rightSide row = true := by
  rw [noNewlineOn_eq, hmissing, Bool.and_true, beq_iff_eq, h.last_iff hrows]
  refine ⟨hkind, fun r hr => ?_⟩
  by_contra hr'
  exact rowLine_ne_none hr' hmissing (hnone r hr)

/-- A shared line without newline on the right is a line of both files. -/
theorem rowLine_unchanged_ne_none (hmem : row ∈ model.rows) (hkind : row.kind = .unchanged)
    (hno : noNewlineOn model true row = true) : rowLine model false row ≠ none := by
  intro hnone
  obtain ⟨before, after, hrows⟩ := append_of_mem hmem
  have hmissing := (h.noNewline_split hrows hno).2.2
  have hphantom : phantomOn model false row = true := by
    obtain ⟨hlast, hleft⟩ := phantomOn_of_rowLine_none (by simp [hkind, otherKind]) hnone
    simp [phantomOn_eq, hlast, hleft]
  have hother := h.phantomOn_unchanged hmem hkind false hphantom
  simp [phantomOn_eq, hmissing] at hother

/-- The last row of a model with one phantom is a changed row. -/
theorem missingOn_eq_of_last_unchanged (hrows : model.rows = before ++ [row])
    (hkind : row.kind = .unchanged) : missingOn model false = missingOn model true := by
  have hlast : row ∈ model.rows.getLast? := by simp [hrows]
  cases hl : missingOn model false <;> cases hr : missingOn model true
  · rfl
  · have hrow := h.last_row hl row hlast
    simp [hr, hkind, otherKind] at hrow
  · have hrow := h.last_row hr row hlast
    simp [hl, hkind, otherKind] at hrow
  · rfl

/-- A phantom is in the last row of the model. -/
theorem eq_nil_of_phantom (hrows : model.rows = before ++ row :: after)
    (hkind : row.kind ≠ otherKind rightSide) (hnone : rowLine model rightSide row = none) :
    after = [] := by
  obtain ⟨hlast, hmissing⟩ := phantomOn_of_rowLine_none hkind hnone
  have hother := ((h.last_iff hrows rightSide).mp hlast).2
  rcases eq_nil_or_concat' after with hnil | ⟨init, r, rfl⟩
  · exact hnil
  · have hend : r ∈ model.rows.getLast? := by
      rw [hrows, ← cons_append, ← append_assoc, getLast?_concat]
      rfl
    have hr := h.last_row hmissing r hend
    rw [hother r (by simp)] at hr
    split at hr <;> cases rightSide <;> cases hr

/-- The unterminated last line of a file has text. -/
theorem text_ne_nil (hmem : row ∈ model.rows) (hno : noNewlineOn model rightSide row = true)
    {text : Line} (htext : sideText rightSide row = some text) : text ≠ [] := by
  obtain ⟨before, after, hrows⟩ := append_of_mem hmem
  obtain ⟨-, hafter, hmissing⟩ := h.noNewline_split hrows hno
  have hlast : (model.rows.filterMap (sideText rightSide)).getLast? = some text := by
    have hnone : after.filterMap (sideText rightSide) = [] :=
      filterMap_eq_nil_iff.mpr fun r hr => sideText_eq_none_iff.mpr (hafter r hr)
    rw [hrows, filterMap_append, filterMap_cons_some htext, hnone, getLast?_concat]
  rw [h.missing] at hmissing
  rintro rfl
  rw [h.spelled] at hlast
  rw [(finalNewlineMissing_eq_false_iff _).mpr hlast] at hmissing
  cases hmissing

/-- No line has a newline inside. -/
theorem lf_not_mem (hmem : row ∈ model.rows) {text : Line}
    (htext : sideText rightSide row = some text) : lf ∉ text := by
  have hpiece : text ∈ model.rows.filterMap (sideText rightSide) :=
    mem_filterMap.mpr ⟨row, hmem, htext⟩
  rw [h.spelled] at hpiece
  exact not_mem_of_mem_splitOn lf hpiece

/-- An unchanged row stands for the same text on both sides. -/
theorem rowLine_unchanged_text (hmem : row ∈ model.rows) (hkind : row.kind = .unchanged) :
    (rowLine model false row).map FileLine.text = (rowLine model true row).map FileLine.text := by
  have hphantom : phantomOn model false row = phantomOn model true row :=
    Bool.eq_iff_iff.mpr ⟨h.phantomOn_unchanged hmem hkind false,
      h.phantomOn_unchanged hmem hkind true⟩
  have htext := h.same row hmem hkind
  simp only [rowLine, sideText, left?, right?, hkind, htext, hphantom]
  simp only [if_true, if_false, reduceCtorEq]
  split <;> rfl

end

end RowsOf

end Microide.Project
