/-
The ends of the files in a patch.

A hunk replaces a range of the rows and leaves the rest of the left file alone. Its texts
are right by construction; what can go wrong is the newline of a line that is a file's
last one. This module compares, for a cut of the rows into what is before, in and after
the range, the lines the hunk leaves behind (`Cut.result`) with the lines it should leave
(`Cut.chosen`), and finds them to agree exactly when the range `KeepsEnds`.
-/

import Microide.Project.PatchRows

namespace Microide.Project

open List Option Bool Lib Text Compare FileLine

/-! ### What a row should contribute -/

/-- The line a row contributes when its change is taken (`taken`) or left alone; a shared
line whose two files do not agree on its newline gets `final`. -/
def chosenLine (model : CompareModel) (final taken : Bool) (row : CompareRow) :
    Option (FileLine UInt8) :=
  if row.kind = .unchanged then
    (rowLine model false row).map fun line =>
      { line with
        newline :=
          if noNewlineOn model false row = noNewlineOn model true row then line.newline else final }
  else rowLine model taken row

/-- The range `mid` of the rows does not cut a file's unterminated last line off. -/
structure KeepsEnds (model : CompareModel) (before mid after : List CompareRow) : Prop where
  left_end : ∀ row ∈ before, noNewlineOn model false row = false
  right_end : ∀ row ∈ mid, noNewlineOn model true row = true → row.kind ≠ .unchanged →
    after.filterMap (rowLine model false) = []
  shared_end : ∀ row ∈ mid.dropLast, noNewlineOn model true row = true → row.kind = .unchanged →
    after = []
  shared_before : ∀ row ∈ before.getLast?, noNewlineOn model true row = true →
    row.kind = .unchanged → after ≠ []

instance (model : CompareModel) (before mid after : List CompareRow) :
    Decidable (KeepsEnds model before mid after) :=
  decidable_of_iff
    ((∀ row ∈ before, noNewlineOn model false row = false) ∧
      (∀ row ∈ mid, noNewlineOn model true row = true → row.kind ≠ .unchanged →
        after.filterMap (rowLine model false) = []) ∧
      (∀ row ∈ mid.dropLast, noNewlineOn model true row = true → row.kind = .unchanged →
        after = []) ∧
      ∀ row ∈ before.getLast?, noNewlineOn model true row = true → row.kind = .unchanged →
        after ≠ [])
    ⟨fun ⟨h₁, h₂, h₃, h₄⟩ => ⟨h₁, h₂, h₃, h₄⟩, fun ⟨h₁, h₂, h₃, h₄⟩ => ⟨h₁, h₂, h₃, h₄⟩⟩

/-! ### Lists of optional lines -/

section Lines

variable {α β : Type*} {f : α → Option (FileLine β)} {rows : List α}

/-- If a row without newline has no line after it, all lines but the last are
terminated. -/
theorem terminated_filterMap
    (h : ∀ before row after line, rows = before ++ row :: after → f row = some line →
      line.newline = false → ∀ r ∈ after, f r = none) :
    ∀ line ∈ (rows.filterMap f).dropLast, line.newline = true := by
  induction rows with
  | nil => simp
  | cons row rows ih =>
      have hrest := ih fun before r after line hrows => h (row :: before) r after line (by simp [hrows])
      cases hrow : f row with
      | none => simpa [hrow] using hrest
      | some line =>
          rw [filterMap_cons_some hrow]
          rcases hnil : rows.filterMap f with _ | ⟨next, lines⟩
          · simp
          · rw [dropLast_cons_cons, forall_mem_cons]
            refine ⟨?_, hnil ▸ hrest⟩
            by_contra hnewline
            have hnone := h [] row rows line rfl hrow (by simpa using hnewline)
            rw [filterMap_eq_nil_iff.mpr hnone] at hnil
            cases hnil

theorem getLast?_filterMap (before : List α) {after : List α} {row : α} {line : FileLine β}
    (hrow : f row = some line) (hafter : ∀ r ∈ after, f r = none) :
    ((before ++ row :: after).filterMap f).getLast? = some line := by
  simp [hrow, filterMap_eq_nil_iff.mpr hafter]

theorem getLast?_append_cons_concat (before after : List α) (row last : α) :
    (before ++ row :: (after ++ [last])).getLast? = some last := by
  rw [← cons_append, ← append_assoc, getLast?_concat]

theorem exists_last_filterMap (h : rows.filterMap f ≠ []) :
    ∃ before row after line, rows = before ++ row :: after ∧ f row = some line ∧
      ∀ r ∈ after, f r = none := by
  obtain ⟨init, last, heq⟩ := (eq_nil_or_concat' _).resolve_left h
  obtain ⟨before, after, rfl, -, hafter⟩ := filterMap_eq_append_iff.mp heq
  obtain ⟨skipped, row, rest, rfl, -, hrow, hrest⟩ := filterMap_eq_cons_iff.mp hafter
  exact ⟨before ++ skipped, row, rest, last, by simp, hrow, filterMap_eq_nil_iff.mp hrest⟩

end Lines

/-- All lines but the last are terminated, in a file that consists of two parts. -/
theorem terminated_append {α : Type*} {xs ys : List (FileLine α)} (hne : ys ≠ []) :
    (∀ line ∈ (xs ++ ys).dropLast, line.newline = true) ↔
      (∀ line ∈ xs, line.newline = true) ∧ ∀ line ∈ ys.dropLast, line.newline = true := by
  rw [dropLast_append_of_ne_nil hne]
  simp only [mem_append, or_imp, forall_and]

/-! ### The lines a hunk leaves behind -/

/-- The line the hunk leaves in place of a row of its range; `rest` follows it there. -/
def takenLine (model : CompareModel) (row : CompareRow) (rest : List CompareRow) :
    Option (FileLine UInt8) :=
  if row.kind = .unchanged then
    (rowLine model false row).map fun line =>
      { line with
        newline :=
          if noNewlineOn model false row && addsAfter rest then !noNewlineOn model true row
          else if noNewlineOn model true row && deletesAfter rest then false
          else line.newline }
  else rowLine model true row

def takenLines (model : CompareModel) : List CompareRow → List (FileLine UInt8)
  | [] => []
  | row :: rest => (takenLine model row rest).toList ++ takenLines model rest

variable {row : CompareRow}

/-- Whether a row of the range leaves a line does not depend on what follows it. -/
theorem takenLine_eq_none_iff {model : CompareModel} (rest : List CompareRow) (final : Bool) :
    takenLine model row rest = none ↔ chosenLine model final true row = none := by
  unfold takenLine chosenLine
  split <;> simp

theorem takenLines_eq_nil_iff {model : CompareModel} {rows : List CompareRow} (final : Bool) :
    takenLines model rows = [] ↔ ∀ row ∈ rows, chosenLine model final true row = none := by
  induction rows with
  | nil => simp [takenLines]
  | cons row rest ih =>
      simp only [takenLines, append_eq_nil_iff, ih, forall_mem_cons,
        toList_eq_nil_iff, takenLine_eq_none_iff _ final]

variable {line : FileLine UInt8}

theorem getLast?_takenLines {model : CompareModel} {before after : List CompareRow}
    (hrow : takenLine model row after = some line) (hafter : takenLines model after = []) :
    (takenLines model (before ++ row :: after)).getLast? = some line := by
  induction before with
  | nil => simp [takenLines, hrow, hafter]
  | cons r before ih => simp [takenLines, ih]

theorem exists_last_takenLines {model : CompareModel} {rows : List CompareRow}
    (h : takenLines model rows ≠ []) :
    ∃ before row after line, rows = before ++ row :: after ∧ takenLine model row after = some line ∧
      takenLines model after = [] := by
  induction rows with
  | nil => simp [takenLines] at h
  | cons row rest ih =>
      by_cases hrest : takenLines model rest = []
      · obtain ⟨line, hline⟩ : ∃ line, takenLine model row rest = some line := by
          rw [takenLines, hrest, append_nil] at h
          exact ne_none_iff_exists'.mp fun hnone => h (by simp [hnone])
        exact ⟨[], row, rest, line, rfl, hline, hrest⟩
      · obtain ⟨before, r, after, line, rfl, hline, hafter⟩ := ih hrest
        exact ⟨row :: before, r, after, line, rfl, hline, hafter⟩

theorem terminated_takenLines {model : CompareModel} {rows : List CompareRow}
    (h : ∀ before row after line, rows = before ++ row :: after →
      takenLine model row after = some line → line.newline = false → takenLines model after = []) :
    ∀ line ∈ (takenLines model rows).dropLast, line.newline = true := by
  induction rows with
  | nil => simp [takenLines]
  | cons row rest ih =>
      have hrest := ih fun before r after line hrows => h (row :: before) r after line (by simp [hrows])
      cases hrow : takenLine model row rest with
      | none => simpa [takenLines, hrow] using hrest
      | some line =>
          rw [takenLines, hrow, toList_some, singleton_append]
          rcases hnil : takenLines model rest with _ | ⟨next, lines⟩
          · simp
          · rw [dropLast_cons_cons, forall_mem_cons]
            refine ⟨?_, hnil ▸ hrest⟩
            by_contra hnewline
            rw [h [] row rest line rfl hrow (by simpa using hnewline)] at hnil
            cases hnil

/-! ### A cut of the rows -/

/-- The rows are cut into what is before, in and after the range of a hunk; `final` is the
final newline of the result. -/
structure Cut (model : CompareModel) (before mid after : List CompareRow) (final : Bool) : Prop where
  rows_eq : model.rows = before ++ mid ++ after
  final_after : after ≠ [] → final = !missingOn model false
  final_mid : after = [] → ∀ row ∈ mid.getLast?, row.kind ≠ .unchanged → final = !missingOn model true
  nonempty : mid ≠ []
  adds : (∀ row ∈ mid, row.kind = .added) → takenLines model mid ≠ []

namespace Cut

variable {model : CompareModel} {left right : List UInt8} {before mid after : List CompareRow}
  {final : Bool}

/-- The left lines outside the range, with the range replaced by what the hunk leaves. -/
def result (model : CompareModel) (before mid after : List CompareRow) : List (FileLine UInt8) :=
  before.filterMap (rowLine model false) ++ takenLines model mid ++
    after.filterMap (rowLine model false)

/-- The lines the result should have. -/
def chosen (model : CompareModel) (final : Bool) (before mid after : List CompareRow) :
    List (FileLine UInt8) :=
  before.filterMap (chosenLine model final false) ++ mid.filterMap (chosenLine model final true) ++
    after.filterMap (chosenLine model final false)

theorem chosenLine_eq_none_iff :
    chosenLine model final false row = none ↔ rowLine model false row = none := by
  unfold chosenLine
  split <;> simp

theorem map_text_chosenLine (row : CompareRow) :
    (chosenLine model final false row).map text =
      (rowLine model false row).map text := by
  unfold chosenLine
  split <;> simp [Function.comp_def]

theorem map_text_takenLines (final : Bool) (rows : List CompareRow) :
    (takenLines model rows).map text =
      (rows.filterMap (chosenLine model final true)).map text := by
  induction rows with
  | nil => rfl
  | cons row rest ih =>
      have hrow : (takenLine model row rest).map text =
          (chosenLine model final true row).map text := by
        unfold takenLine chosenLine
        split <;> simp [Function.comp_def]
      rw [takenLines, map_append, ih]
      cases ht : takenLine model row rest <;> cases hc : chosenLine model final true row <;>
        simp_all

/-- The texts are right whatever the newlines are. -/
theorem map_text_result : (result model before mid after).map text =
    (chosen model final before mid after).map text := by
  simp only [result, chosen, map_append, map_filterMap, map_text_chosenLine,
    map_text_takenLines final]

/-! #### The ends of the files in a cut -/

section

variable (hcut : Cut model before mid after final)

include hcut

theorem split_before {b₁ b₂ : List CompareRow} (hbefore : before = b₁ ++ row :: b₂) :
    model.rows = b₁ ++ row :: (b₂ ++ mid ++ after) := by
  simp [hcut.rows_eq, hbefore]

theorem split_mid {m₁ m₂ : List CompareRow} (hmid : mid = m₁ ++ row :: m₂) :
    model.rows = (before ++ m₁) ++ row :: (m₂ ++ after) := by
  simp [hcut.rows_eq, hmid]

theorem split_after {a₁ a₂ : List CompareRow} (hafter : after = a₁ ++ row :: a₂) :
    model.rows = (before ++ mid ++ a₁) ++ row :: a₂ := by
  simp [hcut.rows_eq, hafter]

end

theorem addsAfter_of_added {rows : List CompareRow} (h : ∀ row ∈ rows, row.kind = .added) :
    addsAfter rows = !rows.isEmpty := by
  cases rows with
  | nil => rfl
  | cons row rest => simp [addsAfter, h row (by simp)]

theorem deletesAfter_of_deleted {rows : List CompareRow} (h : ∀ row ∈ rows, row.kind = .deleted) :
    deletesAfter rows = !rows.isEmpty := by
  cases rows with
  | nil => rfl
  | cons row rest => simp [deletesAfter, h row (by simp)]

section

variable (h : RowsOf model left right)

include h

/-- The hunk leaves a shared line without newline when it is the left file's last line and
ends the range, or the right file's last line and does not. -/
theorem takenLine_newline (hcut : Cut model before mid after final) {m₁ m₂ : List CompareRow}
    (hmid : mid = m₁ ++ row :: m₂) (hkind : row.kind = .unchanged)
    (hline : takenLine model row m₂ = some line) :
    line.newline = !((noNewlineOn model false row && m₂.isEmpty) ||
      (noNewlineOn model true row && !m₂.isEmpty)) := by
  rw [takenLine, if_pos hkind, map_eq_some_iff] at hline
  obtain ⟨l, hl, rfl⟩ := hline
  have hleft : noNewlineOn model false row = true → addsAfter m₂ = !m₂.isEmpty := fun hno =>
    addsAfter_of_added fun r hr =>
      (h.noNewline_split (hcut.split_mid hmid) hno).2.1 r (by simp [hr])
  have hright : noNewlineOn model true row = true → deletesAfter m₂ = !m₂.isEmpty := fun hno =>
    deletesAfter_of_deleted fun r hr =>
      (h.noNewline_split (hcut.split_mid hmid) hno).2.1 r (by simp [hr])
  rw [rowLine_newline hl]
  cases hl' : noNewlineOn model false row <;> cases hr' : noNewlineOn model true row
  · simp
  · cases m₂ <;> simp [hright hr']
  · cases m₂ <;> simp [hleft hl']
  · simp

/-- A row that leaves a line without newline is followed in the range by rows that leave
none. -/
theorem takenLines_after (hcut : Cut model before mid after final) {m₁ m₂ : List CompareRow}
    (hmid : mid = m₁ ++ row :: m₂) (hline : takenLine model row m₂ = some line)
    (hnewline : line.newline = false) : takenLines model m₂ = [] := by
  have hdeleted : noNewlineOn model true row = true → takenLines model m₂ = [] := by
    intro hno
    rw [takenLines_eq_nil_iff final]
    intro r hr
    have hkind : r.kind = .deleted :=
      (h.noNewline_split (hcut.split_mid hmid) hno).2.1 r (by simp [hr])
    simp [chosenLine, hkind, @rowLine_of_otherKind true r model hkind]
  by_cases hkind : row.kind = .unchanged
  · rw [hcut.takenLine_newline h hmid hkind hline] at hnewline
    simp only [not_eq_false', or_eq_true, and_eq_true] at hnewline
    rcases hnewline with ⟨-, hnil⟩ | ⟨hno, -⟩
    · rw [List.isEmpty_iff.mp hnil, takenLines]
    · exact hdeleted hno
  · rw [takenLine, if_neg hkind] at hline
    exact hdeleted (by simpa [rowLine_newline hline] using hnewline)

/-- The lines of any run of rows are terminated but for the last. -/
theorem terminated_side (rightSide : Bool) (pre rows post : List CompareRow)
    (hrows : model.rows = pre ++ rows ++ post) :
    ∀ line ∈ (rows.filterMap (rowLine model rightSide)).dropLast, line.newline = true := by
  apply terminated_filterMap
  intro b row a line heq hline hnewline r hr
  have hno : noNewlineOn model rightSide row = true := by
    simpa [rowLine_newline hline] using hnewline
  have hsplit : model.rows = (pre ++ b) ++ row :: (a ++ post) := by simp [hrows, heq]
  exact rowLine_of_otherKind ((h.noNewline_split hsplit hno).2.1 r (by simp [hr]))

/-- A cut after the left file's unterminated end adds lines to it: never right. -/
theorem not_terminated_of_left_end (hcut : Cut model before mid after final) (hrow : row ∈ before)
    (hno : noNewlineOn model false row = true) :
    ¬ ∀ line ∈ (result model before mid after).dropLast, line.newline = true := by
  obtain ⟨b₁, b₂, hbefore⟩ := append_of_mem hrow
  obtain ⟨hkind, hadded, hmissing⟩ := h.noNewline_split (hcut.split_before hbefore) hno
  have hnone : after.filterMap (rowLine model false) = [] := by
    rw [filterMap_eq_nil_iff]
    exact fun r hr => rowLine_of_otherKind (hadded r (by simp [hr]))
  have htaken : takenLines model mid ≠ [] := hcut.adds fun r hr => hadded r (by simp [hr])
  obtain ⟨line, hline⟩ := ne_none_iff_exists'.mp (rowLine_ne_none hkind hmissing)
  rw [result, hnone, append_nil, terminated_append htaken]
  intro hall
  have hnewline := hall.1 line (mem_filterMap.mpr ⟨row, hrow, hline⟩)
  simp [rowLine_newline hline, hno] at hnewline

end

theorem newline_before (hleft : ∀ row ∈ before, noNewlineOn model false row = false) :
    ∀ line ∈ before.filterMap (rowLine model false), line.newline = true := by
  intro line hline
  obtain ⟨row, hrow, hline⟩ := mem_filterMap.mp hline
  rw [rowLine_newline hline, hleft row hrow]
  rfl

/-- The hunk's line of a changed row is the right line. -/
theorem takenLine_changed {rest : List CompareRow} (hkind : row.kind ≠ .unchanged) :
    takenLine model row rest = rowLine model true row := if_neg hkind

theorem chosenLine_changed {taken : Bool} (hkind : row.kind ≠ .unchanged) :
    chosenLine model final taken row = rowLine model taken row := if_neg hkind

theorem mem_takenLines_iff {rows : List CompareRow} : line ∈ takenLines model rows ↔
      ∃ m₁ row m₂, rows = m₁ ++ row :: m₂ ∧ takenLine model row m₂ = some line := by
  induction rows with
  | nil => simp [takenLines]
  | cons r rest ih =>
      rw [takenLines, mem_append, mem_toList, ih]
      constructor
      · rintro (hline | ⟨m₁, row, m₂, rfl, hline⟩)
        · exact ⟨[], r, rest, rfl, hline⟩
        · exact ⟨r :: m₁, row, m₂, rfl, hline⟩
      · rintro ⟨m₁, row, m₂, heq, hline⟩
        rcases m₁ with _ | ⟨r', m₁⟩
        · obtain ⟨rfl, rfl⟩ := cons_eq_cons.mp heq
          exact Or.inl hline
        · obtain ⟨rfl, rfl⟩ := cons_eq_cons.mp heq
          exact Or.inr ⟨m₁, row, m₂, rfl, hline⟩

theorem exists_split_of_mem_dropLast {rows : List CompareRow} (h : row ∈ rows.dropLast) :
    ∃ m₁ m₂, rows = m₁ ++ row :: m₂ ∧ m₂ ≠ [] := by
  have hne : rows ≠ [] := by
    rintro rfl
    simp at h
  obtain ⟨m₁, m₂, heq⟩ := append_of_mem h
  refine ⟨m₁, m₂ ++ [rows.getLast hne], ?_, by simp⟩
  rw [← cons_append, ← append_assoc, ← heq, dropLast_concat_getLast hne]

/-- The two results have the same newlines. -/
def EndsAgree (model : CompareModel) (final : Bool) (before mid after : List CompareRow) : Prop :=
  (∀ line ∈ (result model before mid after).dropLast, line.newline = true) ∧
    (result model before mid after).getLast?.map FileLine.newline =
      (chosen model final before mid after).getLast?.map FileLine.newline

/-- The right file's unterminated last line, when it is shared and in the range, is a line
the hunk leaves. -/
theorem chosenLine_shared_ne_none (h : RowsOf model left right) (hmem : row ∈ model.rows)
    (hkind : row.kind = .unchanged) (hno : noNewlineOn model true row = true) (taken : Bool) :
    chosenLine model final taken row ≠ none := by
  rw [chosenLine, if_pos hkind]
  simpa using h.rowLine_unchanged_ne_none hmem hkind hno

section LeftEnd

variable (h : RowsOf model left right) (hcut : Cut model before mid after final)

include hcut in
/-- Rows after the right file's unterminated end that have no line are the left phantom. -/
theorem final_of_deleted_after (hne : after ≠ []) (hdeleted : ∀ r ∈ after, r.kind = .deleted)
    (hafter : after.filterMap (rowLine model false) = []) : final = true := by
  obtain ⟨r, rest, heq⟩ := exists_cons_of_ne_nil hne
  have hr : r.kind = .deleted := hdeleted r (by simp [heq])
  have hmissing : missingOn model false = false :=
    (phantomOn_of_rowLine_none (by simp [hr, otherKind])
      (filterMap_eq_nil_iff.mp hafter r (by simp [heq]))).2
  rw [hcut.final_after hne, hmissing]
  rfl

include h hcut

/-- The newline of a shared line that ends the hunk's lines: right unless the range goes
on after the right file's unterminated end and stops short of the last row. -/
theorem newline_shared_iff (hafter : after.filterMap (rowLine model false) = [])
    {m₁ m₂ : List CompareRow} (hmid : mid = m₁ ++ row :: m₂) (hkind : row.kind = .unchanged)
    {line' : FileLine UInt8} (hline : takenLine model row m₂ = some line)
    (hline' : chosenLine model final true row = some line')
    (hnone : ∀ r ∈ m₂, chosenLine model final true r = none) :
    line.newline = line'.newline ↔ (noNewlineOn model true row = true → m₂ ≠ [] → after = []) := by
  have hsplit := hcut.split_mid hmid
  rw [hcut.takenLine_newline h hmid hkind hline]
  rw [chosenLine, if_pos hkind, map_eq_some_iff] at hline'
  obtain ⟨l, hl, rfl⟩ := hline'
  cases hL : noNewlineOn model false row <;> cases hR : noNewlineOn model true row
  · simp [rowLine_newline hl, hL]
  · obtain ⟨-, hdeleted, hmissing⟩ := h.noNewline_split hsplit hR
    rcases eq_nil_or_concat' m₂ with rfl | ⟨init, last, rfl⟩
    · have hfinal : final = true := by
        by_cases hne : after = []
        · subst hne
          have hboth := h.missingOn_eq_of_last_unchanged hsplit hkind
          have hno := h.noNewline_of_no_lines_after hsplit (by simp [hkind, otherKind])
            (hboth.trans hmissing) (by simp)
          simp [hL] at hno
        · exact final_of_deleted_after hcut hne (fun r hr => hdeleted r (by simp [hr])) hafter
      simp [hfinal]
    · by_cases hne : after = []
      · have hlast : last ∈ mid.getLast? := by rw [hmid, getLast?_append_cons_concat]; rfl
        have hfinal := hcut.final_mid hne last hlast (by simp [hdeleted last (by simp), otherKind])
        simp [hfinal, hmissing, hne]
      · have hfinal := final_of_deleted_after hcut hne (fun r hr => hdeleted r (by simp [hr])) hafter
        simp [hfinal, hne]
  · obtain ⟨-, hadded, hmissing⟩ := h.noNewline_split hsplit hL
    rcases eq_nil_or_concat' m₂ with rfl | ⟨init, last, rfl⟩
    · have hne : after ≠ [] := by
        rintro rfl
        have hboth := h.missingOn_eq_of_last_unchanged hsplit hkind
        have hno := h.noNewline_of_no_lines_after hsplit (by simp [hkind, otherKind])
          (hboth ▸ hmissing) (by simp)
        simp [hR] at hno
      simp [hcut.final_after hne, hmissing]
    · -- What is left of the range is the right phantom, and nothing follows it.
      have hlastKind : last.kind = .added := hadded last (by simp)
      have hlastNone := hnone last (by simp)
      rw [chosenLine_changed (by simp [hlastKind])] at hlastNone
      have hphantom := phantomOn_of_rowLine_none (by simp [hlastKind, otherKind]) hlastNone
      have hlastSplit : model.rows = (before ++ m₁ ++ row :: init) ++ last :: after := by
        simp [hsplit]
      have hdeleted := ((h.last_iff hlastSplit true).mp hphantom.1).2
      have hnil : after = [] := by
        rcases after with _ | ⟨r, rest⟩
        · rfl
        · have hr := hdeleted r (by simp)
          rw [hadded r (by simp)] at hr
          cases hr
      have hlast : last ∈ mid.getLast? := by rw [hmid, getLast?_append_cons_concat]; rfl
      have hfinal := hcut.final_mid hnil last hlast (by simp [hlastKind])
      simp [hfinal, hphantom.2]
  · have hnil : m₂ = [] := by
      rcases m₂ with _ | ⟨r, rest⟩
      · rfl
      · have hadded := (h.noNewline_split hsplit hL).2.1 r (by simp)
        rw [(h.noNewline_split hsplit hR).2.1 r (by simp)] at hadded
        cases hadded
    simp [hnil, rowLine_newline hl, hL]

variable (hleft : ∀ row ∈ before, noNewlineOn model false row = false)

include hleft

/-- Left lines follow the range: the hunk must leave only terminated lines. -/
theorem endsAgree_iff_of_lines_after (hafter : after.filterMap (rowLine model false) ≠ []) :
    EndsAgree model final before mid after ↔ KeepsEnds model before mid after := by
  have hne : after ≠ [] := by
    rintro rfl
    exact hafter rfl
  have hlast : (result model before mid after).getLast?.map newline =
      (chosen model final before mid after).getLast?.map newline := by
    -- Both results end with the same row, and outside the range it is left alone.
    obtain ⟨a₁, row, a₂, line, hafterEq, hline, hnone⟩ := exists_last_filterMap hafter
    obtain ⟨line', hline'⟩ : ∃ line', chosenLine model final false row = some line' :=
      ne_none_iff_exists'.mp fun hnone' => by
        rw [chosenLine_eq_none_iff, hline] at hnone'
        cases hnone'
    have hresult : (result model before mid after).getLast? = some line := by
      rw [result, getLast?_append_of_ne_nil _ hafter, hafterEq, getLast?_filterMap a₁ hline hnone]
    have hchosen : (chosen model final before mid after).getLast? = some line' := by
      have hlast := getLast?_filterMap a₁ hline' fun r hr =>
        chosenLine_eq_none_iff.mpr (hnone r hr)
      rw [chosen, hafterEq, getLast?_append, hlast]
      rfl
    rw [hresult, hchosen, map_some, map_some, some_inj]
    by_cases hkind : row.kind = .unchanged
    · rw [chosenLine, if_pos hkind, hline, map_some, some_inj] at hline'
      subst hline'
      have hsplit := hcut.split_after hafterEq
      simp only [hcut.final_after hne, rowLine_newline hline]
      split
      · rfl
      · next hdiffer =>
        cases hl : noNewlineOn model false row with
        | true => simp [(h.noNewline_split hsplit hl).2.2]
        | false =>
            cases hm : missingOn model false with
            | false => rfl
            | true =>
                have hno := h.noNewline_of_no_lines_after hsplit (by simp [hkind, otherKind]) hm hnone
                rw [hl] at hno
                cases hno
    · rw [chosenLine_changed hkind, hline, some_inj] at hline'
      rw [hline']
  have hterminated : (∀ line ∈ (result model before mid after).dropLast, line.newline = true) ↔
      ∀ line ∈ takenLines model mid, line.newline = true := by
    have hafter' := terminated_side h false (before ++ mid) after [] (by simpa using hcut.rows_eq)
    rw [result, terminated_append hafter]
    simp only [mem_append, or_imp, forall_and]
    exact ⟨fun hall => hall.1.2, fun hall => ⟨⟨newline_before hleft, hall⟩, hafter'⟩⟩
  rw [EndsAgree, hterminated, and_iff_left hlast]
  constructor
  · intro hall
    refine ⟨hleft, ?_, ?_, fun _ _ _ _ => hne⟩
    · intro row hrow hno hkind
      obtain ⟨m₁, m₂, hmid⟩ := append_of_mem hrow
      obtain ⟨hother, -, hmissing⟩ := h.noNewline_split (hcut.split_mid hmid) hno
      obtain ⟨line, hline⟩ := ne_none_iff_exists'.mp (rowLine_ne_none hother hmissing)
      have hnewline := hall line (mem_takenLines_iff.mpr
        ⟨m₁, row, m₂, hmid, (takenLine_changed hkind).trans hline⟩)
      simp [rowLine_newline hline, hno] at hnewline
    · intro row hrow hno hkind
      obtain ⟨m₁, m₂, hmid, hm₂⟩ := exists_split_of_mem_dropLast hrow
      have hmem : row ∈ model.rows := by simp [hcut.split_mid hmid]
      obtain ⟨line, hline⟩ := ne_none_iff_exists'.mp
        (mt (takenLine_eq_none_iff m₂ final).mp (chosenLine_shared_ne_none h hmem hkind hno true))
      have hnewline := hall line (mem_takenLines_iff.mpr ⟨m₁, row, m₂, hmid, hline⟩)
      rw [hcut.takenLine_newline h hmid hkind hline] at hnewline
      simp [hno, hm₂] at hnewline
  · intro hkeeps line hline
    obtain ⟨m₁, row, m₂, hmid, hline⟩ := mem_takenLines_iff.mp hline
    by_contra hnewline
    rw [not_eq_true] at hnewline
    by_cases hkind : row.kind = .unchanged
    · rw [hcut.takenLine_newline h hmid hkind hline] at hnewline
      simp only [not_eq_false', or_eq_true, and_eq_true] at hnewline
      rcases hnewline with ⟨hno, -⟩ | ⟨hno, hm₂⟩
      · apply hafter
        rw [filterMap_eq_nil_iff]
        exact fun r hr => rowLine_of_otherKind
          ((h.noNewline_split (hcut.split_mid hmid) hno).2.1 r (by simp [hr]))
      · refine hne (hkeeps.shared_end row ?_ hno hkind)
        rw [hmid, dropLast_append_of_ne_nil (by simp), dropLast_cons_of_ne_nil
          (by simpa using hm₂)]
        simp
    · rw [takenLine_changed hkind] at hline
      exact hafter (hkeeps.right_end row (by simp [hmid])
        (by simpa [rowLine_newline hline] using hnewline) hkind)

/-- The hunk's last line is the last one of the result. -/
theorem endsAgree_iff_of_taken (hafter : after.filterMap (rowLine model false) = [])
    (htaken : takenLines model mid ≠ []) :
    EndsAgree model final before mid after ↔ KeepsEnds model before mid after := by
  obtain ⟨m₁, row, m₂, line, hmid, hline, hm₂⟩ := exists_last_takenLines htaken
  have hnone := (takenLines_eq_nil_iff final).mp hm₂
  obtain ⟨line', hline'⟩ : ∃ line', chosenLine model final true row = some line' :=
    ne_none_iff_exists'.mp fun hnone' => by
      rw [(takenLine_eq_none_iff _ final).mpr hnone'] at hline
      cases hline
  have hsplit := hcut.split_mid hmid
  have hresult : (result model before mid after).getLast? = some line := by
    rw [result, hafter, append_nil, getLast?_append_of_ne_nil _ htaken, hmid,
      getLast?_takenLines hline hm₂]
  have hchosen : (chosen model final before mid after).getLast? = some line' := by
    have hlast := getLast?_filterMap m₁ hline' hnone
    have hafter' : after.filterMap (chosenLine model final false) = [] :=
      filterMap_eq_nil_iff.mpr fun r hr =>
        chosenLine_eq_none_iff.mpr (filterMap_eq_nil_iff.mp hafter r hr)
    rw [chosen, hafter', append_nil, getLast?_append, hmid, hlast]
    rfl
  have hterminated : ∀ line ∈ (result model before mid after).dropLast, line.newline = true := by
    rw [result, hafter, append_nil, terminated_append htaken]
    exact ⟨newline_before hleft, terminated_takenLines fun _ _ _ _ heq =>
      hcut.takenLines_after h heq⟩
  rw [EndsAgree, hresult, hchosen, and_iff_right hterminated, map_some, map_some,
    some_inj]
  -- The row leaves a line, so it is no deleted row; the right file's end is not above it.
  have hnotDeleted : row.kind ≠ .deleted := by
    intro hkind
    rw [chosenLine_changed (by simp [hkind]), rowLine_of_otherKind hkind] at hline'
    cases hline'
  have hnotBefore : ∀ r ∈ before ++ m₁, noNewlineOn model true r = false := by
    intro r hr
    obtain ⟨r₁, r₂, heq⟩ := append_of_mem hr
    have hrows : model.rows = r₁ ++ r :: (r₂ ++ row :: (m₂ ++ after)) := by simp [hsplit, heq]
    cases hno : noNewlineOn model true r with
    | false => rfl
    | true => exact absurd ((h.noNewline_split hrows hno).2.1 row (by simp)) hnotDeleted
  have hnotAfter : ∀ r ∈ m₂, r.kind = .unchanged → noNewlineOn model true r = false := by
    intro r hr hkind
    by_contra hno
    exact chosenLine_shared_ne_none h (by simp [hsplit, hr]) hkind (by simpa using hno) true
      (hnone r hr)
  have hkeeps : KeepsEnds model before mid after ↔ (row.kind = .unchanged →
      noNewlineOn model true row = true → m₂ ≠ [] → after = []) := by
    constructor
    · intro hkeeps hkind hno hne
      refine hkeeps.shared_end row ?_ hno hkind
      rw [hmid, dropLast_append_of_ne_nil (by simp), dropLast_cons_of_ne_nil hne]
      simp
    · intro hrow
      refine ⟨hleft, fun _ _ _ _ => hafter, ?_, ?_⟩
      · intro r hr hno hkind
        rw [hmid, dropLast_append_of_ne_nil (by simp)] at hr
        rcases mem_append.mp hr with hr | hr
        · simp [hnotBefore r (by simp [hr])] at hno
        · by_cases hne : m₂ = []
          · simp [hne] at hr
          · rw [dropLast_cons_of_ne_nil hne] at hr
            rcases mem_cons.mp hr with rfl | hr
            · exact hrow hkind hno hne
            · simp [hnotAfter r (dropLast_subset _ hr) hkind] at hno
      · intro r hr hno
        simp [hnotBefore r (by simp [mem_of_getLast? hr])] at hno
  rw [hkeeps]
  by_cases hkind : row.kind = .unchanged
  · rw [newline_shared_iff h hcut hafter hmid hkind hline hline' hnone]
    simp [hkind]
  · rw [takenLine_changed hkind] at hline
    rw [chosenLine_changed hkind, hline, some_inj] at hline'
    simp [hkind, hline']

/-- The hunk leaves nothing, so that the result ends before the range. -/
theorem endsAgree_iff_of_nothing (hafter : after.filterMap (rowLine model false) = [])
    (htaken : takenLines model mid = []) :
    EndsAgree model final before mid after ↔ KeepsEnds model before mid after := by
  have hnone := (takenLines_eq_nil_iff final).mp htaken
  have hresult : result model before mid after = before.filterMap (rowLine model false) := by
    simp [result, hafter, htaken]
  have hchosen : chosen model final before mid after =
      before.filterMap (chosenLine model final false) := by
    have hafter' : after.filterMap (chosenLine model final false) = [] :=
      filterMap_eq_nil_iff.mpr fun r hr =>
        chosenLine_eq_none_iff.mpr (filterMap_eq_nil_iff.mp hafter r hr)
    simp [chosen, hafter', filterMap_eq_nil_iff.mpr hnone]
  have hterminated : ∀ line ∈ (result model before mid after).dropLast, line.newline = true := by
    rw [hresult]
    exact fun line hline => newline_before hleft line (dropLast_subset _ hline)
  rw [EndsAgree, and_iff_right hterminated, hresult, hchosen]
  -- A shared line would be left by the hunk, so none is in the range.
  have hmidShared : ∀ r ∈ mid, r.kind = .unchanged → noNewlineOn model true r = false := by
    intro r hr hkind
    by_contra hno
    exact chosenLine_shared_ne_none h (by simp [hcut.rows_eq, hr]) hkind (by simpa using hno) true
      (hnone r hr)
  have hkeeps : KeepsEnds model before mid after ↔
      ∀ row ∈ before.getLast?, noNewlineOn model true row = true → row.kind = .unchanged →
        after ≠ [] := by
    refine ⟨KeepsEnds.shared_before, fun hbefore => ⟨hleft, fun _ _ _ _ => hafter, ?_, hbefore⟩⟩
    intro r hr hno hkind
    simp [hmidShared r (dropLast_subset _ hr) hkind] at hno
  rw [hkeeps]
  by_cases hlines : before.filterMap (rowLine model false) = []
  · have hlines' : before.filterMap (chosenLine model final false) = [] :=
      filterMap_eq_nil_iff.mpr fun r hr =>
        chosenLine_eq_none_iff.mpr (filterMap_eq_nil_iff.mp hlines r hr)
    refine ⟨fun _ r hr hno hkind => ?_, fun _ => by simp [hlines, hlines']⟩
    have hmem := mem_of_getLast? hr
    exact absurd (filterMap_eq_nil_iff.mp hlines r hmem)
      (h.rowLine_unchanged_ne_none (by simp [hcut.rows_eq, hmem]) hkind hno)
  · obtain ⟨b₁, row, b₂, line, hbefore, hline, hb₂⟩ := exists_last_filterMap hlines
    obtain ⟨line', hline'⟩ : ∃ line', chosenLine model final false row = some line' :=
      ne_none_iff_exists'.mp fun hnone' => by
        rw [chosenLine_eq_none_iff, hline] at hnone'
        cases hnone'
    have hsplit := hcut.split_before hbefore
    rw [hbefore, getLast?_filterMap b₁ hline hb₂, getLast?_filterMap b₁ hline' fun r hr =>
      chosenLine_eq_none_iff.mpr (hb₂ r hr), map_some, map_some, some_inj]
    have hb₂Shared : ∀ r ∈ b₂, r.kind = .unchanged → noNewlineOn model true r = false := by
      intro r hr hkind
      by_contra hno
      exact h.rowLine_unchanged_ne_none (by simp [hsplit, hr]) hkind (by simpa using hno) (hb₂ r hr)
    -- Unless the shared row is the last one before the range, it cannot matter.
    have hlastRow : (row.kind = .unchanged → noNewlineOn model true row = false) →
        ∀ r ∈ (b₁ ++ row :: b₂).getLast?, noNewlineOn model true r = true → r.kind = .unchanged →
          after ≠ [] := by
      intro hrow r hr hno hkind
      rcases eq_nil_or_concat' b₂ with rfl | ⟨init, last, rfl⟩
      · obtain rfl : row = r := by simpa using hr
        simp [hrow hkind] at hno
      · obtain rfl : last = r := by
          rw [getLast?_append_cons_concat] at hr
          simpa using hr
        simp [hb₂Shared last (by simp) hkind] at hno
    by_cases hkind : row.kind = .unchanged
    · have hL : noNewlineOn model false row = false := hleft row (by simp [hbefore])
      rw [chosenLine, if_pos hkind, hline, map_some, some_inj] at hline'
      subst hline'
      cases hR : noNewlineOn model true row with
      | false =>
          simp only [hL, if_true, true_iff]
          exact hlastRow fun _ => hR
      | true =>
          obtain ⟨-, hdeleted, hmissing⟩ := h.noNewline_split hsplit hR
          obtain ⟨r, rest, hmid⟩ := exists_cons_of_ne_nil hcut.nonempty
          have hnil : b₂ = [] := by
            rcases b₂ with _ | ⟨r', b₂⟩
            · rfl
            · have hr' : r'.kind = .deleted := hdeleted r' (by simp)
              have hphantom := phantomOn_of_rowLine_none (by simp [hr', otherKind]) (hb₂ r' (by simp))
              have hrows : model.rows = (b₁ ++ [row]) ++ r' :: (b₂ ++ mid ++ after) := by
                simp [hsplit]
              have hadded := ((h.last_iff hrows false).mp hphantom.1).2 r (by simp [hmid])
              rw [hdeleted r (by simp [hmid])] at hadded
              cases hadded
          subst hnil
          by_cases hne : after = []
          · obtain ⟨init, last, hmid⟩ := (eq_nil_or_concat' mid).resolve_left hcut.nonempty
            have hlast : last ∈ mid.getLast? := by simp [hmid]
            have hkindLast : last.kind = .deleted := hdeleted last (by simp [hmid])
            have hfinal := hcut.final_mid hne last hlast (by simp [hkindLast])
            simp [hL, rowLine_newline hline, hfinal, hmissing, hne, hR, hkind]
          · have hfinal := final_of_deleted_after hcut hne (fun r hr => hdeleted r (by simp [hr]))
              hafter
            simp [rowLine_newline hline, hfinal, hne]
    · rw [chosenLine_changed hkind, hline, some_inj] at hline'
      simp only [hline', true_iff]
      exact hlastRow fun hkind' => absurd hkind' hkind

end LeftEnd

/-- **A cut is right exactly when it keeps the ends of the files.** -/
theorem endsAgree_iff (h : RowsOf model left right) (hcut : Cut model before mid after final) :
    EndsAgree model final before mid after ↔ KeepsEnds model before mid after := by
  by_cases hleft : ∀ row ∈ before, noNewlineOn model false row = false
  · by_cases hafter : after.filterMap (rowLine model false) = []
    · by_cases htaken : takenLines model mid = []
      · exact endsAgree_iff_of_nothing h hcut hleft hafter htaken
      · exact endsAgree_iff_of_taken h hcut hleft hafter htaken
    · exact endsAgree_iff_of_lines_after h hcut hleft hafter
  · obtain ⟨row, hrow, hno⟩ : ∃ row ∈ before, noNewlineOn model false row = true := by
      simpa using hleft
    exact ⟨fun hall => absurd hall.1 (hcut.not_terminated_of_left_end h hrow hno),
      fun hkeeps => absurd hkeeps.left_end hleft⟩

end Cut

end Microide.Project
