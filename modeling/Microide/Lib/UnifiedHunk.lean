/-
Exact application of a unified-diff hunk.

A file is a list of lines that each say whether they are terminated; only the last one
may lack its terminator. A hunk states a position and the lines it expects there, marked
as context, removed or added. *Exact* application checks the header's counts against the
body, compares the expected lines with the file's lines at the stated position,
terminators included, and replaces them; there is no fuzz and no offset.

**Main result.** `fileText_eq_settle_iff`: when two lists of lines carry the same texts
they spell the same bytes only if they agree in every terminator, so a terminator lost
inside a file cannot go unnoticed.
-/

import Microide.Lib.Separated
import Microide.Lib.Slice

namespace Microide.Lib

open List

variable {α : Type*}

/-- One line of a file. -/
structure FileLine (α : Type*) where
  text : List α
  newline : Bool := true
  deriving DecidableEq

/-- The bytes of a file. -/
def fileText (sep : α) (lines : List (FileLine α)) : List α :=
  lines.flatMap fun line => line.text ++ if line.newline then [sep] else []

/-- The lines of a list of pieces: the last piece is a line only if it has text. -/
def linesOfPieces (pieces : List (List α)) : List (FileLine α) :=
  pieces.dropLast.map (fun piece => { text := piece }) ++
    (pieces.getLast?.toList.filter fun piece => !piece.isEmpty).map
      fun piece => { text := piece, newline := false }

/-- The lines of a text: every piece before a separator is terminated, and what follows
the last separator is an unterminated line unless it is empty. -/
def fileLines [BEq α] (sep : α) (text : List α) : List (FileLine α) :=
  linesOfPieces (text.splitOn sep)

@[simp] theorem fileText_nil (sep : α) : fileText sep [] = [] := rfl

@[simp] theorem fileText_append (sep : α) (xs ys : List (FileLine α)) :
    fileText sep (xs ++ ys) = fileText sep xs ++ fileText sep ys := by
  simp [fileText]

theorem fileText_cons (sep : α) (line : FileLine α) (lines : List (FileLine α)) :
    fileText sep (line :: lines) =
      line.text ++ (if line.newline then [sep] else []) ++ fileText sep lines := by
  simp [fileText]

/-! ### The lines of a text -/

theorem linesOfPieces_cons (piece : List α) {pieces : List (List α)} (hne : pieces ≠ []) :
    linesOfPieces (piece :: pieces) = { text := piece } :: linesOfPieces pieces := by
  obtain ⟨next, rest, rfl⟩ := exists_cons_of_ne_nil hne
  simp [linesOfPieces]

section FileLines

variable (sep : α)

theorem fileText_linesOfPieces (pieces : List (List α)) :
    fileText sep (linesOfPieces pieces) = [sep].intercalate pieces := by
  induction pieces with
  | nil => rfl
  | cons piece pieces ih =>
      cases pieces with
      | nil => cases piece <;> simp [linesOfPieces, fileText_cons]
      | cons next rest =>
          rw [linesOfPieces_cons piece (cons_ne_nil _ _), fileText_cons, ih, intercalate_cons_cons]
          simp

variable [DecidableEq α]

/-- The lines of a text spell the text. -/
theorem fileText_fileLines (text : List α) : fileText sep (fileLines sep text) = text := by
  rw [fileLines, fileText_linesOfPieces, intercalate_splitOn]

/-- The last piece is empty exactly when the text is empty or ends in the separator. -/
theorem getLast?_splitOn_eq_nil_iff (text : List α) :
    (text.splitOn sep).getLast? = some [] ↔ text = [] ∨ text.getLast? = some sep := by
  obtain ⟨init, last, heq⟩ : ∃ init last, text.splitOn sep = init ++ [last] :=
    (eq_nil_or_concat' _).resolve_left (splitOn_ne_nil sep text)
  have hmem : last ∈ text.splitOn sep := by simp [heq]
  have hlast : sep ∉ last := not_mem_of_mem_splitOn sep hmem
  have htext : text = fileText sep (linesOfPieces (init ++ [last])) := by
    rw [← heq, ← fileLines, fileText_fileLines]
  rw [heq, htext]
  cases last with
  | nil =>
      rcases eq_nil_or_concat' init with rfl | ⟨init, next, rfl⟩
      · simp [linesOfPieces]
      · simp [linesOfPieces, fileText_cons]
  | cons c rest =>
      have hne : (c :: rest).getLast? ≠ some sep := fun h => hlast (mem_of_getLast? h)
      simpa [linesOfPieces, fileText_cons] using hne

end FileLines

/-- Terminate every line but the last, which keeps its own state. -/
def settle : List (FileLine α) → List (FileLine α)
  | [] => []
  | [line] => [line]
  | line :: next :: rest => { line with newline := true } :: settle (next :: rest)

/-! ### Hunks -/

inductive HunkTag where
  | context
  | remove
  | add
  deriving DecidableEq

structure HunkLine (α : Type*) where
  tag : HunkTag
  line : FileLine α

/-- A hunk: `@@ -oldStart,oldCount +newStart,newCount @@` and its body. -/
structure Hunk (α : Type*) where
  oldStart : Nat
  oldCount : Nat
  newStart : Nat
  newCount : Nat
  body : List (HunkLine α)

/-- The lines a body expects to find. -/
def oldLines (body : List (HunkLine α)) : List (FileLine α) :=
  (body.filter fun l => l.tag ≠ .add).map HunkLine.line

/-- The lines a body leaves behind. -/
def newLines (body : List (HunkLine α)) : List (FileLine α) :=
  (body.filter fun l => l.tag ≠ .remove).map HunkLine.line

namespace Hunk

/-- The header's counts are the body's. -/
def CountsMatch (h : Hunk α) : Prop :=
  h.oldCount = (oldLines h.body).length ∧ h.newCount = (newLines h.body).length

instance (h : Hunk α) : Decidable h.CountsMatch :=
  inferInstanceAs (Decidable (_ ∧ _))

/-- How many lines stand before the hunk: an empty old range names the line it comes
after. -/
def position (h : Hunk α) : Nat :=
  if h.oldCount = 0 then h.oldStart else h.oldStart - 1

/-- The expected lines are the file's lines at the stated position. -/
def MatchesAt [DecidableEq α] (h : Hunk α) (lines : List (FileLine α)) : Prop :=
  h.position ≤ lines.length ∧
    slice lines h.position (h.position + h.oldCount) = oldLines h.body

instance [DecidableEq α] (h : Hunk α) (lines : List (FileLine α)) : Decidable (h.MatchesAt lines) :=
  inferInstanceAs (Decidable (_ ∧ _))

/-- Exact application to the lines of a file. -/
def apply [DecidableEq α] (h : Hunk α) (lines : List (FileLine α)) : Option (List (FileLine α)) :=
  if h.CountsMatch ∧ h.MatchesAt lines then
    some (lines.take h.position ++ newLines h.body ++ lines.drop (h.position + h.oldCount))
  else none

end Hunk

@[simp] theorem oldLines_append (xs ys : List (HunkLine α)) :
    oldLines (xs ++ ys) = oldLines xs ++ oldLines ys := by
  simp [oldLines]

@[simp] theorem newLines_append (xs ys : List (HunkLine α)) :
    newLines (xs ++ ys) = newLines xs ++ newLines ys := by
  simp [newLines]

/-! ### Terminators are visible -/

section

variable (lines : List (FileLine α))

include lines

theorem settle_map_text : (settle lines).map FileLine.text = lines.map FileLine.text := by
  induction lines using settle.induct with
  | case1 => rfl
  | case2 => rfl
  | case3 line next rest ih => simp [settle, ih]

theorem settle_length : (settle lines).length = lines.length := by
  simpa using congrArg List.length (settle_map_text lines)

theorem settle_getLast? : (settle lines).getLast? = lines.getLast? := by
  induction lines using settle.induct with
  | case1 => rfl
  | case2 => rfl
  | case3 line next rest ih =>
      have hne : settle (next :: rest) ≠ [] := by
        simp [← length_pos_iff, settle_length]
      rw [settle, getLast?_cons_of_ne_nil hne, ih, getLast?_cons_cons]

/-- A settled list has at most one unterminated line. -/
theorem le_countP_settle : lines.length ≤ (settle lines).countP FileLine.newline + 1 := by
  induction lines using settle.induct with
  | case1 => simp
  | case2 => simp
  | case3 line next rest ih =>
      simp only [settle, countP_cons_of_pos, length_cons] at ih ⊢
      omega

end

variable {lines : List (FileLine α)} {last : FileLine α}

/-- With a terminated last line every settled line is terminated. -/
theorem countP_settle_of_getLast? (hlast : lines.getLast? = some last)
    (hnewline : last.newline = true) : (settle lines).countP FileLine.newline = lines.length := by
  induction lines using settle.induct with
  | case1 => simp at hlast
  | case2 line =>
      obtain rfl : line = last := by simpa using hlast
      simp [settle, hnewline]
  | case3 line next rest ih =>
      simp [settle, ih (by simpa using hlast)]

theorem count_fileText [DecidableEq α] (sep : α) {lines : List (FileLine α)}
    (hsep : ∀ text ∈ lines.map FileLine.text, sep ∉ text) :
    (fileText sep lines).count sep = lines.countP FileLine.newline := by
  induction lines with
  | nil => rfl
  | cons line lines ih =>
      obtain ⟨hline, hlines⟩ := forall_mem_cons.mp hsep
      rw [fileText_cons, count_append, count_append, ih hlines,
        count_eq_zero_of_not_mem hline, countP_cons]
      cases line.newline <;> simp [Nat.add_comm]

theorem fileText_ne_nil (sep : α) (hlast : lines.getLast? = some last)
    (hopen : last.newline = false → last.text ≠ []) : fileText sep lines ≠ [] := by
  obtain ⟨init, rfl⟩ := getLast?_eq_some_iff.mp hlast
  cases hnewline : last.newline with
  | true => simp [fileText_cons, hnewline]
  | false => simp [fileText_cons, hopen hnewline]

/-- The last byte of a nonempty file is a separator exactly when the last line is
terminated, given that an unterminated last line has text. -/
theorem getLast?_fileText_eq_sep (sep : α) (hlast : lines.getLast? = some last)
    (hsep : sep ∉ last.text) (hopen : last.newline = false → last.text ≠ []) :
    (fileText sep lines).getLast? = some sep ↔ last.newline = true := by
  obtain ⟨init, rfl⟩ := getLast?_eq_some_iff.mp hlast
  rw [fileText_append, fileText_cons, fileText_nil, append_nil]
  cases hnewline : last.newline with
  | true => simp
  | false =>
      have hne := hopen hnewline
      simp only [Bool.false_eq_true, if_false, append_nil, iff_false]
      rw [getLast?_append_of_ne_nil _ hne]
      exact fun h => hsep (mem_of_getLast? h)

/-- A missing terminator cannot be made up for later: the remaining lines, all
terminated at best, have one separator too few. -/
theorem fileText_ne_sep_cons_settle [DecidableEq α] (sep : α) {xs ys : List (FileLine α)}
    (htexts : xs.map FileLine.text = ys.map FileLine.text)
    (hsep : ∀ text ∈ ys.map FileLine.text, sep ∉ text)
    (hopen : ∀ last ∈ ys.getLast?, last.newline = false → last.text ≠ []) :
    fileText sep xs ≠ sep :: fileText sep (settle ys) := by
  intro heq
  have hlength : xs.length = ys.length := by simpa using congrArg List.length htexts
  have hcount := congrArg (List.count sep) heq
  rw [count_cons_self, count_fileText sep (by rwa [htexts]),
    count_fileText sep (by rwa [settle_map_text])] at hcount
  have hle := le_countP_settle ys
  have hbound : xs.countP FileLine.newline ≤ xs.length := countP_le_length
  have hall : ∀ line ∈ xs, line.newline = true := countP_eq_length.mp (by omega)
  rcases eq_nil_or_concat' xs with rfl | ⟨initX, lastX, rfl⟩
  · simp at heq
  rcases eq_nil_or_concat' ys with rfl | ⟨initY, lastY, rfl⟩
  · simp at hlength
  -- The left bytes end in a separator, so the last right line is terminated too, and then
  -- every right line is.
  have htext : lastX.text = lastY.text := by
    simpa using congrArg List.getLast? htexts
  have hsepLast : sep ∉ lastY.text := hsep _ (by simp)
  have hend : (fileText sep (initX ++ [lastX])).getLast? = some sep :=
    (getLast?_fileText_eq_sep sep (by simp) (htext ▸ hsepLast)
      (by simp [hall lastX (by simp)])).mpr (hall lastX (by simp))
  have hlastY : (settle (initY ++ [lastY])).getLast? = some lastY := by
    rw [settle_getLast?]
    simp
  have hopenY := hopen lastY (by simp)
  rw [heq, getLast?_cons_of_ne_nil (fileText_ne_nil sep hlastY hopenY),
    getLast?_fileText_eq_sep sep hlastY hsepLast hopenY] at hend
  rw [countP_settle_of_getLast? (by simp) hend] at hcount
  omega

/-- **Equal bytes mean equal terminators.** Two lists of lines with the same texts, the
second one settled, spell the same bytes only if the first one is terminated inside and
both end alike. -/
theorem fileText_eq_settle_iff [DecidableEq α] (sep : α) {xs ys : List (FileLine α)}
    (htexts : xs.map FileLine.text = ys.map FileLine.text)
    (hsep : ∀ text ∈ ys.map FileLine.text, sep ∉ text)
    (hopen : ∀ last ∈ ys.getLast?, last.newline = false → last.text ≠ []) :
    fileText sep xs = fileText sep (settle ys) ↔
      (∀ line ∈ xs.dropLast, line.newline = true) ∧
        xs.getLast?.map FileLine.newline = ys.getLast?.map FileLine.newline := by
  induction ys using settle.induct generalizing xs with
  | case1 =>
      obtain rfl : xs = [] := by simpa using htexts
      simp [settle]
  | case2 y =>
      obtain ⟨x, rfl, hx⟩ : ∃ x, xs = [x] ∧ x.text = y.text := by
        simpa [map_eq_cons_iff] using htexts
      cases hxn : x.newline <;> cases hyn : y.newline <;> simp [settle, fileText_cons, hx, hxn, hyn]
  | case3 y y' ys ih =>
      obtain ⟨x, xs, rfl, hx, htexts'⟩ := map_eq_cons_iff.mp htexts
      obtain ⟨x', xs', rfl, -, -⟩ := map_eq_cons_iff.mp htexts'
      have hsep' : ∀ text ∈ (y' :: ys).map FileLine.text, sep ∉ text :=
        fun text hmem => hsep text (mem_cons_of_mem _ hmem)
      have hopen' : ∀ last ∈ (y' :: ys).getLast?, last.newline = false → last.text ≠ [] := by
        simpa using hopen
      rw [settle, fileText_cons sep x, fileText_cons sep { y with newline := true }, hx]
      cases hxn : x.newline with
      | true =>
          simp only [append_cancel_left_eq]
          rw [ih htexts' hsep' hopen']
          simp [hxn]
      | false =>
          have hne := fileText_ne_sep_cons_settle sep htexts' hsep' hopen'
          simp [hxn, hne]

end Microide.Lib
