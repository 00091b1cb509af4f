/-
What an undo entry says about a document.

An entry describes an edit when its images are the lines, or the bytes of a line, that the
edit replaced and installed. Undo and redo only read entries, so all that they do to the
document follows from this relation.

* `Describes.forward`, `Describes.backward`: applying a described entry gives the document
  after the edit, and applying it backward the document before.
* `coalescedTop_describes`: the entry that a typing run leaves on the stack describes the
  whole run.
-/

import Mathlib.Data.List.Forall2
import Microide.Editor.UndoHistory

namespace Microide.Editor

open List Lib Text

/-! ### Described edits -/

/-- The lines a buffer can have: one at least, and none with a line break in it. -/
structure BufferLines (lines : List Line) : Prop where
  nonempty : lines ≠ []
  free : ∀ line ∈ lines, lf ∉ line

namespace Entry

/-- The line ranges of an entry: the primary one is the lowest. -/
def parts (entry : Entry) : List (Replacement Line) :=
  ⟨entry.startLine, entry.startLine, entry.beforeLines, entry.afterLines⟩ :: entry.extraParts

/-- The change of the line ending that applying the entry makes. -/
def lineEndings (entry : Entry) : Option (LineEnding × LineEnding) :=
  if entry.isMultiRange then none
  else
    match entry.lineEndingAfter, entry.lineEndingBefore with
    | some after, some before => some (before, after)
    | _, _ => none

/-- The entry's bytes are what differs in its line. -/
def SplicesLine (entry : Entry) (pre post : List Line) : Prop :=
  ∃ line line', Replaces entry.startLine [line] [line'] pre post ∧
    Replaces entry.startColumn entry.removedText entry.insertedText line line'

/-- The line ending before and after are the entry's, or the edit leaves it alone. -/
def ChangesEnding (endings : Option (LineEnding × LineEnding)) (pre post : LineEnding) : Prop :=
  match endings with
  | some (before, after) => pre = before ∧ post = after
  | none => pre = post

/-- **The entry's images are what the edit from `pre` to `post` replaced and installed.** -/
structure Describes (entry : Entry) (pre post : Document) : Prop where
  before : BufferLines pre.lines
  after : BufferLines post.lines
  spliced : entry.isInline = true →
    entry.extraParts = [] ∧ entry.SplicesLine pre.lines post.lines
  replaced : entry.isInline = false → Splits 0 0 entry.parts pre.lines post.lines
  ending : ChangesEnding entry.lineEndings pre.lineEnding post.lineEnding

/-- The entry read from the document after to the document before. -/
def inverse (entry : Entry) : Entry :=
  { entry with
    removedText := entry.insertedText, insertedText := entry.removedText
    beforeLines := entry.afterLines, afterLines := entry.beforeLines
    extraParts := entry.extraParts.map Replacement.swap
    lineEndingBefore := entry.lineEndingAfter, lineEndingAfter := entry.lineEndingBefore }

variable {entry : Entry} {pre post : Document}

theorem isMultiRange_inverse (entry : Entry) : entry.inverse.isMultiRange = entry.isMultiRange := by
  simp only [isMultiRange, inverse, isEmpty_map]

theorem parts_inverse (entry : Entry) : entry.inverse.parts = entry.parts.map Replacement.swap := rfl

theorem lineEndings_inverse (entry : Entry) :
    entry.inverse.lineEndings = entry.lineEndings.map Prod.swap := by
  simp only [lineEndings, isMultiRange_inverse]
  cases entry.isMultiRange with
  | true => rfl
  | false =>
      simp only [inverse]
      cases entry.lineEndingBefore <;> cases entry.lineEndingAfter <;> rfl

theorem Describes.inverse (h : entry.Describes pre post) : entry.inverse.Describes post pre where
  before := h.after
  after := h.before
  spliced := by
    intro hinline
    obtain ⟨hparts, line, line', hline, hbytes⟩ := h.spliced hinline
    exact ⟨by rw [Entry.inverse, hparts]; rfl, line', line, hline.swap, hbytes.swap⟩
  replaced := by
    intro hinline
    exact (h.replaced hinline).swap
  ending := by
    have hending := h.ending
    rw [lineEndings_inverse]
    cases hcase : entry.lineEndings with
    | none =>
        rw [hcase] at hending
        exact Eq.symm hending
    | some endings =>
        rw [hcase] at hending
        exact ⟨hending.2, hending.1⟩

end Entry

/-! ### Applying an entry -/

theorem replaceLines_eq_splice (lines : List Line) (start removed : Nat) (inserted : List Line) :
    replaceLines lines (min start lines.length) removed inserted =
      splice lines start removed inserted := by
  rcases Nat.le_total start lines.length with h | h
  · rw [Nat.min_eq_left h]
    rfl
  · rw [Nat.min_eq_right h, replaceLines, splice, take_of_length_le (Nat.le_refl _),
      take_of_length_le h, drop_eq_nil_of_le (Nat.le_add_right ..),
      drop_eq_nil_of_le (Nat.le_trans h (Nat.le_add_right ..))]

theorem orBlankLine_eq {lines : List Line} (h : lines ≠ []) : orBlankLine lines = lines := by
  rw [orBlankLine, if_neg]
  rwa [List.isEmpty_iff]

/-- The walk over the parts splices each of them in, highest first. -/
theorem applyParts_true (lines : List Line) (entry : Entry) :
    applyParts lines entry true = Lib.applyParts entry.parts lines := by
  simp only [applyParts, replaceLines_eq_splice]
  rfl

theorem applyParts_false (lines : List Line) (entry : Entry) :
    applyParts lines entry false = applyParts lines entry.inverse true := by
  simp only [applyParts, Entry.inverse, foldr_map]
  rfl

theorem applyEntryToBuffer_false (lines : List Line) (entry : Entry) :
    applyEntryToBuffer lines entry false = applyEntryToBuffer lines entry.inverse true := by
  simp only [applyEntryToBuffer, applyParts_false, Entry.isMultiRange_inverse]
  rfl

theorem applyHistoryEntry_false (doc : Document) (entry : Entry) :
    applyHistoryEntry doc entry false = applyHistoryEntry doc entry.inverse true := by
  simp only [applyHistoryEntry, applyParts_false, applyEntryToBuffer_false,
    Entry.isMultiRange_inverse]
  simp only [Entry.inverse]
  cases entry.lineEndingAfter <;> cases entry.lineEndingBefore <;> rfl

/-- A splice of bytes within a line. -/
theorem replaceText_within {pre post : List Line} {line line' : Line} {start column : Nat}
    {removed inserted : List UInt8} (hfree : lf ∉ line')
    (hline : Replaces start [line] [line'] pre post)
    (hbytes : Replaces column removed inserted line line') :
    replaceText pre start column start (column + removed.length) inserted = post := by
  obtain ⟨front, rest, rfl, rfl, rfl⟩ := hline
  have hpos : ¬ (front ++ [line] ++ rest).isEmpty := by simp
  have hstart : min front.length ((front ++ [line] ++ rest).length - 1) = front.length := by
    simp only [length_append, length_singleton]
    omega
  have hline : (front ++ [line] ++ rest).getD front.length [] = line := by
    simp
  have hroom := hbytes.start_add_le
  rw [replaceText, if_neg hpos]
  dsimp only
  rw [hstart, Nat.max_self, hline, if_pos rfl, Nat.min_eq_left (by omega), Nat.min_eq_left hroom,
    Nat.max_eq_right (Nat.le_add_right ..)]
  have hspliced : line.take column ++ inserted ++ line.drop (column + removed.length) = line' :=
    hbytes.splice_eq
  rw [hspliced, splitOn_eq_singleton hfree]
  congr 1
  · rw [append_assoc, take_left]
  · rw [drop_left' (by rw [length_append, length_singleton])]

namespace Entry

variable {entry : Entry} {pre post : Document}

section

variable (h : entry.Describes pre post)

include h

theorem Describes.isMultiRange_eq (hinline : entry.isInline = true) :
    entry.isMultiRange = false := by
  rw [isMultiRange, (h.spliced hinline).1]
  rfl

/-- The lines after a described edit. -/
theorem Describes.applyEntryToBuffer_eq : applyEntryToBuffer pre.lines entry true = post.lines := by
  have hpre : pre.lines.isEmpty = false := isEmpty_eq_false_iff.mpr h.before.nonempty
  rw [applyEntryToBuffer, hpre]
  cases hinline : entry.isInline with
  | true =>
      obtain ⟨-, line, line', hline, hbytes⟩ := h.spliced hinline
      have hbound := hline.start_add_le
      rw [length_singleton] at hbound
      have hfree : lf ∉ line' := by
        obtain ⟨front, rest, -, hpost, -⟩ := hline
        exact h.after.free line' (by rw [hpost]; simp)
      have hmin : min entry.startLine (pre.lines.length - 1) = entry.startLine := by omega
      simp only [hmin]
      exact replaceText_within hfree hline hbytes
  | false =>
      have hparts := (h.replaced hinline).forward
      simp only [Bool.false_and, Bool.false_eq_true, if_false]
      split
      · rw [applyParts_true, hparts, orBlankLine_eq h.after.nonempty]
      next hsingle =>
        rw [Bool.not_eq_true, isMultiRange, Bool.not_eq_false', List.isEmpty_iff] at hsingle
        rw [replaceLines_eq_splice]
        rw [parts, hsingle] at hparts
        exact (congrArg orBlankLine hparts).trans (orBlankLine_eq h.after.nonempty)

/-- **Applying a described entry gives the document after the edit.** -/
theorem Describes.forward : applyHistoryEntry pre entry true = post := by
  have hlines := h.applyEntryToBuffer_eq
  have hending := h.ending
  rw [applyHistoryEntry]
  cases hmulti : entry.isMultiRange with
  | true =>
      have hinline : entry.isInline = false := by
        cases hcase : entry.isInline with
        | true => exact absurd (h.isMultiRange_eq hcase) (by rw [hmulti]; decide)
        | false => rfl
      rw [applyEntryToBuffer, hinline, hmulti] at hlines
      rw [lineEndings, hmulti] at hending
      simp only [if_true]
      exact Document.ext hlines hending
  | false =>
      rw [lineEndings, hmulti] at hending
      simp only [hlines]
      cases hafter : entry.lineEndingAfter <;> cases hbefore : entry.lineEndingBefore <;>
        simp only [hafter, hbefore] at hending ⊢
      · exact Document.ext rfl hending
      · exact Document.ext rfl hending
      · exact Document.ext rfl hending
      · exact Document.ext rfl hending.2.symm

/-- **Applying it backward gives the document before.** -/
theorem Describes.backward : applyHistoryEntry post entry false = pre := by
  rw [applyHistoryEntry_false]
  exact h.inverse.forward

/-- What a described entry says is about its images and its line endings only. -/
theorem Describes.congr {other : Entry}
    (hsame : { other with
      beforeState := entry.beforeState, afterState := entry.afterState
      byteSize := entry.byteSize } = entry) : other.Describes pre post := by
  rw [← hsame] at h
  exact ⟨h.before, h.after, h.spliced, h.replaced, h.ending⟩

end

end Entry

/-! ### Coalescing -/

section Coalescing

variable {top next merged : Entry} {pre mid post : Document}

theorem rangeEquals_iff {lines other : List Line} {first : Nat} :
    rangeEquals lines first other = true ↔
      first + other.length ≤ lines.length ∧ (lines.drop first).take other.length = other := by
  rw [rangeEquals]
  split <;> simp <;> omega

theorem eq_of_rangeEquals {lines other : List Line} (hlength : lines.length = other.length)
    (h : rangeEquals lines 0 other = true) : lines = other := by
  have := (rangeEquals_iff.mp h).2
  rwa [drop_zero, take_of_length_le (Nat.le_of_eq hlength)] at this

/-- A run does not change the line ending a second time. -/
theorem changesEnding_trans {endings : Option (LineEnding × LineEnding)} {a b c : LineEnding}
    (h : Entry.ChangesEnding endings a b) (h' : Entry.ChangesEnding none b c) :
    Entry.ChangesEnding endings a c := by
  obtain rfl : b = c := h'
  exact h

/-- An entry that differs from a described one in its ranges. -/
theorem Entry.Describes.rerange (htop : top.Describes pre mid) (hnext : next.Describes mid post)
    (hquiet : next.lineEndings = none) (hline : top.isInline = false) {entry : Entry}
    (hinline : entry.isInline = top.isInline) (hmulti : entry.isMultiRange = top.isMultiRange)
    (hbefore : entry.lineEndingBefore = top.lineEndingBefore)
    (hafter : entry.lineEndingAfter = top.lineEndingAfter)
    (hparts : Splits 0 0 entry.parts pre.lines post.lines) : entry.Describes pre post where
  before := htop.before
  after := hnext.after
  spliced := by
    rw [hinline, hline]
    exact fun h => absurd h (by decide)
  replaced := fun _ => hparts
  ending := by
    have hendings : entry.lineEndings = top.lineEndings := by
      rw [Entry.lineEndings, Entry.lineEndings, hmulti, hbefore, hafter]
    rw [hendings]
    exact changesEnding_trans htop.ending (hquiet ▸ hnext.ending)

theorem sameShape_of_canMerge (hcan : canMergeSameShapeMultiRange top next = true) :
    top.isInline = false ∧ next.isInline = false ∧ SameShape top.parts next.parts := by
  rw [canMergeSameShapeMultiRange] at hcan
  split at hcan
  · cases hcan
  rename_i hshape
  simp only [Bool.or_eq_true, Bool.not_eq_true, bne_iff_ne, not_or, not_not,
    Bool.not_eq_eq_eq_not, Bool.not_true, Bool.not_eq_false] at hshape
  obtain ⟨⟨⟨⟨⟨⟨htop, hnext⟩, -⟩, hcount⟩, hstart⟩, hlength⟩, hequals⟩ := hshape
  refine ⟨htop, hnext, .cons ⟨hstart, eq_of_rangeEquals hlength hequals⟩ ?_⟩
  rw [forall₂_iff_zip]
  refine ⟨hcount, fun {part part'} hmem => ?_⟩
  have hpart := all_eq_true.mp hcan _ (by
    rw [← map_uncurry_zip_eq_zipWith]
    exact mem_map_of_mem hmem)
  simp only [id, Function.uncurry_apply_pair, Bool.and_eq_true, beq_iff_eq] at hpart
  exact ⟨hpart.1.1, eq_of_rangeEquals hpart.1.2 hpart.2⟩

theorem mergeSameShape_describes (htop : top.Describes pre mid) (hnext : next.Describes mid post)
    (hquiet : next.lineEndings = none) (hcan : canMergeSameShapeMultiRange top next = true) :
    (mergeSameShapeMultiRange top next).Describes pre post := by
  obtain ⟨hline, hline', hshape⟩ := sameShape_of_canMerge hcan
  have hlength := hshape.length_eq
  refine htop.rerange hnext hquiet hline rfl ?_ rfl rfl ?_
  · simp only [Entry.parts] at hlength
    rw [Entry.isMultiRange, Entry.isMultiRange, mergeSameShapeMultiRange]
    cases hextra : top.extraParts with
    | nil => rfl
    | cons part parts =>
        cases hextra' : next.extraParts with
        | nil => rw [hextra, hextra'] at hlength; simp at hlength
        | cons part' parts' => rfl
  · have hstart : top.startLine = next.startLine := (forall₂_cons.mp hshape).1.1
    have hparts : (mergeSameShapeMultiRange top next).parts =
        List.zipWith Replacement.comp top.parts next.parts := by
      rw [Entry.parts, Entry.parts, Entry.parts, zipWith_cons_cons, Replacement.comp, ← hstart]
      rfl
    rw [hparts]
    exact .comp hshape (htop.replaced hline) (hnext.replaced hline')

/-- The three ways in which line ranges merge. -/
theorem mergeGroupEntry_replaces {pre mid post : List Line}
    (htop : Replaces top.startLine top.beforeLines top.afterLines pre mid)
    (hnext : Replaces next.startLine next.beforeLines next.afterLines mid post)
    (hcan : canMergeGroupEntry top next = true) :
    Replaces (mergeGroupEntry top next).startLine (mergeGroupEntry top next).beforeLines
      (mergeGroupEntry top next).afterLines pre post := by
  rw [canMergeGroupEntry] at hcan
  rw [mergeGroupEntry]
  dsimp only at hcan ⊢
  split
  next htouch =>
    exact htop.below hnext htouch
  split
  next htouch =>
    exact htop.above hnext htouch
  rename_i hbelow habove
  rw [if_neg (not_or.mpr ⟨hbelow, habove⟩)] at hcan
  split at hcan
  · cases hcan
  split at hcan
  · cases hcan
  split at hcan
  · cases hcan
  rename_i hwithin
  rw [not_or, Nat.not_lt, Nat.not_lt] at hwithin
  have hspliced := (htop.inside hnext hwithin.1 hwithin.2).2
  have hreplaced : replaceRange top.afterLines (next.startLine - top.startLine)
      (next.startLine - top.startLine + next.beforeLines.length) next.afterLines =
        splice top.afterLines (next.startLine - top.startLine) next.beforeLines.length
          next.afterLines := by
    rw [replaceRange, splice, Nat.min_eq_left (by omega), Nat.max_eq_left (Nat.le_add_right ..),
      Nat.min_eq_left (by omega)]
  rw [hreplaced]
  exact hspliced

/-- Merging keeps all but the ranges and the state after. -/
theorem mergeGroupEntry_frame (top next : Entry) :
    (mergeGroupEntry top next).isInline = top.isInline ∧
      (mergeGroupEntry top next).extraParts = top.extraParts ∧
      (mergeGroupEntry top next).lineEndingBefore = top.lineEndingBefore ∧
      (mergeGroupEntry top next).lineEndingAfter = top.lineEndingAfter := by
  rw [mergeGroupEntry]
  dsimp only
  split
  · exact ⟨rfl, rfl, rfl, rfl⟩
  split
  · exact ⟨rfl, rfl, rfl, rfl⟩
  · exact ⟨rfl, rfl, rfl, rfl⟩

/-- Only single ranges of lines merge. -/
theorem single_of_canMerge (hcan : canMergeGroupEntry top next = true) :
    (top.isInline = false ∧ top.extraParts = []) ∧ next.isInline = false ∧ next.extraParts = [] := by
  rw [canMergeGroupEntry] at hcan
  split at hcan
  · cases hcan
  rename_i hinline
  split at hcan
  · cases hcan
  rename_i hmulti
  simp only [Entry.isMultiRange, Bool.or_eq_true, not_or, Bool.not_eq_true, Bool.not_eq_false',
    List.isEmpty_iff] at hinline hmulti
  exact ⟨⟨hinline.1, hmulti.1⟩, hinline.2, hmulti.2⟩

theorem Entry.Describes.replaces {entry : Entry} (h : entry.Describes pre post)
    (hline : entry.isInline = false) (hsingle : entry.extraParts = []) :
    Replaces entry.startLine entry.beforeLines entry.afterLines pre.lines post.lines := by
  have hparts := h.replaced hline
  rw [Entry.parts, hsingle] at hparts
  exact Replaces.splits_iff.mp hparts

theorem mergeGroup_describes (htop : top.Describes pre mid) (hnext : next.Describes mid post)
    (hquiet : next.lineEndings = none) (hcan : canMergeGroupEntry top next = true) :
    (mergeGroupEntry top next).Describes pre post := by
  obtain ⟨⟨hline, hsingle⟩, hline', hsingle'⟩ := single_of_canMerge hcan
  obtain ⟨hkind, hextra, hbefore, hafter⟩ := mergeGroupEntry_frame top next
  refine htop.rerange hnext hquiet hline hkind ?_ hbefore hafter ?_
  · rw [Entry.isMultiRange, Entry.isMultiRange, hextra]
  · rw [Entry.parts, hextra, hsingle]
    exact Replaces.splits_iff.mpr (mergeGroupEntry_replaces (htop.replaces hline hsingle)
      (hnext.replaces hline' hsingle') hcan)

theorem startLine_of_canMergeInline (hcan : canMergeInlineEntry top next = true) :
    top.startLine = next.startLine := by
  rw [canMergeInlineEntry] at hcan
  split at hcan
  · cases hcan
  next h =>
    exact not_not.mp h

theorem mergeInlineEntryInto_frame (top next : Entry) :
    (mergeInlineEntryInto top next).isInline = top.isInline ∧
      (mergeInlineEntryInto top next).startLine = top.startLine ∧
      (mergeInlineEntryInto top next).extraParts = top.extraParts ∧
      (mergeInlineEntryInto top next).lineEndingBefore = top.lineEndingBefore ∧
      (mergeInlineEntryInto top next).lineEndingAfter = top.lineEndingAfter := by
  rw [mergeInlineEntryInto]
  split
  · exact ⟨rfl, rfl, rfl, rfl, rfl⟩
  split
  · exact ⟨rfl, rfl, rfl, rfl, rfl⟩
  · exact ⟨rfl, rfl, rfl, rfl, rfl⟩

/-- The three ways in which byte ranges of one line merge. -/
theorem mergeInlineEntryInto_replaces {pre mid post : Line}
    (htop : Replaces top.startColumn top.removedText top.insertedText pre mid)
    (hnext : Replaces next.startColumn next.removedText next.insertedText mid post)
    (hcan : canMergeInlineEntry top next = true) :
    Replaces (mergeInlineEntryInto top next).startColumn (mergeInlineEntryInto top next).removedText
      (mergeInlineEntryInto top next).insertedText pre post := by
  rw [canMergeInlineEntry] at hcan
  rw [mergeInlineEntryInto]
  split
  next htouch =>
    exact htop.above hnext htouch
  split
  next htouch =>
    exact htop.below hnext htouch
  rename_i habove hbelow
  rw [if_neg (not_or.mpr ⟨habove, hbelow⟩)] at hcan
  split at hcan
  · cases hcan
  split at hcan
  · cases hcan
  rename_i hwithin
  rw [not_or, Nat.not_lt, Nat.not_lt] at hwithin
  exact (htop.inside hnext hwithin.1 hwithin.2).2

theorem mergeInline_describes (htop : top.Describes pre mid) (hnext : next.Describes mid post)
    (hquiet : next.lineEndings = none) (hinline : top.isInline = true)
    (hinline' : next.isInline = true) (hcan : canMergeInlineEntry top next = true) :
    (mergeInlineEntryInto top next).Describes pre post := by
  obtain ⟨hsingle, line, line₁, hline, hbytes⟩ := htop.spliced hinline
  obtain ⟨-, line₁', line₂, hline', hbytes'⟩ := hnext.spliced hinline'
  have hstart := startLine_of_canMergeInline hcan
  rw [← hstart] at hline'
  obtain ⟨hsame, hwhole⟩ := hline.trans hline' rfl
  obtain rfl : line₁' = line₁ := singleton_inj.mp hsame
  obtain ⟨hkind, hlineStart, hextra, hbefore, hafter⟩ := mergeInlineEntryInto_frame top next
  have hendings : (mergeInlineEntryInto top next).lineEndings = top.lineEndings := by
    rw [Entry.lineEndings, Entry.lineEndings, Entry.isMultiRange, Entry.isMultiRange, hextra,
      hbefore, hafter]
  refine ⟨htop.before, hnext.after, fun _ => ⟨hextra.trans hsingle, line, line₂, ?_, ?_⟩, ?_, ?_⟩
  · rw [hlineStart]
    exact hwhole
  · exact mergeInlineEntryInto_replaces hbytes hbytes' hcan
  · rw [hkind, hinline]
    exact fun h => absurd h (by decide)
  · rw [hendings]
    exact changesEnding_trans htop.ending (hquiet ▸ hnext.ending)

/-- **The entry a run leaves on the stack describes the run.** -/
theorem coalescedTop_describes (htop : top.Describes pre mid) (hnext : next.Describes mid post)
    (hquiet : next.lineEndings = none) (h : UndoHistory.coalescedTop top next = some merged) :
    merged.Describes pre post := by
  rw [UndoHistory.coalescedTop] at h
  split at h
  · cases h
  rename_i hshape
  rw [not_not] at hshape
  split at h
  · split at h
    next hcan =>
      cases h
      exact mergeSameShape_describes htop hnext hquiet hcan
    · cases h
  split at h
  next hinline =>
    split at h
    next hcan =>
      cases h
      exact mergeInline_describes htop hnext hquiet hinline (hshape ▸ hinline) hcan
    · cases h
  split at h
  next hcan =>
    cases h
    exact (mergeGroup_describes htop hnext hquiet hcan).congr rfl
  · cases h

end Coalescing

end Microide.Editor
