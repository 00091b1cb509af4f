/-
Batches of ranged edits.

The ranges of a batch all refer to the document before it. They are put in an order in which an
edit moves no range still to come: the highest start first, of one start the longer range, and of
one range the edit that stands later in the batch. Ranges that touch are no overlap; the sweep
compares neighbours in that order only.

**Main results.** `editsOverlap_iff`: what the sweep finds; `batch_order_safe`: a batch without
an overlap made one edit after the other is the batch made at once.
-/

import Microide.Editor.EditTypes
import Microide.Editor.PieceTreeReads
import Microide.Lib.OrderedTable
import Microide.Lib.RangeEdits

namespace Microide.Editor

open List Bool Lib Text AppliedEdit

namespace SelectionRange

/-- The range, its earlier end first. -/
def normalized (range : SelectionRange) : SelectionRange :=
  if positionBefore range.stop range.start then ⟨range.stop, range.start⟩ else range

end SelectionRange

def rangeAt (ranges : List SelectionRange) (index : Nat) : SelectionRange :=
  (ranges.getD index ⟨⟨0, 0⟩, ⟨0, 0⟩⟩).normalized

/-- The order of the sort in `OrderEditsForApplication`. -/
def appliesBefore (ranges : List SelectionRange) (lhs rhs : Nat) : Bool :=
  let a := rangeAt ranges lhs
  let b := rangeAt ranges rhs
  if positionBefore b.start a.start then true
  else if positionBefore a.start b.start then false
  else if positionBefore b.stop a.stop then true
  else if positionBefore a.stop b.stop then false
  else rhs < lhs

/-- `OrderEditsForApplication`. -/
def orderEditsForApplication (ranges : List SelectionRange) : List Nat :=
  (List.range ranges.length).mergeSort fun lhs rhs => !appliesBefore ranges rhs lhs

/-- `EditsOverlap`. -/
def editsOverlap (ranges : List SelectionRange) : List Nat → Bool
  | hi :: lo :: rest =>
    positionBefore (rangeAt ranges hi).start (rangeAt ranges lo).stop ||
      editsOverlap ranges (lo :: rest)
  | _ => false

/-! ### Offsets -/

/-- A position of a document. -/
def InDocument (lines : List Line) (position : TextPosition) : Prop :=
  position.line < lines.length ∧ position.column ≤ (lines.getD position.line []).length

def offsetOf (lines : List Line) (position : TextPosition) : Nat :=
  lineOffset lf lines position.line + position.column

/-- An edit of the document's text. -/
def rangeEdit (lines : List Line) (edit : AppliedEdit) : RangeEdit UInt8 where
  start := offsetOf lines edit.normalized.start
  stop := offsetOf lines edit.normalized.stop
  text := edit.replacementText

/-- Both ends of an edit's range are in the document. -/
def EditInside (lines : List Line) (edit : AppliedEdit) : Prop :=
  InDocument lines edit.rangeBefore.start ∧ InDocument lines edit.rangeBefore.stop

variable {lines : List Line}

theorem positionBefore_iff (p q : TextPosition) : positionBefore p q = true ↔
    p.line < q.line ∨ p.line = q.line ∧ p.column < q.column := by
  simp [positionBefore]

/-- The offsets are in the order of the positions. -/
theorem positionBefore_iff_offset {p q : TextPosition} (hp : InDocument lines p)
    (hq : InDocument lines q) : positionBefore p q = true ↔ offsetOf lines p < offsetOf lines q := by
  have above : ∀ {p q : TextPosition}, InDocument lines p → p.line < q.line →
      offsetOf lines p < offsetOf lines q := by
    rintro p q ⟨inside, column⟩ less
    have next := lineOffset_succ lf inside
    have mono := @lineOffset_mono _ lf lines (p.line + 1) q.line less
    rw [getD_eq_getElem _ _ inside] at column
    unfold offsetOf
    omega
  rw [positionBefore_iff]
  rcases Nat.lt_trichotomy p.line q.line with less | same | more
  · exact ⟨fun _ => above hp less, fun _ => .inl less⟩
  · unfold offsetOf
    rw [same]
    omega
  · have := above hq more
    omega

section Edit

variable (edit : AppliedEdit) {lines : List Line}

section

variable (inside : EditInside lines edit)

include inside

theorem normalized_ends :
    InDocument lines edit.normalized.start ∧ InDocument lines edit.normalized.stop ∧
      offsetOf lines edit.normalized.start ≤ offsetOf lines edit.normalized.stop := by
  unfold normalized
  have order := @positionBefore_iff_offset lines _ _ inside.2 inside.1
  split
  next swapped =>
    exact ⟨inside.2, inside.1, (order.mp swapped).le⟩
  next kept =>
    exact ⟨inside.1, inside.2, Nat.le_of_not_lt (mt order.mpr kept)⟩

theorem rangeEdit_ordered : (rangeEdit lines edit).start ≤ (rangeEdit lines edit).stop :=
  (normalized_ends edit inside).2.2

theorem rangeEdit_stop_le : (rangeEdit lines edit).stop ≤ (joinText lines).length := by
  obtain ⟨-, ⟨line, column⟩, -⟩ := normalized_ends edit inside
  rw [getD_eq_getElem _ _ line] at column
  exact (Nat.add_le_add_left column _).trans (PieceTree.lineOffset_add_le line)

/-- The edit is an edit of the document's text. -/
theorem joinText_after :
    joinText (edit.after lines) = (rangeEdit lines edit).apply (joinText lines) := by
  obtain ⟨⟨first, firstColumn⟩, ⟨last, lastColumn⟩, -⟩ := normalized_ends edit inside
  rw [getD_eq_getElem _ _ first] at firstColumn
  rw [getD_eq_getElem _ _ last] at lastColumn
  have replaced := PieceTree.joinText_replace_columns edit.firstLine_le_lastLine last firstColumn lastColumn
    edit.replacementText
  rw [AppliedEdit.after, firstLine, lastLine, getD_eq_getElem _ _ first,
    getD_eq_getElem _ _ last, ← append_assoc]
  exact replaced

end

theorem after_plain (plain : ∀ line ∈ lines, lf ∉ line) :
    ∀ line ∈ edit.after lines, lf ∉ line := by
  intro line mem
  rcases mem_append.mp mem with above | rest
  · exact plain line (mem_of_mem_take above)
  · rcases mem_append.mp rest with middle | below
    · exact not_mem_of_mem_splitOn lf middle
    · exact plain line (mem_of_mem_drop below)

/-- What stands before a text stands at the head of the first line of both. -/
theorem head_splitOn_append {first : List UInt8} (plain : lf ∉ first) (rest : List UInt8) :
    (first ++ rest).splitOn lf = (rest.splitOn lf).modifyHead (first ++ ·) := by
  induction first with
  | nil =>
    rw [nil_append]
    cases rest.splitOn lf <;> rfl
  | cons byte first ih =>
    obtain ⟨other, tail⟩ := not_or.mp (mt mem_cons.mpr plain)
    have other : ¬(byte == lf) = true := fun same => other (eq_of_beq same).symm
    rw [cons_append, splitOn_cons_eq_if_modifyHead, ih tail, if_neg other, modifyHead_modifyHead]
    rfl

/-- A position that does not come after the start of an edit stays where it is. -/
theorem after_keeps (plain : ∀ line ∈ lines, lf ∉ line) (inside : EditInside lines edit)
    {position : TextPosition} (there : InDocument lines position)
    (before : positionBefore edit.normalized.start position = false) :
    InDocument (edit.after lines) position ∧
      offsetOf (edit.after lines) position = offsetOf lines position := by
  obtain ⟨⟨first, firstColumn⟩, -, -⟩ := normalized_ends edit inside
  obtain ⟨line, column⟩ := there
  have order := mt (positionBefore_iff _ _).mpr (ne_true_of_eq_false before)
  push Not at order
  change edit.firstLine < lines.length at first
  change _ ≤ (lines.getD edit.firstLine []).length at firstColumn
  change position.line ≤ edit.firstLine ∧ (edit.firstLine = position.line → _) at order
  have kept : (lines.take edit.firstLine).length = edit.firstLine := length_take_of_le first.le
  have same : (edit.after lines).take position.line = lines.take position.line := by
    rw [AppliedEdit.after, take_append_of_le_length (kept.symm ▸ order.1), take_take,
      Nat.min_eq_left order.1]
  have plainStart : lf ∉ (lines.getD edit.firstLine []).take edit.normalized.start.column := by
    rw [getD_eq_getElem _ _ first]
    exact fun mem => plain _ (getElem_mem first) (mem_of_mem_take mem)
  obtain ⟨head, tail, pieces⟩ := exists_cons_of_ne_nil (splitOn_ne_nil lf
    (edit.replacementText ++ (lines.getD edit.lastLine []).drop edit.normalized.stop.column))
  have split : edit.after lines = lines.take edit.firstLine ++
      (((lines.getD edit.firstLine []).take edit.normalized.start.column ++ head) :: tail ++
        lines.drop (edit.lastLine + 1)) := by
    rw [AppliedEdit.after, append_assoc _ edit.replacementText,
      head_splitOn_append plainStart, pieces]
    rfl
  refine ⟨?_, by rw [offsetOf, offsetOf, lineOffset, lineOffset, same]⟩
  rcases Nat.eq_or_lt_of_le order.1 with equal | above
  · have there : (edit.after lines)[position.line]? =
        some ((lines.getD edit.firstLine []).take edit.normalized.start.column ++ head) := by
      rw [split, getElem?_append_right (kept.symm ▸ equal.ge), kept,
        show position.line - edit.firstLine = 0 from Nat.sub_eq_zero_of_le order.1]
      rfl
    refine ⟨(List.getElem?_eq_some_iff.mp there).1, ?_⟩
    rw [getD_eq_getElem?_getD, there, Option.getD_some, length_append,
      length_take_of_le firstColumn]
    exact (order.2 equal.symm).trans (Nat.le_add_right _ _)
  · have there := edit.after_above (normalized_ends edit inside).2.1.1 above
    rw [getElem?_eq_getElem line] at there
    refine ⟨(List.getElem?_eq_some_iff.mp there).1, ?_⟩
    rwa [getD_eq_getElem?_getD, there, Option.getD_some, ← getD_eq_getElem _ [] line]

/-- An edit that ends no later than another begins stays where it is. -/
theorem rangeEdit_keeps (plain : ∀ line ∈ lines, lf ∉ line) (inside : EditInside lines edit)
    {low : AppliedEdit} (lowInside : EditInside lines low)
    (below : (rangeEdit lines low).stop ≤ (rangeEdit lines edit).start) :
    EditInside (edit.after lines) low ∧
      rangeEdit (edit.after lines) low = rangeEdit lines low := by
  obtain ⟨start, stop, le⟩ := normalized_ends low lowInside
  have first := (normalized_ends edit inside).1
  have notAfter : ∀ {position : TextPosition}, InDocument lines position →
      offsetOf lines position ≤ (rangeEdit lines low).stop →
      positionBefore edit.normalized.start position = false := by
    intro position there upTo
    rw [eq_false_iff, ne_eq, positionBefore_iff_offset first there, Nat.not_lt]
    exact upTo.trans below
  obtain ⟨startThere, startKept⟩ := after_keeps edit plain inside start (notAfter start le)
  obtain ⟨stopThere, stopKept⟩ := after_keeps edit plain inside stop (notAfter stop le_rfl)
  constructor
  · unfold normalized at startThere stopThere
    split at startThere
    next swapped =>
      rw [if_pos swapped] at stopThere
      exact ⟨stopThere, startThere⟩
    next ordered =>
      rw [if_neg ordered] at stopThere
      exact ⟨startThere, stopThere⟩
  · rw [rangeEdit, rangeEdit, startKept, stopKept]

end Edit

/-! ### Batches -/

/-- The edit at a place of a batch. -/
def editAt (edits : List AppliedEdit) (index : Nat) : AppliedEdit :=
  edits.getD index ⟨⟨⟨0, 0⟩, ⟨0, 0⟩⟩, []⟩

def batchRanges (edits : List AppliedEdit) : List SelectionRange :=
  edits.map AppliedEdit.rangeBefore

/-- The edits of a batch made one after the other, as `ApplyBatch` makes them. -/
def applyInOrder (edits : List AppliedEdit) (order : List Nat) (lines : List Line) : List Line :=
  order.foldl (fun lines index => (editAt edits index).after lines) lines

section Batch

variable {edits : List AppliedEdit}

theorem rangeAt_batchRanges (index : Nat) :
    rangeAt (batchRanges edits) index = (editAt edits index).normalized := by
  rw [rangeAt, batchRanges, editAt,
    show (⟨⟨0, 0⟩, ⟨0, 0⟩⟩ : SelectionRange) = rangeBefore ⟨⟨⟨0, 0⟩, ⟨0, 0⟩⟩, []⟩ from rfl,
    getD_map]
  rfl

/-- The edit at a place of a batch, of the document's text. -/
def editOf (lines : List Line) (edits : List AppliedEdit) (index : Nat) : RangeEdit UInt8 :=
  rangeEdit lines (editAt edits index)

theorem map_editOf : (List.range edits.length).map (editOf lines edits) =
    edits.map (rangeEdit lines) := by
  refine ext_getElem (by simp) fun index bound _ => ?_
  rw [length_map, length_range] at bound
  rw [getElem_map, getElem_range, getElem_map, editOf, editAt, getD_eq_getElem _ _ bound]

/-- The order is one of the batch's places, each once. -/
theorem order_perm (edits : List AppliedEdit) :
    (orderEditsForApplication (batchRanges edits)).Perm (List.range edits.length) := by
  have count : (batchRanges edits).length = edits.length := length_map _
  rw [orderEditsForApplication, count]
  exact mergeSort_perm _ _

variable (ne : lines ≠ []) (inside : ∀ edit ∈ edits, EditInside lines edit)

include ne inside

theorem editAt_inside (index : Nat) : EditInside lines (editAt edits index) := by
  rcases Nat.lt_or_ge index edits.length with bound | past
  · rw [editAt, getD_eq_getElem _ _ bound]
    exact inside _ (getElem_mem bound)
  · have start : InDocument lines ⟨0, 0⟩ := ⟨length_pos_of_ne_nil ne, Nat.zero_le _⟩
    rw [editAt, getD_eq_default _ _ past]
    exact ⟨start, start⟩

theorem appliesBefore_iff (lhs rhs : Nat) : appliesBefore (batchRanges edits) lhs rhs = true ↔
    (editOf lines edits rhs).start < (editOf lines edits lhs).start ∨
      (editOf lines edits rhs).start = (editOf lines edits lhs).start ∧
        ((editOf lines edits rhs).stop < (editOf lines edits lhs).stop ∨
          (editOf lines edits rhs).stop = (editOf lines edits lhs).stop ∧ rhs < lhs) := by
  obtain ⟨startL, stopL, -⟩ := normalized_ends _ (editAt_inside ne inside lhs)
  obtain ⟨startR, stopR, -⟩ := normalized_ends _ (editAt_inside ne inside rhs)
  simp only [appliesBefore, rangeAt_batchRanges, positionBefore_iff_offset startL startR,
    positionBefore_iff_offset startR startL, positionBefore_iff_offset stopL stopR,
    positionBefore_iff_offset stopR stopL]
  change _ ↔ offsetOf _ _ < offsetOf _ _ ∨ offsetOf _ _ = offsetOf _ _ ∧
    (offsetOf _ _ < offsetOf _ _ ∨ offsetOf _ _ = offsetOf _ _ ∧ _)
  split_ifs
  · simp_all
  · simp only [false_iff]
    omega
  · simp only [true_iff]
    omega
  · simp only [false_iff]
    omega
  · rw [decide_eq_true_eq]
    omega

/-- Every edit comes before those that the sort puts it before. -/
theorem order_sorted : (orderEditsForApplication (batchRanges edits)).Pairwise fun lhs rhs =>
    appliesBefore (batchRanges edits) lhs rhs = true := by
  have before := appliesBefore_iff ne inside
  have not_before : ∀ lhs rhs, (!appliesBefore (batchRanges edits) rhs lhs) = true ↔
      ¬appliesBefore (batchRanges edits) rhs lhs = true := fun _ _ => by simp
  have sorted := @pairwise_mergeSort Nat
    (fun lhs rhs => !appliesBefore (batchRanges edits) rhs lhs) ?_ ?_
    (List.range (batchRanges edits).length)
  · have distinct := (order_perm edits).nodup_iff.mpr nodup_range
    refine (sorted.and distinct).imp fun {lhs rhs} ⟨le, ne⟩ => ?_
    rw [not_before, before] at le
    rw [before]
    omega
  · intro a b c ab bc
    rw [not_before, before] at ab bc ⊢
    omega
  · intro a b
    rw [or_eq_true, not_before, not_before, before, before]
    omega

/-- The sweep compares neighbours only, which is enough: a range ends no earlier than it begins. -/
theorem editsOverlap_eq_false_iff : ∀ order : List Nat,
    editsOverlap (batchRanges edits) order = false ↔
      order.Pairwise fun hi lo => (editOf lines edits lo).stop ≤ (editOf lines edits hi).start := by
  have ordered : ∀ index, (editOf lines edits index).start ≤ (editOf lines edits index).stop :=
    fun index => rangeEdit_ordered _ (editAt_inside ne inside index)
  have neighbours : ∀ order : List Nat, editsOverlap (batchRanges edits) order = false ↔
      order.IsChain fun hi lo => (editOf lines edits lo).stop ≤ (editOf lines edits hi).start := by
    intro order
    induction order with
    | nil => simp [editsOverlap]
    | cons hi rest ih =>
      cases rest with
      | nil => simp [editsOverlap]
      | cons lo rest =>
        have start := (normalized_ends _ (editAt_inside ne inside hi)).1
        have stop := (normalized_ends _ (editAt_inside ne inside lo)).2.1
        rw [editsOverlap, or_eq_false_iff, isChain_cons_cons, ih, rangeAt_batchRanges,
          rangeAt_batchRanges, eq_false_iff, ne_eq, positionBefore_iff_offset start stop,
          Nat.not_lt]
        rfl
  intro order
  have trans : IsTrans Nat fun hi lo =>
      (editOf lines edits lo).stop ≤ (editOf lines edits hi).start :=
    ⟨fun a b c ab bc => bc.trans ((ordered b).trans ab)⟩
  rw [neighbours, isChain_iff_pairwise]

/-- The sweep finds nothing exactly where no two ranges share a byte and none is put in strictly
inside another. -/
theorem editsOverlap_iff :
    editsOverlap (batchRanges edits) (orderEditsForApplication (batchRanges edits)) = false ↔
      edits.Pairwise fun a b => (rangeEdit lines a).Separate (rangeEdit lines b) := by
  have ordered : ∀ index, (editOf lines edits index).start ≤ (editOf lines edits index).stop :=
    fun index => rangeEdit_ordered _ (editAt_inside ne inside index)
  have pairs : ∀ {hi lo : Nat}, appliesBefore (batchRanges edits) hi lo = true →
      ((editOf lines edits hi).Separate (editOf lines edits lo) ↔
        (editOf lines edits lo).stop ≤ (editOf lines edits hi).start) := by
    intro hi lo before
    rw [appliesBefore_iff ne inside] at before
    exact RangeEdit.separate_iff (ordered hi) (ordered lo) (by omega)
  have sorted := order_sorted ne inside
  calc editsOverlap (batchRanges edits) (orderEditsForApplication (batchRanges edits)) = false
      ↔ (orderEditsForApplication (batchRanges edits)).Pairwise fun hi lo =>
          (editOf lines edits hi).Separate (editOf lines edits lo) := by
        rw [editsOverlap_eq_false_iff ne inside]
        constructor <;> intro holds
        · exact (sorted.and holds).imp fun both => (pairs both.1).mpr both.2
        · exact (sorted.and holds).imp fun both => (pairs both.1).mp both.2
    _ ↔ (List.range edits.length).Pairwise fun hi lo =>
          (editOf lines edits hi).Separate (editOf lines edits lo) :=
        (order_perm edits).pairwise_iff RangeEdit.Separate.symm
    _ ↔ edits.Pairwise fun a b => (rangeEdit lines a).Separate (rangeEdit lines b) := by
        rw [← pairwise_map (R := RangeEdit.Separate), map_editOf, pairwise_map]

omit ne inside in
/-- One edit after the other, each below the ones made: each finds its range as the batch says. -/
theorem joinText_applyInOrder (order : List Nat)
    (descending : order.Pairwise fun hi lo =>
      (editOf lines edits lo).stop ≤ (editOf lines edits hi).start) :
    ∀ document : List Line, (∀ line ∈ document, lf ∉ line) →
      (∀ index ∈ order, EditInside document (editAt edits index) ∧
        editOf document edits index = editOf lines edits index) →
      joinText (applyInOrder edits order document) =
        (order.map (editOf lines edits)).foldl RangeEdit.apply (joinText document) := by
  induction order with
  | nil => exact fun _ _ _ => rfl
  | cons index rest ih =>
    intro document plain placed
    obtain ⟨below, descending⟩ := pairwise_cons.mp descending
    obtain ⟨there, same⟩ := placed index mem_cons_self
    have after := ih descending ((editAt edits index).after document) (after_plain _ plain) ?_
    · rw [applyInOrder, foldl_cons, ← applyInOrder, after, joinText_after _ there,
        map_cons, foldl_cons, ← same]
      rfl
    · intro low mem
      obtain ⟨lowThere, lowSame⟩ := placed low (mem_cons_of_mem _ mem)
      have under : (rangeEdit document (editAt edits low)).stop ≤
          (rangeEdit document (editAt edits index)).start := by
        have := below low mem
        rwa [← lowSame, ← same] at this
      obtain ⟨still, kept⟩ := rangeEdit_keeps _ plain there lowThere under
      exact ⟨still, kept.trans lowSame⟩

/-- The edits in the order of application, reversed, put the same texts in at each place as the
batch, in the same order. -/
theorem simultaneous_order (list : List UInt8)
    (descending : (orderEditsForApplication (batchRanges edits)).Pairwise fun hi lo =>
      (editOf lines edits lo).stop ≤ (editOf lines edits hi).start) :
    simultaneous list ((orderEditsForApplication (batchRanges edits)).reverse.map (editOf lines edits)) =
      simultaneous list (edits.map (rangeEdit lines)) := by
  have perm := (reverse_perm _).trans (order_perm edits)
  have ascending : (orderEditsForApplication (batchRanges edits)).reverse.Pairwise fun lo hi =>
      appliesBefore (batchRanges edits) hi lo = true ∧
        (editOf lines edits lo).stop ≤ (editOf lines edits hi).start :=
    pairwise_reverse.mpr ((order_sorted ne inside).and descending)
  have filtered : ∀ p : RangeEdit UInt8 → Bool,
      (∀ lo hi, p (editOf lines edits lo) = true → p (editOf lines edits hi) = true →
        appliesBefore (batchRanges edits) hi lo = true →
        (editOf lines edits lo).stop ≤ (editOf lines edits hi).start → lo < hi) →
      ((orderEditsForApplication (batchRanges edits)).reverse.map (editOf lines edits)).filter p =
        (edits.map (rangeEdit lines)).filter p := by
    intro p increasing
    rw [← map_editOf, filter_map, filter_map]
    congr 1
    refine eq_of_sorted ?_ (pairwise_lt_range.filter _) fun index => ?_
    · refine pairwise_filter.mpr (ascending.imp fun {lo hi} ⟨before, below⟩ pLo pHi => ?_)
      exact increasing lo hi pLo pHi before below
    · rw [mem_filter, mem_filter, perm.mem_iff]
  refine simultaneous_congr (fun k => filtered _ ?_) (fun k => filtered _ ?_) fun edit => ?_
  · intro lo hi atLo atHi before _
    rw [appliesBefore_iff ne inside] at before
    simp only [decide_eq_true_eq] at atLo atHi
    omega
  · intro lo hi atLo atHi _ below
    simp only [decide_eq_true_eq] at atLo atHi
    omega
  · rw [← map_editOf]
    exact (perm.map _).mem_iff

end Batch

/-- **Edit batches are order-safe**: the sweep answers false exactly when no two ranges share a
byte and none is put in strictly inside another, and then the edits made one by one in the order
of application make the text that they make at once. -/
theorem batch_order_safe (text : List UInt8) (edits : List AppliedEdit)
    (inside : ∀ edit ∈ edits, EditInside (text.splitOn lf) edit) :
    (editsOverlap (batchRanges edits) (orderEditsForApplication (batchRanges edits)) = false ↔
      edits.Pairwise fun a b =>
        (rangeEdit (text.splitOn lf) a).Separate (rangeEdit (text.splitOn lf) b)) ∧
    (editsOverlap (batchRanges edits) (orderEditsForApplication (batchRanges edits)) = false →
      joinText (applyInOrder edits (orderEditsForApplication (batchRanges edits))
          (text.splitOn lf)) =
        simultaneous text (edits.map (rangeEdit (text.splitOn lf)))) := by
  have ne := splitOn_ne_nil lf text
  refine ⟨editsOverlap_iff ne inside, fun clear => ?_⟩
  have descending := (editsOverlap_eq_false_iff ne inside _).mp clear
  have joined : joinText (text.splitOn lf) = text := intercalate_splitOn _
  have run := joinText_applyInOrder _ descending (text.splitOn lf)
    (fun line mem => not_mem_of_mem_splitOn lf mem)
    fun index _ => ⟨editAt_inside ne inside index, rfl⟩
  rw [run, joined, foldl_apply_eq_simultaneous, ← map_reverse,
    simultaneous_order ne inside text descending]
  · intro edit mem
    obtain ⟨index, -, rfl⟩ := mem_map.mp mem
    have there := editAt_inside ne inside index
    exact ⟨rangeEdit_ordered _ there, (rangeEdit_stop_le _ there).trans_eq (congrArg _ joined)⟩
  · exact pairwise_map.mpr descending

/-- Two texts put in where a range over two lines begins. -/
def importBatch : List AppliedEdit :=
  [⟨⟨⟨0, 1⟩, ⟨1, 1⟩⟩, [122]⟩, ⟨⟨⟨0, 1⟩, ⟨0, 1⟩⟩, [120]⟩, ⟨⟨⟨0, 1⟩, ⟨0, 1⟩⟩, [121]⟩]

theorem order_importBatch : orderEditsForApplication (batchRanges importBatch) = [0, 2, 1] := by
  unfold orderEditsForApplication
  rw [show List.range (batchRanges importBatch).length = [0, 1, 2] from rfl]
  simp only [List.mergeSort, List.MergeSort.Internal.splitInTwo, length_cons, length_nil,
    splitAt_eq, take_succ_cons]
  have longer : (!appliesBefore (batchRanges importBatch) 1 0) = true := by decide
  have later : (!appliesBefore (batchRanges importBatch) 2 1) = false := by decide
  have last : (!appliesBefore (batchRanges importBatch) 2 0) = true := by decide
  simp [longer, later, last]

/-- They come before it, the one that stands first in the batch first. -/
theorem importBatch_safe :
    joinText (applyInOrder importBatch (orderEditsForApplication (batchRanges importBatch))
      (List.splitOn lf [97, 10, 98, 99])) = [97, 120, 121, 122, 99] :=
  ((batch_order_safe [97, 10, 98, 99] importBatch (by
      unfold EditInside InDocument
      decide)).2 (by rw [order_importBatch]; decide)).trans (by decide)

end Microide.Editor
