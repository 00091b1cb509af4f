/-
The caret set of a viewport.

A caret is placed inside its line and on a code point. Selections that overlap are merged, and a
bare caret is merged into the selection it touches.

**Main results.** `Caret.selection_cases`: which of its ends a selection's caret is at;
`CaretMergeEntry.mergeRule`: carets merge as the ranges of positions they hold.
-/

import Microide.Editor.EditTypes
import Microide.Editor.FoldingModel
import Microide.Lib.MergedRanges

namespace Microide.Editor

open Option Text Lib


/-! ### Carets -/

/-- A caret and the other end of its selection. -/
structure Caret where
  position : TextPosition
  selectionAnchor : Option TextPosition := none
  deriving DecidableEq

/-- What the line operations read of a viewport: `collapsed` are the collapsed folds of its
folding model, none where it has no model. -/
structure CaretView where
  lines : List Line
  primary : Caret
  secondaries : List Caret := []
  collapsed : List FoldRange := []

/-- `selection_range`, the earlier end first. -/
def Caret.selectionRange (caret : Caret) : Option SelectionRange :=
  caret.selectionAnchor.bind fun anchor =>
    if anchor = caret.position then none
    else if positionBefore anchor caret.position then some ⟨anchor, caret.position⟩
    else some ⟨caret.position, anchor⟩

/-! ### Columns -/

def isContinuationByte (byte : UInt8) : Bool := byte &&& 0xC0 == 0x80

/-- Back over continuation bytes, no further than `floor`. -/
def codePointStart (line : Line) (floor : Nat) : Nat → Nat
  | 0 => 0
  | column + 1 =>
    if floor < column + 1 && isContinuationByte (line.getD (column + 1) 0) then
      codePointStart line floor column
    else column + 1

def clampTextColumn (line : Line) (column : Nat) : Nat :=
  if line.length ≤ column then line.length else codePointStart line (column - 3) column

theorem codePointStart_le (line : Line) (floor : Nat) : ∀ column, codePointStart line floor column ≤ column
  | 0 => le_rfl
  | column + 1 => by
    rw [codePointStart]
    split
    · exact (codePointStart_le line floor column).trans (Nat.le_succ _)
    · exact le_rfl

theorem clampTextColumn_le_length (line : Line) (column : Nat) :
    clampTextColumn line column ≤ line.length := by
  unfold clampTextColumn
  split
  · exact le_rfl
  next inside =>
    exact (codePointStart_le line _ column).trans (Nat.le_of_not_le inside)

@[simp] theorem clampTextColumn_length (line : Line) :
    clampTextColumn line line.length = line.length := if_pos le_rfl

/-! ### Positions -/

/-- The order of positions: by line, then by column. -/
def TextPosition.key (position : TextPosition) : Nat ×ₗ Nat :=
  toLex (position.line, position.column)

theorem TextPosition.key_lt {a b : TextPosition} :
    a.key < b.key ↔ a.line < b.line ∨ a.line = b.line ∧ a.column < b.column := Prod.Lex.lt_iff

theorem TextPosition.key_inj {a b : TextPosition} (same : a.key = b.key) : a = b := by
  have both := congrArg ofLex same
  simp only [key, ofLex_toLex] at both
  cases a
  cases b
  simp_all

theorem positionBefore_iff_key {a b : TextPosition} : positionBefore a b = true ↔ a.key < b.key := by
  rw [TextPosition.key_lt, positionBefore, Bool.or_eq_true, Bool.and_eq_true, decide_eq_true_eq,
    decide_eq_true_eq, decide_eq_true_eq]

variable {caret : Caret}

namespace Caret

/-- The earlier end of the selection, the caret's place where there is none. -/
def start (caret : Caret) : TextPosition := (caret.selectionRange.map (·.start)).getD caret.position

def stop (caret : Caret) : TextPosition := (caret.selectionRange.map (·.stop)).getD caret.position

def Bare (caret : Caret) : Prop := caret.selectionRange = none

theorem Bare.start (bare : caret.Bare) : caret.start = caret.position := by
  rw [Caret.start, bare]
  rfl

theorem Bare.stop (bare : caret.Bare) : caret.stop = caret.position := by
  rw [Caret.stop, bare]
  rfl

theorem bare_iff : caret.Bare ↔ ∀ anchor ∈ caret.selectionAnchor, anchor = caret.position := by
  unfold Bare selectionRange
  cases caret.selectionAnchor with
  | none => simp
  | some anchor =>
    simp only [bind_some, mem_def, Option.some.injEq, forall_eq']
    split
    · simp [*]
    · split <;> simp [*]

/-- A selection: which of its ends the caret is at. -/
theorem selection_cases (ranged : ¬caret.Bare) : ∃ anchor, caret.selectionAnchor = some anchor ∧
      (anchor.key < caret.position.key ∧ caret.start = anchor ∧ caret.stop = caret.position ∨
        caret.position.key < anchor.key ∧ caret.start = caret.position ∧ caret.stop = anchor) := by
  rw [bare_iff] at ranged
  unfold Caret.start Caret.stop selectionRange
  cases found : caret.selectionAnchor with
  | none =>
    refine absurd (fun anchor mem => ?_) ranged
    exact absurd (found.symm.trans mem) (some_ne_none anchor).symm
  | some anchor =>
    refine ⟨anchor, rfl, ?_⟩
    have apart : anchor ≠ caret.position := by
      rintro rfl
      refine ranged fun other mem => ?_
      exact (Option.some.inj (found.symm.trans mem)).symm
    rw [bind_some, if_neg apart]
    split
    next before =>
      exact .inl ⟨positionBefore_iff_key.mp before, rfl, rfl⟩
    next after =>
      rw [positionBefore_iff_key, not_lt] at after
      refine .inr ⟨lt_of_le_of_ne after fun same => apart (TextPosition.key_inj same.symm), rfl, rfl⟩

theorem start_le_stop (caret : Caret) : caret.start.key ≤ caret.stop.key := by
  by_cases bare : caret.Bare
  · rw [bare.start, bare.stop]
  · obtain ⟨anchor, -, ⟨lt, start, stop⟩ | ⟨lt, start, stop⟩⟩ := selection_cases bare
    all_goals
      rw [start, stop]
      exact lt.le

theorem selectionRange_eq (ranged : ¬caret.Bare) :
    caret.selectionRange = some ⟨caret.start, caret.stop⟩ := by
  obtain ⟨selection, found⟩ := ne_none_iff_exists'.mp ranged
  rw [Caret.start, Caret.stop, found]
  rfl

end Caret

/-! ### Merging -/

structure CaretMergeEntry where
  start : TextPosition
  stop : TextPosition
  caretAtEnd : Bool
  isPrimary : Bool

namespace CaretMergeEntry

/-- The order entries are merged in. -/
def rank (entry : CaretMergeEntry) : (Nat ×ₗ Nat) ×ₗ (Nat ×ₗ Nat) :=
  toLex (entry.start.key, entry.stop.key)

def ofCaret (isPrimary : Bool) (caret : Caret) : CaretMergeEntry :=
  match caret.selectionAnchor with
  | none => ⟨caret.position, caret.position, true, isPrimary⟩
  | some anchor =>
    if anchor = caret.position then ⟨caret.position, caret.position, true, isPrimary⟩
    else if positionBefore anchor caret.position then ⟨anchor, caret.position, true, isPrimary⟩
    else ⟨caret.position, anchor, false, isPrimary⟩

def collapsed (entry : CaretMergeEntry) : Bool := entry.start = entry.stop

/-- Selections merge where they overlap, a bare caret also where it touches. -/
def mergesInto (entry prev : CaretMergeEntry) : Bool :=
  if prev.collapsed || entry.collapsed then !positionBefore prev.stop entry.start
  else positionBefore entry.start prev.stop

def absorb (prev entry : CaretMergeEntry) : CaretMergeEntry :=
  { prev with
    stop := if positionBefore prev.stop entry.stop then entry.stop else prev.stop
    isPrimary := prev.isPrimary || entry.isPrimary
    caretAtEnd := if entry.isPrimary then entry.caretAtEnd else prev.caretAtEnd }

def toCaret (entry : CaretMergeEntry) : Caret :=
  { position := if entry.caretAtEnd then entry.stop else entry.start
    selectionAnchor :=
      if entry.collapsed then none
      else some (if entry.caretAtEnd then entry.start else entry.stop) }

theorem ofCaret_start (isPrimary : Bool) (caret : Caret) :
    (ofCaret isPrimary caret).start = caret.start := by
  unfold ofCaret Caret.start Caret.selectionRange
  cases caret.selectionAnchor with
  | none => rfl
  | some anchor =>
    rw [bind_some]
    dsimp only
    split
    · rfl
    · split <;> rfl

theorem ofCaret_stop (isPrimary : Bool) (caret : Caret) :
    (ofCaret isPrimary caret).stop = caret.stop := by
  unfold ofCaret Caret.stop Caret.selectionRange
  cases caret.selectionAnchor with
  | none => rfl
  | some anchor =>
    rw [bind_some]
    dsimp only
    split
    · rfl
    · split <;> rfl

theorem collapsed_iff {entry : CaretMergeEntry} :
    entry.collapsed = true ↔ entry.start.key = entry.stop.key := by
  rw [collapsed, decide_eq_true_eq]
  exact ⟨congrArg _, TextPosition.key_inj⟩

/-- The merge of entries as ranges of positions. -/
theorem mergeRule : MergeRule (fun entry => entry.start.key) (fun entry => entry.stop.key)
    (fun prev entry => mergesInto entry prev) absorb where
  meets_iff prev entry := by
    rw [mergesInto]
    split
    next empty =>
      rw [Bool.or_eq_true, collapsed_iff, collapsed_iff] at empty
      rw [Bool.not_eq_true', Bool.eq_false_iff, ne_eq, positionBefore_iff_key, not_lt]
      exact ⟨fun le => ⟨le, fun some_ someNext => (empty.elim some_ someNext).elim⟩, And.left⟩
    next some_ =>
      rw [Bool.or_eq_true, collapsed_iff, collapsed_iff, not_or] at some_
      rw [positionBefore_iff_key]
      exact ⟨fun lt => ⟨lt.le, fun _ _ => lt⟩, fun both => both.2 some_.1 some_.2⟩
  absorb_start _ _ := rfl
  absorb_stop prev entry := by
    rw [absorb]
    dsimp only
    split
    next before =>
      exact (max_eq_right (positionBefore_iff_key.mp before).le).symm
    next after =>
      rw [positionBefore_iff_key, not_lt] at after
      exact (max_eq_left after).symm

theorem ofCaret_ordered (isPrimary : Bool) (caret : Caret) :
    (ofCaret isPrimary caret).start.key ≤ (ofCaret isPrimary caret).stop.key := by
  rw [ofCaret_start, ofCaret_stop]
  exact caret.start_le_stop

theorem ofCaret_isPrimary (isPrimary : Bool) (caret : Caret) :
    (ofCaret isPrimary caret).isPrimary = isPrimary := by
  unfold ofCaret
  split
  · rfl
  · split
    · rfl
    · split <;> rfl

end CaretMergeEntry

namespace CaretView

variable (view : CaretView)

/-- The primary caret, then the others. -/
def carets : List Caret := view.primary :: view.secondaries

def mergeEntries : List CaretMergeEntry :=
  CaretMergeEntry.ofCaret true view.primary ::
    view.secondaries.map (CaretMergeEntry.ofCaret false)

def mergeOverlappingCaretRanges : CaretView :=
  if (!view.carets.any fun caret => caret.selectionAnchor.isSome) || view.secondaries.isEmpty then
    view
  else
    match sortBy CaretMergeEntry.rank view.mergeEntries with
    | [] => view
    | first :: rest =>
      let merged := mergeRuns (fun prev entry => entry.mergesInto prev) CaretMergeEntry.absorb first rest
      if merged.2 then
        { view with
          primary := ((merged.1.find? (·.isPrimary)).map (·.toCaret)).getD view.primary
          secondaries := sortBy (·.position.key)
            ((merged.1.filter fun entry => !entry.isPrimary).map (·.toCaret)) }
      else view

end CaretView

/-- Secondaries in order, one for each place and anchor, none that is the primary. -/
def CaretView.dedupeSecondaryCaretsAgainstPrimary (view : CaretView) : CaretView :=
  mergeOverlappingCaretRanges
    { view with
      secondaries := ((sortBy (·.position.key) view.secondaries).destutter (· ≠ ·)).filter
        fun caret => !(caret = view.primary) }

/-- The ranges in order, each with the one above it: a shared start or an overlap. -/
def rangesOverlap : List SelectionRange → Bool
  | above :: below :: ranges =>
    below.start = above.start || positionBefore below.start above.stop ||
      rangesOverlap (below :: ranges)
  | _ => false

def CaretView.multiCaretSelectionsOverlap (view : CaretView) : Bool :=
  let ranges := view.carets.map fun caret =>
    caret.selectionRange.getD ⟨caret.position, caret.position⟩
  rangesOverlap ((sortBy (fun range => toLex (range.start.key, range.stop.key)) ranges).destutter (· ≠ ·))

end Microide.Editor
