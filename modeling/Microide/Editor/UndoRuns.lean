/-
Runs of the undo history.

A viewport goes through edits, undo and redo, groups, saves and moves of the view in any
order. Next to it runs the line of versions that undo and redo are for.

* `Sound`: the stacks describe the steps between the versions, and a stored clean flag is
  found only where the version is the saved one.
* `step_sound`, `run_sound`: every action keeps this, as long as groups are used with care.
* `undo_redo_law`: what undo and redo give, in every run without groups.
* `clean_is_saved`: a document that reads clean is the saved one, in every careful run.
-/

import Microide.Editor.UndoGroups
import Microide.Lib.Timeline

namespace Microide.Editor

open List Option Lib Text UndoHistory

/-! ### Runs -/

/-- What can happen to a viewport. An edit has been applied when its entry is pushed: it comes
with the document and the view that it left. -/
inductive Action where
  | edit (entry : Entry) (hint : CoalesceHint) (post : Document) (view : ViewState)
  | undo
  | redo
  | beginGroup
  | endGroup
  | moveCursor (view : ViewState)
  | setView (view : ViewState)
  | markSaved

namespace Viewport

def step (viewport : Viewport) : Action → Viewport
  | .edit entry hint post view =>
    { viewport with doc := post, view := view }.pushHistoryEntry entry hint
  | .undo => viewport.undo
  | .redo => viewport.redo
  | .beginGroup => viewport.beginUndoGroup
  | .endGroup => viewport.endUndoGroup
  | .moveCursor view =>
    { viewport with view := view, history := viewport.history.notifyCursorMoved }
  | .setView view => { viewport with view := view }
  | .markSaved => viewport.markSaved

/-- What the callers of the history see to. An edit records what it replaced and installed, with
the state before it, and leaves the document dirty; a change of the line ending is never part of
a typing run or of a group; moving the view does not touch the document. -/
def Possible (viewport : Viewport) : Action → Prop
  | .edit entry hint post view =>
    entry.Describes viewport.doc post ∧ entry.beforeState.dirty = viewport.view.dirty ∧
      view.dirty = true ∧ (hint.kind ≠ .none → entry.lineEndings = none) ∧
      (viewport.history.isGroupActive →
        entry.lineEndingBefore = none ∧ entry.lineEndingAfter = none)
  | .moveCursor view => view.dirty = viewport.view.dirty
  | .setView view => view.dirty = viewport.view.dirty
  | _ => True

end Viewport

/-- A viewport with the versions its document has gone through: `timeline` is the line of
versions that undo and redo move along, `saved` the version that was loaded or saved last, and
`passed` everything the document has ever been. -/
structure Traced where
  viewport : Viewport
  timeline : Timeline Document
  saved : Document
  passed : List Document

namespace Traced

/-- A document is loaded: it is clean. -/
def load (doc : Document) (view : ViewState) : Traced :=
  { viewport := { doc := doc, view := { view with dirty := false } }
    timeline := { now := doc }, saved := doc, passed := [doc] }

/-- The version line when the innermost group is closed: the outermost group makes one step. -/
def flushedTimeline (t : Traced) : Timeline Document :=
  match t.viewport.history.groupStack with
  | [frame] =>
    match UndoHistory.finishFrame frame t.viewport.view with
    | some _ => t.timeline.record t.viewport.doc
    | none => t.timeline
  | _ => t.timeline

/-- The version line after an action. -/
def timelineAfter (t : Traced) : Action → Timeline Document
  | .edit entry hint post _ =>
    if t.viewport.history.isGroupActive then { t.timeline with future := [] }
    else if hint.kind ≠ .none ∧ (t.viewport.history.tryCoalesceWithTop entry hint).isSome then
      t.timeline.amend post
    else t.timeline.record post
  | .undo =>
    if t.viewport.flushActiveUndoGroup.history.undoStack.isEmpty then t.flushedTimeline
    else t.flushedTimeline.undo
  | .redo =>
    if t.viewport.flushActiveUndoGroup.history.redoStack.isEmpty then t.flushedTimeline
    else t.flushedTimeline.redo
  | .endGroup => t.flushedTimeline
  | _ => t.timeline

/-- The version that was loaded or saved last, after an action. -/
def savedAfter (t : Traced) : Action → Document
  | .markSaved => t.viewport.doc
  | _ => t.saved

def step (t : Traced) (action : Action) : Traced :=
  { viewport := t.viewport.step action
    timeline := t.timelineAfter action
    saved := t.savedAfter action
    passed := (t.viewport.step action).doc :: t.passed }

end Traced

/-! ### The invariant -/

/-- The entries, top first, lead from the versions of `past` up to `now`, and where one stores a
clean flag for the version before it, that version is the saved one. -/
def UndoChain (saved : Document) : List Entry → List Document → Document → Prop
  | [], _, _ => True
  | _ :: _, [], _ => False
  | entry :: entries, version :: past, now =>
    entry.Describes version now ∧ (entry.beforeState.dirty = false → version = saved) ∧
      UndoChain saved entries past version

/-- The entries, top first, lead from `now` to the versions of `future`. -/
def RedoChain (saved : Document) : List Entry → List Document → Document → Prop
  | [], _, _ => True
  | _ :: _, [], _ => False
  | entry :: entries, version :: future, now =>
    entry.Describes now version ∧ (entry.afterState.dirty = false → version = saved) ∧
      RedoChain saved entries future version

/-- With no group open the document is the present version; otherwise the outermost group holds
the difference. -/
def GroupHolds (t : Traced) : Prop :=
  match t.viewport.history.groupStack.getLast? with
  | none => t.viewport.doc = t.timeline.now
  | some frame =>
    FrameHolds frame.disjointEntries t.timeline.now.lines t.viewport.doc.lines ∧
      t.timeline.now.lineEnding = t.viewport.doc.lineEnding ∧
      BufferLines t.timeline.now.lines ∧
      (frame.state.dirty = false → t.timeline.now = t.saved)

/-- **The history is about the versions the document went through.** -/
structure Sound (t : Traced) : Prop where
  undo : UndoChain t.saved t.viewport.history.undoStack t.timeline.past t.timeline.now
  redo : RedoChain t.saved t.viewport.history.redoStack t.timeline.future t.timeline.now
  group : GroupHolds t
  buffer : BufferLines t.viewport.doc.lines
  clean : t.viewport.view.dirty = false → t.viewport.doc = t.saved
  past : ∀ version ∈ t.timeline.past, version ∈ t.passed
  now : t.timeline.now ∈ t.passed
  future : ∀ version ∈ t.timeline.future, version ∈ t.passed
  doc : t.viewport.doc ∈ t.passed

theorem load_sound {doc : Document} (h : BufferLines doc.lines) (view : ViewState) :
    Sound (.load doc view) where
  undo := trivial
  redo := trivial
  group := rfl
  buffer := h
  clean := fun _ => rfl
  past := by simp [Traced.load]
  now := by simp [Traced.load]
  future := by simp [Traced.load]
  doc := by simp [Traced.load]

/-! ### The stacks -/

variable {post saved' : Document} {coalesced : UndoHistory}

section Stacks

variable {saved : Document} {entries entries' : List Entry} {past future : List Document}
  {now : Document}

/-- Dropping the oldest entries keeps the chain. -/
theorem UndoChain.newest (h : UndoChain saved entries past now) (hnewest : entries' <+: entries) :
    UndoChain saved entries' past now := by
  induction entries' generalizing entries past now with
  | nil => trivial
  | cons entry' entries' ih =>
      cases entries with
      | nil => exact absurd hnewest.length_le (by simp)
      | cons entry entries =>
          obtain ⟨rfl, hrest⟩ := cons_prefix_cons.mp hnewest
          cases past with
          | nil => exact h
          | cons version past =>
              exact ⟨h.1, h.2.1, ih h.2.2 hrest⟩

theorem dropOldest_suffix (total : Nat) (entries : List Entry) :
    dropOldest total entries <:+ entries := by
  induction entries generalizing total with
  | nil => exact suffix_refl _
  | cons oldest rest ih =>
      cases rest with
      | nil => exact suffix_refl _
      | cons newer rest =>
          rw [dropOldest]
          split
          · exact (ih _).trans (suffix_cons ..)
          · exact suffix_refl _

theorem enforceHistoryBudget_newest (undoStack : List Entry) :
    enforceHistoryBudget undoStack <+: undoStack := by
  rw [enforceHistoryBudget]
  refine IsPrefix.trans ?_ (List.take_prefix kMaxHistoryEntries undoStack)
  rw [← reverse_suffix, reverse_reverse]
  exact dropOldest_suffix _ _

/-- A fresh entry on the stack. -/
theorem UndoChain.append (h : UndoChain saved entries past now) {entry : Entry}
    (hentry : entry.Describes now post) (hclean : entry.beforeState.dirty = false → now = saved) :
    UndoChain saved
      (enforceHistoryBudget ({ entry with byteSize := entryContentBytes entry } :: entries))
      (now :: past) post := by
  have hchain : UndoChain saved ({ entry with byteSize := entryContentBytes entry } :: entries)
      (now :: past) post := ⟨hentry.congr rfl, hclean, h⟩
  exact hchain.newest (enforceHistoryBudget_newest _)

/-- Merging keeps the state before. -/
theorem beforeState_coalescedTop {top next merged : Entry}
    (h : coalescedTop top next = some merged) :
    merged.beforeState = top.beforeState := by
  rw [coalescedTop] at h
  split at h
  · cases h
  split at h
  · split at h <;> cases h
    rfl
  split at h
  · split at h <;> cases h
    rw [mergeInlineEntryInto]
    dsimp only
    split
    · rfl
    split
    · rfl
    · rfl
  split at h <;> cases h
  rfl

/-- What a successful coalesce does to the history. -/
theorem tryCoalesceWithTop_some {history : UndoHistory} {entry : Entry} {hint : CoalesceHint}
    (h : history.tryCoalesceWithTop entry hint = some coalesced) :
    ∃ top rest merged, history.undoStack = top :: rest ∧
      coalescedTop top entry = some merged ∧
      coalesced = { history with
        undoStack := enforceHistoryBudget
          ({ merged with byteSize := entryContentBytes merged } :: rest)
        activeRunLastSpace := hint.changedIsSpace } := by
  rw [tryCoalesceWithTop] at h
  split at h
  · cases h
  rename_i top rest hstack
  split at h
  · cases h
  split at h
  · cases h
  split at h
  · cases h
  split at h
  · cases h
  split at h
  · cases h
  rename_i merged hmerged
  cases h
  exact ⟨top, rest, merged, hstack, hmerged, rfl⟩

theorem groupStack_tryCoalesceWithTop {history : UndoHistory} {entry : Entry} {hint : CoalesceHint}
    (h : history.tryCoalesceWithTop entry hint = some coalesced) :
    coalesced.groupStack = history.groupStack := by
  obtain ⟨-, -, -, -, -, rfl⟩ := tryCoalesceWithTop_some h
  rfl

/-- An edit that is folded into the top entry. -/
theorem UndoChain.coalesce {history : UndoHistory} {entry : Entry} {hint : CoalesceHint}
    (h : UndoChain saved history.undoStack past now) (hentry : entry.Describes now post)
    (hquiet : entry.lineEndings = none)
    (hcoalesced : history.tryCoalesceWithTop entry hint = some coalesced) :
    UndoChain saved coalesced.undoStack past post := by
  obtain ⟨top, rest, merged, hstack, hmerged, rfl⟩ := tryCoalesceWithTop_some hcoalesced
  rw [hstack] at h
  cases past with
  | nil => exact absurd h id
  | cons version past =>
      obtain ⟨htop, hclean, hrest⟩ := h
      have hmergedDescribes := coalescedTop_describes htop hentry hquiet hmerged
      have hchain : UndoChain saved
          ({ merged with byteSize := entryContentBytes merged } :: rest) (version :: past) post := by
        refine ⟨hmergedDescribes.congr rfl, fun hdirty => hclean ?_, hrest⟩
        rw [← beforeState_coalescedTop hmerged]
        exact hdirty
      exact hchain.newest (enforceHistoryBudget_newest _)

/-- Marking every stored position dirty keeps what the entries describe. -/
theorem UndoChain.markDirty (h : UndoChain saved entries past now)
    (hstates : List.Forall₂ (fun entry entry' : Entry => { entry' with
      beforeState := entry.beforeState, afterState := entry.afterState
      byteSize := entry.byteSize } = entry ∧ entry'.beforeState.dirty = true) entries entries') :
    UndoChain saved' entries' past now := by
  induction hstates generalizing past now with
  | nil => trivial
  | cons hentry _ ih =>
      cases past with
      | nil => exact absurd h id
      | cons version past =>
          refine ⟨h.1.congr hentry.1, fun hdirty => ?_, ih h.2.2⟩
          exact absurd (hdirty.symm.trans hentry.2) (by decide)

theorem RedoChain.markDirty (h : RedoChain saved entries future now)
    (hstates : List.Forall₂ (fun entry entry' : Entry => { entry' with
      beforeState := entry.beforeState, afterState := entry.afterState
      byteSize := entry.byteSize } = entry ∧ entry'.afterState.dirty = true) entries entries') :
    RedoChain saved' entries' future now := by
  induction hstates generalizing future now with
  | nil => trivial
  | cons hentry _ ih =>
      cases future with
      | nil => exact absurd h id
      | cons version future =>
          refine ⟨h.1.congr hentry.1, fun hdirty => ?_, ih h.2.2⟩
          exact absurd (hdirty.symm.trans hentry.2) (by decide)

end Stacks

/-! ### What the functions do -/

namespace UndoHistory

variable (history : UndoHistory) (entry : Entry) (hint : CoalesceHint)

/-- Coalescing does not look at the redo stack. -/
theorem tryCoalesceWithTop_clearRedo :
    { history with redoStack := [] }.tryCoalesceWithTop entry hint =
      (history.tryCoalesceWithTop entry hint).map fun coalesced =>
        { coalesced with redoStack := [] } := by
  rw [tryCoalesceWithTop, tryCoalesceWithTop]
  cases history.undoStack with
  | nil => rfl
  | cons top rest =>
      dsimp only
      split_ifs
      · rfl
      · rfl
      · rfl
      · rfl
      · cases coalescedTop top entry with
        | none => rfl
        | some merged => rfl

/-- An entry outside groups that starts a new step. -/
theorem recordEntry_fresh (hgroups : history.groupStack = [])
    (hfresh : ¬ (hint.kind ≠ .none ∧ (history.tryCoalesceWithTop entry hint).isSome)) :
    history.recordEntry entry hint = { history with
      undoStack := enforceHistoryBudget
        ({ entry with byteSize := entryContentBytes entry } :: history.undoStack)
      redoStack := [], activeRunKind := hint.kind
      activeRunLastSpace := hint.changedIsSpace } := by
  obtain ⟨undoStack, redoStack, groupStack, kind, space⟩ := history
  obtain rfl : groupStack = [] := hgroups
  have hcoalesce : (if hint.kind ≠ .none then tryCoalesceWithTop
      ⟨undoStack, [], [], kind, space⟩ entry hint else none) = none := by
    split
    next hkind =>
      rw [not_and, not_isSome_iff_eq_none] at hfresh
      have hclear := tryCoalesceWithTop_clearRedo ⟨undoStack, redoStack, [], kind, space⟩ entry hint
      rw [hfresh hkind] at hclear
      exact hclear
    · rfl
  rw [recordEntry]
  rw [hcoalesce]
  rfl

/-- An entry outside groups that goes on with the run. -/
theorem recordEntry_coalesced (hgroups : history.groupStack = []) (hkind : hint.kind ≠ .none)
    (h : history.tryCoalesceWithTop entry hint = some coalesced) :
    history.recordEntry entry hint = { coalesced with redoStack := [] } := by
  obtain ⟨undoStack, redoStack, groupStack, kind, space⟩ := history
  obtain rfl : groupStack = [] := hgroups
  have hclear := tryCoalesceWithTop_clearRedo ⟨undoStack, redoStack, [], kind, space⟩ entry hint
  rw [h] at hclear
  rw [recordEntry]
  rw [if_pos hkind, hclear]
  rfl

end UndoHistory

namespace Viewport

variable {viewport : Viewport} {frame next : UndoGroupFrame} {outer : List UndoGroupFrame}

theorem flush_none (hstack : viewport.history.groupStack = []) :
    viewport.flushActiveUndoGroup = viewport := by
  rw [flushActiveUndoGroup, finishActiveGroup, hstack]

/-- The last group changed nothing. -/
theorem flush_unchanged (hstack : viewport.history.groupStack = [frame])
    (hfinish : finishFrame frame viewport.view = none) : viewport.flushActiveUndoGroup =
      { viewport with history := { viewport.history with groupStack := [] } } := by
  rw [flushActiveUndoGroup, finishActiveGroup, hstack]
  dsimp only
  rw [hfinish]

/-- The last group leaves an entry. -/
theorem flush_changed (hstack : viewport.history.groupStack = [frame]) {entry : Entry}
    (hfinish : finishFrame frame viewport.view = some entry) :
    viewport.flushActiveUndoGroup = { viewport with
      history := { viewport.history with groupStack := [] }.recordEntry entry {} } := by
  rw [flushActiveUndoGroup, finishActiveGroup, hstack]
  dsimp only
  rw [hfinish]
  simp only [isGroupActive, pushHistoryEntry, isEmpty_nil, Bool.not_true,
    Bool.and_false, Bool.false_eq_true, if_false]

/-- An inner group is given up. -/
theorem flush_nested (hstack : viewport.history.groupStack = frame :: next :: outer) :
    viewport.flushActiveUndoGroup =
      { viewport with history := { viewport.history with groupStack := next :: outer } } := by
  rw [flushActiveUndoGroup, finishActiveGroup, hstack]
  dsimp only [isGroupActive]
  cases finishFrame frame viewport.view with
  | none => rfl
  | some entry => rfl

/-- With one group at most, closing it leaves none. -/
theorem groupStack_flush (hstack : viewport.history.groupStack.length ≤ 1) :
    viewport.flushActiveUndoGroup.history.groupStack = [] := by
  cases hgroups : viewport.history.groupStack with
  | nil => rw [flush_none hgroups, hgroups]
  | cons frame outer =>
      rw [hgroups, length_cons] at hstack
      obtain rfl : outer = [] := eq_nil_of_length_eq_zero (by omega)
      cases hfinish : finishFrame frame viewport.view with
      | none => rw [flush_unchanged hgroups hfinish]
      | some entry =>
          rw [flush_changed hgroups hfinish, recordEntry_fresh _ _ _ rfl (by simp)]

/-- Undo and redo close the innermost group first. -/
theorem applyHistoryStep_eq (viewport : Viewport) (redo : Bool) :
    viewport.applyHistoryStep redo = viewport.flushActiveUndoGroup.applyTopEntry redo := by
  rw [applyHistoryStep]
  split
  · rfl
  next hinactive =>
    have hstack : viewport.history.groupStack = [] := by
      simpa [isGroupActive] using hinactive
    rw [flush_none hstack]

end Viewport

/-! ### The steps -/

namespace Traced

/-- The innermost group is closed. -/
def flush (t : Traced) : Traced :=
  { t with
    viewport := t.viewport.flushActiveUndoGroup
    timeline := t.flushedTimeline }

end Traced

section Steps

variable {t : Traced}

theorem mem_passed_record (h : Sound t) :
    ∀ version ∈ t.timeline.now :: t.timeline.past, version ∈ t.passed := by
  intro version hversion
  rcases mem_cons.mp hversion with rfl | hversion
  · exact h.now
  · exact h.past version hversion

theorem GroupHolds.none (h : GroupHolds t) (hstack : t.viewport.history.groupStack = []) :
    t.viewport.doc = t.timeline.now := by
  rwa [GroupHolds, hstack] at h

section

variable (h : Sound t)

include h

/-- **Closing a group is one step of the versions, or none.** -/
theorem flush_sound : Sound t.flush := by
  cases hstack : t.viewport.history.groupStack with
  | nil =>
      have hsame : t.flush = t := by
        rw [Traced.flush, Viewport.flush_none hstack, Traced.flushedTimeline, hstack]
      rw [hsame]
      exact h
  | cons frame outer =>
      have hgroup := h.group
      rw [GroupHolds, hstack] at hgroup
      cases outer with
      | nil =>
          obtain ⟨hframe, hending, hbuffer, hclean⟩ := hgroup
          have hentry := finishFrame_describes frame hframe hending hbuffer h.buffer
            t.viewport.view
          rw [Traced.flush, Traced.flushedTimeline, hstack]
          cases hfinish : finishFrame frame t.viewport.view with
          | none =>
              rw [hfinish] at hentry
              dsimp only
              rw [Viewport.flush_unchanged hstack hfinish, hfinish]
              exact ⟨h.undo, h.redo, hentry.symm, h.buffer, h.clean, h.past, h.now, h.future, h.doc⟩
          | some entry =>
              rw [hfinish] at hentry
              obtain ⟨hdescribes, hstate, -⟩ := hentry
              dsimp only
              rw [Viewport.flush_changed hstack hfinish, hfinish,
                recordEntry_fresh _ _ _ rfl (by simp)]
              refine ⟨h.undo.append hdescribes ?_, trivial, rfl, h.buffer, h.clean,
                mem_passed_record h, h.doc, ?_, h.doc⟩
              · rw [hstate]
                exact hclean
              · exact fun _ hmem => absurd hmem not_mem_nil
      | cons next outer =>
          rw [Traced.flush, Traced.flushedTimeline, hstack, Viewport.flush_nested hstack]
          refine ⟨h.undo, h.redo, ?_, h.buffer, h.clean, h.past, h.now, h.future, h.doc⟩
          exact hgroup

/-- **An edit outside groups.** -/
theorem edit_sound (hstack : t.viewport.history.groupStack = []) {entry : Entry}
    {hint : CoalesceHint} {view : ViewState}
    (hpossible : t.viewport.Possible (.edit entry hint post view)) :
    Sound (t.step (.edit entry hint post view)) := by
  obtain ⟨hdescribes, hdirty, hview, hquiet, -⟩ := hpossible
  have hnow := h.group.none hstack
  have hinactive : t.viewport.history.isGroupActive = false := by
    rw [isGroupActive, hstack]
    rfl
  have hpush : t.viewport.step (.edit entry hint post view) =
      ⟨post, view, t.viewport.history.recordEntry entry hint⟩ := by
    rw [Viewport.step, Viewport.pushHistoryEntry]
    rw [hinactive, Bool.and_false, if_neg (by decide)]
  have hafter : view.dirty = false → post = t.saved :=
    fun hclean => absurd (hclean.symm.trans hview) (by decide)
  have hpassed : ∀ version ∈ t.passed, version ∈ post :: t.passed :=
    fun version hversion => mem_cons_of_mem _ hversion
  rw [Traced.step, hpush]
  by_cases hcoalesce : hint.kind ≠ .none ∧ (t.viewport.history.tryCoalesceWithTop entry hint).isSome
  · obtain ⟨coalesced, hcoalesced⟩ := isSome_iff_exists.mp hcoalesce.2
    have hchain := h.undo.coalesce (hnow ▸ hdescribes) (hquiet hcoalesce.1) hcoalesced
    have htimeline : t.timelineAfter (.edit entry hint post view) = t.timeline.amend post := by
      rw [Traced.timelineAfter, hinactive, if_neg (by decide), if_pos hcoalesce]
    rw [htimeline, recordEntry_coalesced _ _ _ hstack hcoalesce.1 hcoalesced]
    refine ⟨hchain, trivial, ?_, hdescribes.after, hafter, fun version hversion =>
      hpassed version (h.past version hversion), mem_cons_self .., ?_, mem_cons_self ..⟩
    · rw [groupStack_tryCoalesceWithTop hcoalesced, hstack]
      rfl
    · exact fun _ hmem => absurd hmem not_mem_nil
  · have htimeline : t.timelineAfter (.edit entry hint post view) = t.timeline.record post := by
      rw [Traced.timelineAfter, hinactive, if_neg (by decide), if_neg hcoalesce]
    rw [htimeline, recordEntry_fresh _ _ _ hstack hcoalesce]
    refine ⟨h.undo.append (hnow ▸ hdescribes) ?_, trivial, ?_, hdescribes.after, hafter,
      fun version hversion => hpassed version (mem_passed_record h version hversion),
      mem_cons_self .., ?_, mem_cons_self ..⟩
    · intro hclean
      rw [← hnow]
      exact h.clean (hdirty ▸ hclean)
    · rw [hstack]
      rfl
    · exact fun _ hmem => absurd hmem not_mem_nil

/-- The top undo entry is applied backward. -/
theorem applyTopEntry_undo (hstack : t.viewport.history.groupStack = [])
    (hundo : t.viewport.history.undoStack ≠ []) : Sound { t with
      viewport := t.viewport.applyTopEntry false, timeline := t.timeline.undo } := by
  obtain ⟨entry, entries, hentries⟩ := exists_cons_of_ne_nil hundo
  have hchain := h.undo
  rw [hentries] at hchain
  cases hpast : t.timeline.past with
  | nil =>
      rw [hpast] at hchain
      exact absurd hchain id
  | cons version past =>
      rw [hpast] at hchain
      obtain ⟨hdescribes, hclean, hrest⟩ := hchain
      have hnow := h.group.none hstack
      have hstamped : { entry with afterState := t.viewport.view }.Describes version
          t.timeline.now := hdescribes.congr rfl
      have happly : t.viewport.applyTopEntry false =
          ⟨version, entry.beforeState, { t.viewport.history.endCoalesceRun with
            undoStack := entries
            redoStack := { entry with afterState := t.viewport.view } ::
              t.viewport.history.redoStack }⟩ := by
        rw [Viewport.applyTopEntry, popUndo, hentries]
        simp only [Bool.false_eq_true, if_false]
        rw [hnow, hstamped.backward]
        rfl
      have htimeline : t.timeline.undo = ⟨past, version, t.timeline.now :: t.timeline.future⟩ := by
        rw [Timeline.undo, hpast]
      rw [happly, htimeline]
      have hversion : version ∈ t.passed := h.past version (by rw [hpast]; exact mem_cons_self ..)
      refine ⟨hrest, ⟨hstamped, ?_, h.redo⟩, ?_, hdescribes.before, hclean, ?_, hversion, ?_,
        hversion⟩
      · rw [← hnow]
        exact h.clean
      · dsimp only [endCoalesceRun]
        rw [hstack]
        rfl
      · exact fun other hother => h.past other (by rw [hpast]; exact mem_cons_of_mem _ hother)
      · intro other hother
        rcases mem_cons.mp hother with rfl | hother
        · exact h.now
        · exact h.future other hother

/-- The top redo entry is applied forward. -/
theorem applyTopEntry_redo (hstack : t.viewport.history.groupStack = [])
    (hredo : t.viewport.history.redoStack ≠ []) : Sound { t with
      viewport := t.viewport.applyTopEntry true, timeline := t.timeline.redo } := by
  obtain ⟨entry, entries, hentries⟩ := exists_cons_of_ne_nil hredo
  have hchain := h.redo
  rw [hentries] at hchain
  cases hfuture : t.timeline.future with
  | nil =>
      rw [hfuture] at hchain
      exact absurd hchain id
  | cons version future =>
      rw [hfuture] at hchain
      obtain ⟨hdescribes, hclean, hrest⟩ := hchain
      have hnow := h.group.none hstack
      have hstamped : { entry with beforeState := t.viewport.view }.Describes t.timeline.now
          version := hdescribes.congr rfl
      have happly : t.viewport.applyTopEntry true =
          ⟨version, entry.afterState, { t.viewport.history.endCoalesceRun with
            undoStack := enforceHistoryBudget
              ({ entry with
                  beforeState := t.viewport.view
                  byteSize := entryContentBytes { entry with beforeState := t.viewport.view } } ::
                t.viewport.history.undoStack)
            redoStack := entries }⟩ := by
        rw [Viewport.applyTopEntry, popRedo, hentries]
        simp only [if_true]
        rw [hnow, hstamped.forward]
        rfl
      have htimeline : t.timeline.redo = ⟨t.timeline.now :: t.timeline.past, version, future⟩ := by
        rw [Timeline.redo, hfuture]
      rw [happly, htimeline]
      have hversion : version ∈ t.passed :=
        h.future version (by rw [hfuture]; exact mem_cons_self ..)
      refine ⟨h.undo.append hstamped ?_, hrest, ?_, hdescribes.after, hclean, mem_passed_record h,
        hversion, ?_, hversion⟩
      · rw [← hnow]
        exact h.clean
      · dsimp only [endCoalesceRun]
        rw [hstack]
        rfl
      · exact fun other hother =>
          h.future other (by rw [hfuture]; exact mem_cons_of_mem _ hother)

theorem Sound.pass (doc : Document) : Sound { t with passed := doc :: t.passed } :=
  ⟨h.undo, h.redo, h.group, h.buffer, h.clean, fun _ hmem => mem_cons_of_mem _ (h.past _ hmem),
    mem_cons_of_mem _ h.now, fun _ hmem => mem_cons_of_mem _ (h.future _ hmem),
    mem_cons_of_mem _ h.doc⟩

/-- **Undo.** -/
theorem undo_sound (hstack : t.viewport.history.groupStack.length ≤ 1) : Sound (t.step .undo) := by
  have hflush := flush_sound h
  have hgroups : t.flush.viewport.history.groupStack = [] := Viewport.groupStack_flush hstack
  rw [Traced.step, Viewport.step, Viewport.undo, Viewport.applyHistoryStep_eq, Traced.timelineAfter]
  split
  next hempty =>
    have hsame : t.viewport.flushActiveUndoGroup.applyTopEntry false = t.flush.viewport := by
      rw [Viewport.applyTopEntry, popUndo, List.isEmpty_iff.mp hempty]
      rfl
    rw [hsame]
    exact hflush.pass _
  next hundo =>
    rw [List.isEmpty_iff] at hundo
    exact (applyTopEntry_undo hflush hgroups hundo).pass _

/-- **Redo.** -/
theorem redo_sound (hstack : t.viewport.history.groupStack.length ≤ 1) : Sound (t.step .redo) := by
  have hflush := flush_sound h
  have hgroups : t.flush.viewport.history.groupStack = [] := Viewport.groupStack_flush hstack
  rw [Traced.step, Viewport.step, Viewport.redo, Viewport.applyHistoryStep_eq, Traced.timelineAfter]
  split
  next hempty =>
    have hsame : t.viewport.flushActiveUndoGroup.applyTopEntry true = t.flush.viewport := by
      rw [Viewport.applyTopEntry, popRedo, List.isEmpty_iff.mp hempty]
      rfl
    rw [hsame]
    exact hflush.pass _
  next hredo =>
    rw [List.isEmpty_iff] at hredo
    exact (applyTopEntry_redo hflush hgroups hredo).pass _

end

/-- Marking a stack dirty touches the flags only. -/
theorem markDirty_states (entries : List Entry) :
    List.Forall₂ (fun entry entry' : Entry => { entry' with
      beforeState := entry.beforeState, afterState := entry.afterState
      byteSize := entry.byteSize } = entry ∧ entry'.beforeState.dirty = true ∧
      entry'.afterState.dirty = true) entries (entries.map markDirty) := by
  rw [forall₂_map_right_iff]
  exact forall₂_same.mpr fun entry _ => ⟨rfl, rfl, rfl⟩

theorem UndoChain.markSaved {saved : Document} {history : UndoHistory} {past : List Document}
    {now : Document} (h : UndoChain saved history.undoStack past now) :
    UndoChain saved' history.markSaved.undoStack past now := by
  refine h.markDirty ?_
  obtain ⟨undoStack, redoStack, groupStack, kind, space⟩ := history
  cases undoStack with
  | nil => exact .nil
  | cons top rest =>
      exact .cons ⟨rfl, rfl⟩ ((markDirty_states rest).imp fun _ _ hstate => ⟨hstate.1, hstate.2.1⟩)

theorem RedoChain.markSaved {saved : Document} {history : UndoHistory} {future : List Document}
    {now : Document} (h : RedoChain saved history.redoStack future now) :
    RedoChain saved' history.markSaved.redoStack future now := by
  refine h.markDirty ?_
  obtain ⟨undoStack, redoStack, groupStack, kind, space⟩ := history
  cases redoStack with
  | nil => exact .nil
  | cons top rest =>
      exact .cons ⟨rfl, rfl⟩ ((markDirty_states rest).imp fun _ _ hstate => ⟨hstate.1, hstate.2.2⟩)

/-- **A save.** It does not touch the flags of an open group. -/
theorem markSaved_sound (h : Sound t)
    (hcareful : ∀ frame, t.viewport.history.groupStack.getLast? = some frame →
      frame.state.dirty = true ∨ ∀ entry ∈ frame.disjointEntries,
        entry.beforeLines = entry.afterLines) : Sound (t.step .markSaved) := by
  have hstep : Sound { t with viewport := t.viewport.markSaved, saved := t.viewport.doc } := by
    refine ⟨h.undo.markSaved, h.redo.markSaved, ?_, h.buffer, fun _ => rfl, h.past, h.now, h.future,
      h.doc⟩
    have hgroup := h.group
    rw [GroupHolds] at hgroup ⊢
    dsimp only [Viewport.markSaved, markSaved, endCoalesceRun]
    cases hframe : t.viewport.history.groupStack.getLast? with
    | none =>
        rw [hframe] at hgroup
        exact hgroup
    | some frame =>
        rw [hframe] at hgroup
        obtain ⟨hholds, hending, hbuffer, -⟩ := hgroup
        refine ⟨hholds, hending, hbuffer, fun hclean => ?_⟩
        rcases hcareful frame hframe with hdirty | hsame
        · exact absurd (hclean.symm.trans hdirty) (by decide)
        · refine Document.ext (hholds.installs.eq_of_same ?_) hending
          rw [List.forall_mem_map]
          exact hsame
  exact hstep.pass _

/-- **An edit within a group.** -/
theorem grouped_edit_sound (h : Sound t) {frame : UndoGroupFrame}
    (hframe : t.viewport.history.groupStack.getLast? = some frame) {entry : Entry}
    {hint : CoalesceHint} {view : ViewState}
    (hpossible : t.viewport.Possible (.edit entry hint post view))
    (hfits : FitsFrame frame.disjointEntries
      (if entry.isInline then widenInlineEntryToLines post.lines entry else entry)) :
    Sound (t.step (.edit entry hint post view)) := by
  obtain ⟨hdescribes, hdirty, hview, -, hquiet⟩ := hpossible
  have hactive : t.viewport.history.isGroupActive = true := by
    rw [isGroupActive, Bool.not_eq_true', isEmpty_eq_false_iff]
    rintro hnil
    rw [hnil] at hframe
    cases hframe
  obtain ⟨child, hchild⟩ : ∃ child, child =
    (if entry.isInline then widenInlineEntryToLines post.lines entry else entry) := ⟨_, rfl⟩
  rw [← hchild] at hfits
  have hreplaces : Replaces child.startLine child.beforeLines child.afterLines t.viewport.doc.lines
      post.lines := by
    cases hinline : entry.isInline with
    | true =>
        rw [hinline, if_pos rfl] at hchild
        rw [hchild]
        exact replaces_widenInlineEntryToLines hdescribes hinline
    | false =>
        rw [hinline, if_neg (by decide)] at hchild
        rw [hchild]
        exact hdescribes.replaces hinline (hchild ▸ hfits.plain.single)
  have hsame : t.viewport.doc.lineEnding = post.lineEnding := by
    have hending := hdescribes.ending
    rw [Entry.lineEndings, (hquiet hactive).1, (hquiet hactive).2] at hending
    split at hending <;> exact hending
  have hpush : t.viewport.step (.edit entry hint post view) = ⟨post, view,
      { t.viewport.history with
        redoStack := [], activeRunKind := .none
        groupStack := t.viewport.history.groupStack.map fun frame =>
          { frame with disjointEntries := mergeChildIntoDisjoint frame.disjointEntries child } }⟩ := by
    have hnonempty : t.viewport.history.groupStack.isEmpty = false := by
      simpa [isGroupActive] using hactive
    rw [Viewport.step, Viewport.pushHistoryEntry]
    rw [hactive, Bool.and_true, ← hchild, recordEntry]
    rw [hnonempty, if_neg (by decide)]
  have htimeline : t.timelineAfter (.edit entry hint post view) =
      { t.timeline with future := [] } := by
    rw [Traced.timelineAfter, hactive, if_pos rfl]
  have hgroup := h.group
  rw [GroupHolds, hframe] at hgroup
  obtain ⟨hholds, hending, hbuffer, hclean⟩ := hgroup
  rw [Traced.step, hpush, htimeline]
  refine ⟨h.undo, trivial, ?_, hdescribes.after, ?_, fun version hversion =>
    mem_cons_of_mem _ (h.past version hversion), mem_cons_of_mem _ h.now, ?_,
    mem_cons_self ..⟩
  · rw [GroupHolds]
    rw [getLast?_map, hframe]
    exact ⟨hholds.take hfits hreplaces, hending.trans hsame, hbuffer, hclean⟩
  · exact fun hfalse => absurd (hfalse.symm.trans hview) (by decide)
  · exact fun _ hmem => absurd hmem not_mem_nil

end Steps

/-! ### Careful runs -/

/-- What the history relies on when groups are in use: a grouped edit fits the ranges of the
outermost group, undo and redo find one open group at most, and no save comes while a group that
began clean holds a change. -/
def Careful (viewport : Viewport) : Action → Prop
  | .edit entry _ post _ => ∀ frame, viewport.history.groupStack.getLast? = some frame →
      FitsFrame frame.disjointEntries
        (if entry.isInline then widenInlineEntryToLines post.lines entry else entry)
  | .undo => viewport.history.groupStack.length ≤ 1
  | .redo => viewport.history.groupStack.length ≤ 1
  | .markSaved => ∀ frame, viewport.history.groupStack.getLast? = some frame →
      frame.state.dirty = true ∨ ∀ entry ∈ frame.disjointEntries,
        entry.beforeLines = entry.afterLines
  | _ => True

/-- **The step lemma.** -/
theorem step_sound {t : Traced} (h : Sound t) {action : Action}
    (hpossible : t.viewport.Possible action) (hcareful : Careful t.viewport action) :
    Sound (t.step action) := by
  cases action with
  | edit entry hint post view =>
      cases hframe : t.viewport.history.groupStack.getLast? with
      | none => exact edit_sound h (getLast?_eq_none_iff.mp hframe) hpossible
      | some frame => exact grouped_edit_sound h hframe hpossible (hcareful frame hframe)
  | undo => exact undo_sound h hcareful
  | redo => exact redo_sound h hcareful
  | beginGroup =>
      have hopened : Sound { t with viewport := t.viewport.beginUndoGroup } := by
        refine ⟨h.undo, h.redo, ?_, h.buffer, h.clean, h.past, h.now, h.future, h.doc⟩
        have hgroup := h.group
        rw [GroupHolds] at hgroup ⊢
        dsimp only [Viewport.beginUndoGroup, beginGroup]
        cases hstack : t.viewport.history.groupStack with
        | nil =>
            -- The new group is the outermost one, and nothing has happened in it yet.
            have hnow := h.group.none hstack
            refine ⟨hnow ▸ frameHolds_nil, by rw [hnow], hnow ▸ h.buffer, fun hclean => ?_⟩
            rw [← hnow]
            exact h.clean hclean
        | cons frame outer =>
            rw [hstack] at hgroup
            exact hgroup
      exact hopened.pass _
  | endGroup => exact (flush_sound h).pass _
  | moveCursor view =>
      have hmoved : Sound { t with viewport := { t.viewport with
          view := view, history := t.viewport.history.notifyCursorMoved } } :=
        ⟨h.undo, h.redo, h.group, h.buffer, fun hclean => h.clean (hpossible ▸ hclean), h.past,
          h.now, h.future, h.doc⟩
      exact hmoved.pass _
  | setView view =>
      have hset : Sound { t with viewport := { t.viewport with view := view } } :=
        ⟨h.undo, h.redo, h.group, h.buffer, fun hclean => h.clean (hpossible ▸ hclean), h.past,
          h.now, h.future, h.doc⟩
      exact hset.pass _
  | markSaved => exact markSaved_sound h hcareful

/-- A run from a loaded document. -/
inductive Run (P : Viewport → Action → Prop) : Traced → Prop where
  | load {doc : Document} (view : ViewState) : BufferLines doc.lines → Run P (.load doc view)
  | step {t : Traced} {action : Action} : Run P t → t.viewport.Possible action →
      P t.viewport action → Run P (t.step action)

/-- **The run lemma.** -/
theorem run_sound {t : Traced} (h : Run Careful t) : Sound t := by
  induction h with
  | load view hbuffer => exact load_sound hbuffer view
  | step _ hpossible hcareful ih => exact step_sound ih hpossible hcareful

/-! ### A byte typed at the end of a line -/

/-- The document of one line. -/
def oneLine (line : Line) : Document := ⟨[line], .lf⟩

/-- The entry of a byte typed after `line`, and the view it leaves. -/
def typedEntry (line : Line) (byte : UInt8) (dirty : Bool) : Entry :=
  { isInline := true, startColumn := line.length, insertedText := [byte]
    beforeState := { cursorColumn := line.length, dirty := dirty }
    afterState := { cursorColumn := line.length + 1, dirty := true } }

/-- The edit that types `byte` after `line`. -/
def typeByte (line : Line) (byte : UInt8) (dirty : Bool) : Action :=
  .edit (typedEntry line byte dirty) { kind := .insert } (oneLine (line ++ [byte]))
    { cursorColumn := line.length + 1, dirty := true }

theorem typeByte_possible {viewport : Viewport} (line : Line) (byte : UInt8) (dirty : Bool)
    (hdoc : viewport.doc = oneLine line) (hline : lf ∉ line) (hbyte : byte ≠ lf)
    (hdirty : viewport.view.dirty = dirty) : viewport.Possible (typeByte line byte dirty) := by
  have hline' : lf ∉ line ++ [byte] := by simp [hline, hbyte.symm]
  refine ⟨⟨?_, ?_, fun _ => ⟨rfl, line, line ++ [byte], ?_, ?_⟩, ?_, ?_⟩, hdirty.symm, rfl,
    fun _ => rfl, fun _ => ⟨rfl, rfl⟩⟩
  · rw [hdoc]
    exact ⟨cons_ne_nil _ _, by simpa [oneLine] using hline⟩
  · exact ⟨cons_ne_nil _ _, by simpa only [oneLine, forall_mem_singleton] using hline'⟩
  · rw [hdoc]
    exact ⟨[], [], rfl, rfl, rfl⟩
  · exact ⟨line, [], by simp [typedEntry], by simp [typedEntry], rfl⟩
  · exact fun hfalse => absurd hfalse (by simp [typedEntry])
  · rw [hdoc]
    rfl

/-! ### Runs without groups -/

/-- No group is opened or closed. -/
def Ungrouped (_ : Viewport) : Action → Prop
  | .beginGroup => False
  | .endGroup => False
  | _ => True

section Ungrouped

variable {t : Traced}

theorem groupStack_applyTopEntry {viewport : Viewport} (hstack : viewport.history.groupStack = [])
    (redo : Bool) : (viewport.applyTopEntry redo).history.groupStack = [] := by
  rw [Viewport.applyTopEntry]
  cases redo with
  | false =>
      rw [popUndo]
      cases viewport.history.undoStack with
      | nil => exact hstack
      | cons entry entries => exact hstack
  | true =>
      rw [popRedo]
      cases viewport.history.redoStack with
      | nil => exact hstack
      | cons entry entries => exact hstack

theorem groupStack_recordEntry {history : UndoHistory} (hstack : history.groupStack = [])
    (entry : Entry) (hint : CoalesceHint) : (history.recordEntry entry hint).groupStack = [] := by
  by_cases hcoalesce : hint.kind ≠ .none ∧ (history.tryCoalesceWithTop entry hint).isSome
  · obtain ⟨coalesced, hcoalesced⟩ := isSome_iff_exists.mp hcoalesce.2
    rw [recordEntry_coalesced _ _ _ hstack hcoalesce.1 hcoalesced]
    exact (groupStack_tryCoalesceWithTop hcoalesced).trans hstack
  · rw [recordEntry_fresh _ _ _ hstack hcoalesce]
    exact hstack

/-- The step lemma for the absence of groups. -/
theorem groupStack_step (hstack : t.viewport.history.groupStack = []) {action : Action}
    (hungrouped : Ungrouped t.viewport action) :
    (t.viewport.step action).history.groupStack = [] := by
  cases action with
  | edit entry hint post view =>
      exact groupStack_recordEntry hstack _ hint
  | undo =>
      rw [Viewport.step, Viewport.undo, Viewport.applyHistoryStep_eq, Viewport.flush_none hstack]
      exact groupStack_applyTopEntry hstack false
  | redo =>
      rw [Viewport.step, Viewport.redo, Viewport.applyHistoryStep_eq, Viewport.flush_none hstack]
      exact groupStack_applyTopEntry hstack true
  | beginGroup => exact absurd hungrouped id
  | endGroup => exact absurd hungrouped id
  | moveCursor view => exact hstack
  | setView view => exact hstack
  | markSaved => exact hstack

theorem groupStack_run (h : Run Ungrouped t) : t.viewport.history.groupStack = [] := by
  induction h with
  | load view hbuffer => rfl
  | step _ _ hungrouped ih => exact groupStack_step ih hungrouped

/-- Without groups there is nothing to take care of. -/
theorem run_careful (h : Run Ungrouped t) : Run Careful t := by
  induction h with
  | load view hbuffer => exact .load view hbuffer
  | @step t action hrun hpossible hungrouped ih =>
      refine .step ih hpossible ?_
      have hstack := groupStack_run hrun
      cases action with
      | edit entry hint post view => simp [Careful, hstack]
      | undo => simp [Careful, hstack]
      | redo => simp [Careful, hstack]
      | markSaved => simp [Careful, hstack]
      | _ => trivial

/-- One undo moves the version line and the stacks by one. -/
theorem undo_moves (hstack : t.viewport.history.groupStack = [])
    (hundo : 0 < t.viewport.history.undoStack.length) : (t.step .undo).timeline = t.timeline.undo ∧
      (t.step .undo).viewport.history.undoStack.length + 1 =
        t.viewport.history.undoStack.length ∧
      (t.step .undo).viewport.history.redoStack.length =
        t.viewport.history.redoStack.length + 1 := by
  obtain ⟨entry, entries, hentries⟩ := exists_cons_of_length_pos hundo
  have hflush := Viewport.flush_none hstack
  have htimeline : t.flushedTimeline = t.timeline := by rw [Traced.flushedTimeline, hstack]
  refine ⟨?_, ?_, ?_⟩
  · rw [Traced.step, Traced.timelineAfter, hflush, htimeline, hentries, if_neg (by simp)]
  · rw [Traced.step, Viewport.step, Viewport.undo, Viewport.applyHistoryStep_eq, hflush,
      Viewport.applyTopEntry, popUndo, hentries]
    rfl
  · rw [Traced.step, Viewport.step, Viewport.undo, Viewport.applyHistoryStep_eq, hflush,
      Viewport.applyTopEntry, popUndo, hentries]
    rfl

/-- One redo moves the version line and the redo stack by one. -/
theorem redo_moves (hstack : t.viewport.history.groupStack = [])
    (hredo : 0 < t.viewport.history.redoStack.length) : (t.step .redo).timeline = t.timeline.redo ∧
      (t.step .redo).viewport.history.redoStack.length + 1 =
        t.viewport.history.redoStack.length := by
  obtain ⟨entry, entries, hentries⟩ := exists_cons_of_length_pos hredo
  have hflush := Viewport.flush_none hstack
  have htimeline : t.flushedTimeline = t.timeline := by rw [Traced.flushedTimeline, hstack]
  refine ⟨?_, ?_⟩
  · rw [Traced.step, Traced.timelineAfter, hflush, htimeline, hentries, if_neg (by simp)]
  · rw [Traced.step, Viewport.step, Viewport.redo, Viewport.applyHistoryStep_eq, hflush,
      Viewport.applyTopEntry, popRedo, hentries]
    rfl

/-- The run lemma of undo. -/
theorem undo_iterate (h : Sound t) (hstack : t.viewport.history.groupStack = []) {k : Nat}
    (hk : k ≤ t.viewport.history.undoStack.length) :
    ∃ t' : Traced, t'.viewport = Viewport.undo^[k] t.viewport ∧
      t'.timeline = Timeline.undo^[k] t.timeline ∧ Sound t' ∧
      t'.viewport.history.groupStack = [] ∧
      t'.viewport.history.undoStack.length + k = t.viewport.history.undoStack.length ∧
      t'.viewport.history.redoStack.length = t.viewport.history.redoStack.length + k := by
  induction k with
  | zero => exact ⟨t, rfl, rfl, h, hstack, rfl, rfl⟩
  | succ k ih =>
      obtain ⟨t', hviewport, htimeline, hsound, hgroups, hundos, hredos⟩ := ih (by omega)
      obtain ⟨hmoved, hundos', hredos'⟩ := undo_moves hgroups (by omega)
      refine ⟨t'.step .undo, ?_, ?_, undo_sound hsound (by rw [hgroups]; exact Nat.zero_le 1),
        groupStack_step hgroups trivial, by omega, by omega⟩
      · rw [Function.iterate_succ_apply', ← hviewport]
        rfl
      · rw [Function.iterate_succ_apply', ← htimeline, hmoved]

/-- The run lemma of redo. -/
theorem redo_iterate (h : Sound t) (hstack : t.viewport.history.groupStack = []) {k : Nat}
    (hk : k ≤ t.viewport.history.redoStack.length) :
    ∃ t' : Traced, t'.viewport = Viewport.redo^[k] t.viewport ∧
      t'.timeline = Timeline.redo^[k] t.timeline ∧ Sound t' ∧
      t'.viewport.history.groupStack = [] ∧
      t'.viewport.history.redoStack.length + k = t.viewport.history.redoStack.length := by
  induction k with
  | zero => exact ⟨t, rfl, rfl, h, hstack, rfl⟩
  | succ k ih =>
      obtain ⟨t', hviewport, htimeline, hsound, hgroups, hredos⟩ := ih (by omega)
      obtain ⟨hmoved, hredos'⟩ := redo_moves hgroups (by omega)
      refine ⟨t'.step .redo, ?_, ?_, redo_sound hsound (by rw [hgroups]; exact Nat.zero_le 1),
        groupStack_step hgroups trivial, by omega⟩
      · rw [Function.iterate_succ_apply', ← hviewport]
        rfl
      · rw [Function.iterate_succ_apply', ← htimeline, hmoved]

theorem UndoChain.length_le {saved : Document} {entries : List Entry} {past : List Document}
    {now : Document} (h : UndoChain saved entries past now) : entries.length ≤ past.length := by
  induction entries generalizing past now with
  | nil => exact Nat.zero_le _
  | cons entry entries ih =>
      cases past with
      | nil => exact absurd h id
      | cons version past => exact Nat.succ_le_succ (ih h.2.2)

/-- **The law of undo and redo.** The `k`-th undo gives the version that the `k`-th entry from the
top was first recorded on, which the document passed through; the last retained entry gives the
version before the oldest one, and then there is nothing left to undo; and `k` redos after `k`
undos give back what was there. -/
theorem undo_redo_law (h : Run Ungrouped t) :
    (∀ k ≤ t.viewport.history.undoStack.length, ∃ version ∈ t.passed,
      (t.timeline.now :: t.timeline.past)[k]? = some version ∧
        (Viewport.undo^[k] t.viewport).doc = version) ∧
    (Viewport.undo^[t.viewport.history.undoStack.length] t.viewport).history.undoStack = [] ∧
    ∀ k ≤ t.viewport.history.undoStack.length,
      (Viewport.redo^[k] (Viewport.undo^[k] t.viewport)).doc = t.viewport.doc := by
  have hsound := run_sound (run_careful h)
  have hstack := groupStack_run h
  have hlength := hsound.undo.length_le
  refine ⟨fun k hk => ?_, ?_, fun k hk => ?_⟩
  · obtain ⟨t', hviewport, htimeline, hsound', hgroups, -, -⟩ := undo_iterate hsound hstack hk
    rw [← hviewport, hsound'.group.none hgroups, htimeline]
    cases k with
    | zero => exact ⟨t.timeline.now, hsound.now, rfl, rfl⟩
    | succ k =>
        have hk' : k < t.timeline.past.length := by omega
        refine ⟨t.timeline.past[k], hsound.past _ (getElem_mem hk'), ?_,
          Timeline.now_undo_iterate t.timeline hk'⟩
        rw [getElem?_cons_succ, getElem?_eq_getElem hk']
  · obtain ⟨t', hviewport, -, -, -, hundos, -⟩ := undo_iterate hsound hstack (Nat.le_refl _)
    rw [← hviewport]
    exact eq_nil_of_length_eq_zero (by omega)
  · obtain ⟨t', hviewport, htimeline, hsound', hgroups, -, hredos⟩ :=
      undo_iterate hsound hstack hk
    obtain ⟨t'', hviewport', htimeline', hsound'', hgroups', -⟩ :=
      redo_iterate (k := k) hsound' hgroups (by omega)
    rw [← hviewport, ← hviewport', hsound''.group.none hgroups', htimeline', htimeline,
      Timeline.redo_undo_iterate _ (by omega), hsound.group.none hstack]

/-- Two bytes typed in one run. -/
def typedTwice : Traced :=
  ((Traced.load (oneLine [97]) {}).step (typeByte [97] 98 false)).step (typeByte [97, 98] 99 true)

theorem typedTwice_run : Run Ungrouped typedTwice :=
  .step (.step (.load {} ⟨by decide, by decide⟩)
    (typeByte_possible [97] 98 false rfl (by decide) (by decide) rfl) trivial)
    (typeByte_possible [97, 98] 99 true rfl (by decide) (by decide) rfl) trivial

/-- One undo takes the run back, one redo brings it again. -/
theorem undo_redo_law_typedTwice :
    (Viewport.redo^[1] (Viewport.undo^[1] typedTwice.viewport)).doc = oneLine [97, 98, 99] :=
  (undo_redo_law typedTwice_run).2.2 1 (by decide +kernel)

end Ungrouped

/-! ### The clean flag -/

/-- **A document that reads clean is the one that was loaded or saved last.** -/
theorem clean_is_saved {t : Traced} (h : Run Careful t) (hclean : t.viewport.view.dirty = false) :
    t.viewport.doc = t.saved :=
  (run_sound h).clean hclean

/-- A byte typed after a save and taken back. -/
def savedOnce : Traced :=
  ((((Traced.load (oneLine [97]) {}).step (typeByte [97] 98 false)).step .markSaved).step
    (typeByte [97, 98] 99 false)).step .undo

theorem savedOnce_run : Run Ungrouped savedOnce :=
  .step (.step (.step (.step (.load {} ⟨by decide, by decide⟩)
    (typeByte_possible [97] 98 false rfl (by decide) (by decide) rfl) trivial) trivial trivial)
    (typeByte_possible [97, 98] 99 false rfl (by decide) (by decide) rfl) trivial) trivial trivial

theorem clean_is_saved_savedOnce : savedOnce.viewport.doc = savedOnce.saved :=
  clean_is_saved (run_careful savedOnce_run) (by decide +kernel)

/-- A save while a group is open, which is what a save during a snippet is: the group's first
state still reads clean, and undo brings it back. -/
def savedInGroup : Traced :=
  (((((Traced.load (oneLine [97]) {}).step .beginGroup).step (typeByte [97] 98 false)).step
    .markSaved).step .endGroup).step .undo

theorem savedInGroup_run : Run (fun _ _ => True) savedInGroup :=
  .step (.step (.step (.step (.step (.load {} ⟨by decide, by decide⟩) trivial trivial)
    (typeByte_possible [97] 98 false rfl (by decide) (by decide) rfl) trivial) trivial trivial)
    trivial trivial) trivial trivial

theorem savedInGroup_clean : ¬ ∀ t, Run (fun _ _ => True) t →
    t.viewport.view.dirty = false → t.viewport.doc = t.saved := by
  intro h
  have hdoc := h savedInGroup savedInGroup_run (by decide +kernel)
  exact absurd hdoc (by decide +kernel)

end Microide.Editor
