/-
The collapsed folds over whole runs.

The collapsed list is read by binary search, so its openers are to be strictly increasing. The
commands keep that, and so does an edit unless it moves an opener inside it to a line above the
edit.

**Main results.** `Run.folded`: the list over a run; `refresh_follows`: a fold outside an edit;
`run_collapsedFolds`: both over every run whose edits keep the openers below their begin.
-/

import Microide.Editor.FoldingBounds

namespace Microide.Editor

open Text Lib LineEditSpan
open List Option

/-- Strictly increasing openers, and every fold inside `n` lines. -/
structure Folded (n : Nat) (ranges : List FoldRange) : Prop where
  ordered : ranges.Pairwise fun a b => a.openerLine < b.openerLine
  inside : ∀ range ∈ ranges, range.Inside n

/-- The text lines a fold spans. -/
def FoldRange.text (lines : List Line) (range : FoldRange) : List Line :=
  (lines.drop range.openerLine).take (range.closerLine + 1 - range.openerLine)

/-- The fold of the same lines after an edit it is outside of. -/
def FoldRange.carried (span : LineEditSpan) (oldCount newCount : Nat) (range : FoldRange) :
    FoldRange :=
  { range with
    openerLine := span.carried oldCount newCount range.openerLine
    closerLine := span.carried oldCount newCount range.closerLine }

theorem Folded.nil (n : Nat) : Folded n [] := ⟨.nil, fun _ mem => nomatch mem⟩

theorem Folded.sublist {n : Nat} {ranges kept : List FoldRange} (folded : Folded n ranges)
    (sub : kept.Sublist ranges) : Folded n kept :=
  ⟨folded.ordered.sublist sub, fun range mem => folded.inside range (sub.subset mem)⟩

variable {range : FoldRange}

namespace FoldingModel

/-! ### Searching by opener -/

section Search

variable {n : Nat} {ranges : List FoldRange} (opener : Nat)

/-- A search by opener cuts an ordered list. -/
theorem lowerBound_cut (ordered : ranges.Pairwise fun a b => a.openerLine < b.openerLine) :
    ∃ before rest, ranges = before ++ rest ∧ lowerBound ranges opener = before.length ∧
      (∀ range ∈ before, range.openerLine < opener) ∧ ∀ range ∈ rest, opener ≤ range.openerLine := by
  have cuts : ranges.Pairwise fun a b =>
      decide (b.openerLine < opener) → decide (a.openerLine < opener) := by
    refine ordered.imp fun {a b} rises below => ?_
    simp only [decide_eq_true_eq] at below ⊢
    exact Nat.lt_trans rises below
  obtain ⟨before, rest, cut, found, passing, failing⟩ := exists_cut cuts
  refine ⟨before, rest, cut, found, fun range mem => ?_, fun range mem => ?_⟩
  · simpa using passing range mem
  · simpa using failing range mem

/-- The search as a cut: before, the range if there is one, behind. -/
theorem rangeOfOpener_cut (ordered : ranges.Pairwise fun a b => a.openerLine < b.openerLine) :
    ∃ before rest, ranges = before ++ (rangeOfOpener ranges opener).toList ++ rest ∧
      lowerBound ranges opener = before.length ∧ (∀ range ∈ before, range.openerLine < opener) ∧
      ∀ range ∈ rest, opener < range.openerLine := by
  obtain ⟨before, rest, cut, found, below, above⟩ := lowerBound_cut opener ordered
  have here : rangeOfOpener ranges opener =
      rest.head?.filter fun range => range.openerLine = opener := by
    rw [rangeOfOpener, found, cut, getElem?_append_right (Nat.le_refl _), Nat.sub_self,
      head?_eq_getElem?]
  rw [here]
  cases rest with
  | nil => exact ⟨before, [], by simpa using cut, found, below, fun _ mem => nomatch mem⟩
  | cons first rest =>
    have rises := (pairwise_append.mp (cut ▸ ordered)).2.1
    by_cases hit : first.openerLine = opener
    · refine ⟨before, rest, by simpa [Option.filter, hit] using cut, found, below, fun range mem => ?_⟩
      exact hit ▸ rel_of_pairwise_cons rises mem
    · refine ⟨before, first :: rest, by simpa [Option.filter, hit] using cut, found, below, fun range mem => ?_⟩
      have first_le := above first mem_cons_self
      rcases mem_cons.mp mem with rfl | mem
      · omega
      · have := rel_of_pairwise_cons rises mem
        omega

theorem rangeOfOpener_some (found : rangeOfOpener ranges opener = some range) :
    range ∈ ranges ∧ range.openerLine = opener := by
  obtain ⟨stands, same⟩ := filter_eq_some_iff.mp found
  exact ⟨mem_of_getElem? stands, by simpa using same⟩

variable {opener}

/-- Where the openers are ordered the search finds what is there. -/
theorem rangeOfOpener_eq_some (ordered : ranges.Pairwise fun a b => a.openerLine < b.openerLine)
    (mem : range ∈ ranges) (same : range.openerLine = opener) :
    rangeOfOpener ranges opener = some range := by
  obtain ⟨before, rest, cut, -, below, above⟩ := rangeOfOpener_cut opener ordered
  rw [cut] at mem
  rcases mem_append.mp mem with mem | mem
  · rcases mem_append.mp mem with mem | mem
    · exact absurd same (Nat.ne_of_lt (below range mem))
    · exact mem_toList.mp mem
  · exact absurd same (Nat.ne_of_gt (above range mem))

end Search

/-! ### Commands -/

section Commands

variable {n : Nat} {m : FoldingModel}

theorem insertIdx_between {α : Type} (before rest : List α) (a : α) :
    (before ++ rest).insertIdx before.length a = before ++ a :: rest := by
  induction before with
  | nil => exact insertIdx_zero
  | cons b before ih =>
    rw [cons_append, length_cons, insertIdx_succ_cons, ih]
    rfl

theorem insert_folded {before rest : List FoldRange} {found : Option FoldRange}
    (folded : Folded n (before ++ found.toList ++ rest))
    (below : ∀ r ∈ before, r.openerLine < range.openerLine)
    (above : ∀ r ∈ rest, range.openerLine < r.openerLine) (inside : range.Inside n) :
    Folded n (before ++ range :: rest) := by
  obtain ⟨left, right, across⟩ := pairwise_append.mp folded.ordered
  refine ⟨pairwise_append.mpr ⟨(pairwise_append.mp left).1, ?_, ?_⟩, ?_⟩
  · exact pairwise_cons.mpr ⟨above, right⟩
  · intro a memA b memB
    rcases mem_cons.mp memB with rfl | memB
    · exact below a memA
    · exact across a (mem_append_left _ memA) b memB
  · intro r mem
    rcases mem_append.mp mem with mem | mem
    · exact folded.inside r (mem_append_left _ (mem_append_left _ mem))
    · rcases mem_cons.mp mem with rfl | mem
      · exact inside
      · exact folded.inside r (mem_append_right _ mem)

section

variable (folded : Folded n m.collapsed)

include folded

theorem collapseRange_folded (inside : range.closerLine < n) :
    Folded n (m.collapseRange range).collapsed := by
  unfold collapseRange
  split_ifs with empty
  · exact folded
  · have spans : range.Inside n := ⟨Nat.lt_of_not_le empty, inside⟩
    obtain ⟨before, rest, cut, place, below, above⟩ :=
      rangeOfOpener_cut range.openerLine folded.ordered
    dsimp only
    rw [place]
    rw [cut] at folded
    have inserted := insert_folded folded below above spans
    cases found : rangeOfOpener m.collapsed range.openerLine with
    | none =>
      rw [found] at cut
      have list : m.collapsed.insertIdx before.length range = before ++ range :: rest := by
        rw [cut, toList_none, append_nil, insertIdx_between]
      exact list ▸ inserted
    | some old =>
      rw [found] at cut
      have list : m.collapsed.set before.length range = before ++ range :: rest := by
        rw [cut]
        simp
      exact list ▸ inserted

theorem collapse_folded (resolved : Folded n m.ranges) (opener : Nat) :
    Folded n (m.collapse opener).collapsed := by
  unfold collapse
  split
  · exact folded
  next range found =>
    exact collapseRange_folded folded (resolved.inside range (rangeOfOpener_some opener found).1).2

theorem expand_folded (opener : Nat) : Folded n (m.expand opener).collapsed := by
  unfold expand
  split
  · exact folded.sublist (eraseIdx_sublist _ _)
  · exact folded

theorem toggleFold_folded (resolved : Folded n m.ranges) (opener : Nat) :
    Folded n (m.toggleFold opener).collapsed := by
  unfold toggleFold
  split
  · exact expand_folded folded opener
  · exact collapse_folded folded resolved opener

end

theorem mem_mergeRanges {collapsed ranges : List FoldRange}
    (mem : range ∈ mergeRanges collapsed ranges) : range ∈ collapsed ∨ range ∈ ranges := by
  fun_induction mergeRanges collapsed ranges with
  | case1 collapsed => exact .inl mem
  | case2 ranges => exact .inr mem
  | case3 c collapsed r ranges first ih =>
    rcases mem_cons.mp mem with rfl | mem
    · exact .inr mem_cons_self
    · exact (ih mem).imp_right (mem_cons_of_mem r)
  | case4 c collapsed r ranges _ first ih =>
    rcases mem_cons.mp mem with rfl | mem
    · exact .inl mem_cons_self
    · exact (ih mem).imp_left (mem_cons_of_mem c)
  | case5 c collapsed r ranges _ _ ih =>
    rcases mem_cons.mp mem with rfl | mem
    · exact .inr mem_cons_self
    · exact (ih mem).imp (mem_cons_of_mem c) (mem_cons_of_mem r)

theorem mergeRanges_folded {collapsed ranges : List FoldRange} (folded : Folded n collapsed)
    (resolved : Folded n ranges) : Folded n (mergeRanges collapsed ranges) := by
  refine ⟨?_, fun range mem => (mem_mergeRanges mem).elim (folded.inside range)
    (resolved.inside range)⟩
  have left := folded.ordered
  have right := resolved.ordered
  clear folded resolved
  fun_induction mergeRanges collapsed ranges with
  | case1 collapsed => exact left
  | case2 ranges => exact right
  | case3 c collapsed r ranges first ih =>
    refine pairwise_cons.mpr ⟨fun b mem => ?_, ih left right.of_cons⟩
    rcases mem_mergeRanges mem with mem | mem
    · rcases mem_cons.mp mem with rfl | mem
      · exact first
      · exact Nat.lt_trans first (rel_of_pairwise_cons left mem)
    · exact rel_of_pairwise_cons right mem
  | case4 c collapsed r ranges _ first ih =>
    refine pairwise_cons.mpr ⟨fun b mem => ?_, ih left.of_cons right⟩
    rcases mem_mergeRanges mem with mem | mem
    · exact rel_of_pairwise_cons left mem
    · rcases mem_cons.mp mem with rfl | mem
      · exact first
      · exact Nat.lt_trans first (rel_of_pairwise_cons right mem)
  | case5 c collapsed r ranges notAbove notBelow ih =>
    have same : c.openerLine = r.openerLine := by omega
    refine pairwise_cons.mpr ⟨fun b mem => ?_, ih left.of_cons right.of_cons⟩
    rcases mem_mergeRanges mem with mem | mem
    · exact same ▸ rel_of_pairwise_cons left mem
    · exact rel_of_pairwise_cons right mem

theorem collapseAllResolved_folded (folded : Folded n m.collapsed) (resolved : Folded n m.ranges) :
    Folded n m.collapseAllResolved.collapsed := by
  unfold collapseAllResolved
  split
  · exact folded
  · exact mergeRanges_folded folded resolved

/-- Only the collapsed list is a command's. -/
theorem collapseRange_same (m : FoldingModel) (range : FoldRange) :
    ∃ collapsed, m.collapseRange range = { m with collapsed := collapsed } := by
  unfold collapseRange
  split
  · exact ⟨m.collapsed, rfl⟩
  · split
    · exact ⟨_, rfl⟩
    · exact ⟨_, rfl⟩

theorem expand_same (m : FoldingModel) (opener : Nat) :
    ∃ collapsed, m.expand opener = { m with collapsed := collapsed } := by
  unfold expand
  split
  · exact ⟨_, rfl⟩
  · exact ⟨m.collapsed, rfl⟩

theorem collapse_same (m : FoldingModel) (opener : Nat) :
    ∃ collapsed, m.collapse opener = { m with collapsed := collapsed } := by
  unfold collapse
  split
  · exact ⟨m.collapsed, rfl⟩
  · exact collapseRange_same m _

end Commands

/-! ### Edits -/

section Edits

variable {m : FoldingModel} {span : LineEditSpan} {old new : List Line}

/-- No fold that the edit keeps opens at or behind its begin and is moved above it. -/
def KeepsOpeners (m : FoldingModel) (span : LineEditSpan) (lineCount : Nat) : Prop :=
  ∀ begin, span.begin = some begin → ∀ range ∈ m.collapsed, begin ≤ range.openerLine →
    (shiftRange begin (span.resolvedCachedEnd m.documentLineCount)
      (span.resolvedCurrentEnd lineCount) lineCount range).isSome →
    begin + span.resolvedCachedEnd m.documentLineCount ≤
      range.openerLine + span.resolvedCurrentEnd lineCount

/-- A moved fold by what it is made of. -/
theorem shiftRange_some {begin cachedEnd currentEnd lineCount : Nat} {moved : FoldRange}
    (found : shiftRange begin cachedEnd currentEnd lineCount range = some moved) :
    moved.openerLine = shiftLine begin cachedEnd currentEnd range.openerLine ∧
      moved.closerLine =
        min (shiftLine begin cachedEnd currentEnd range.closerLine) (lineCount - 1) ∧
      shiftLine begin cachedEnd currentEnd range.openerLine <
        shiftLine begin cachedEnd currentEnd range.closerLine ∧
      shiftLine begin cachedEnd currentEnd range.openerLine < lineCount := by
  unfold shiftRange at found
  dsimp only at found
  split_ifs at found with swallowed
  obtain rfl := Option.some.inj found
  exact ⟨rfl, rfl, by omega, by omega⟩

/-- An edit that moves no opener above its begin keeps the openers ordered. -/
theorem shiftCollapsedRanges_folded (describes : span.Describes old new)
    (count : m.documentLineCount = old.length) (folded : Folded old.length m.collapsed)
    (keeps : m.KeepsOpeners span new.length) :
    Folded new.length (m.shiftCollapsedRanges span new.length).collapsed := by
  unfold shiftCollapsedRanges
  split
  next none =>
    rw [describes.same none]
    exact folded
  next begin begun =>
    obtain ⟨cached, current⟩ := describes.within begin begun
    have lengths := describes.lengths (by rw [begun]; exact some_ne_none _)
    have current_le := resolved_le span.currentEnd new.length
    have above := keeps begin begun
    rw [count] at above ⊢
    unfold resolvedCachedEnd resolvedCurrentEnd at *
    generalize resolved span.cachedEnd old.length = cachedEnd at *
    generalize resolved span.currentEnd new.length = currentEnd at *
    constructor
    · refine (pairwise_filterMap.mpr (folded.ordered.imp_of_mem ?_))
      intro a b memA memB rises a' foundA b' foundB
      obtain ⟨openerA, -⟩ := shiftRange_some foundA
      obtain ⟨openerB, -⟩ := shiftRange_some foundB
      have behindA : begin ≤ a.openerLine → begin + cachedEnd ≤ a.openerLine + currentEnd :=
        fun le => above a memA le (by rw [foundA]; rfl)
      have behindB : begin ≤ b.openerLine → begin + cachedEnd ≤ b.openerLine + currentEnd :=
        fun le => above b memB le (by rw [foundB]; rfl)
      rw [openerA, openerB, shiftLine, shiftLine]
      split_ifs
      all_goals omega
    · intro moved mem
      obtain ⟨range, stood, found⟩ := mem_filterMap.mp mem
      obtain ⟨opener, closer, spans, inside⟩ := shiftRange_some found
      have closer_lt := (folded.inside range stood).2
      have shifted_lt : shiftLine begin cachedEnd currentEnd range.closerLine < new.length := by
        rw [shiftLine]
        split_ifs
        all_goals omega
      exact ⟨by omega, by omega⟩

theorem finishRanges_folded {n : Nat} {candidates : List FoldRange}
    (inside : ∀ range ∈ candidates, range.Inside n) : Folded n (finishRanges candidates) := by
  constructor
  · refine pairwise_lt_destutter FoldRange.openerLine
      ((sortBy_pairwise candidateRank candidates).imp fun {a b} le => ?_)
    rcases Prod.Lex.le_iff.mp le with lt | same
    · exact Nat.le_of_lt lt
    · exact Nat.le_of_eq same.1
  · intro range mem
    exact inside range ((mem_sortBy candidateRank).mp ((destutter_sublist _ _).subset mem))

theorem revalidated_openerLine {entry current : FoldRange} (found : m.revalidated entry = some current) :
    current.openerLine = entry.openerLine := by
  unfold revalidated at found
  split at found
  · exact (rangeOfOpener_some _ found).2
  · rw [Option.some.inj found]

theorem revalidateCollapsedInWindow_folded {n : Nat} (folded : Folded n m.collapsed)
    (resolved : Folded n m.ranges) : Folded n m.revalidateCollapsedInWindow.collapsed := by
  unfold revalidateCollapsedInWindow
  split
  · constructor
    · refine pairwise_filterMap.mpr (folded.ordered.imp fun {a b} rises a' foundA b' foundB => ?_)
      rw [revalidated_openerLine foundA, revalidated_openerLine foundB]
      exact rises
    · intro current mem
      obtain ⟨entry, stood, found⟩ := mem_filterMap.mp mem
      unfold revalidated at found
      split at found
      · exact resolved.inside current (rangeOfOpener_some _ found).1
      · exact folded.inside current (Option.some.inj found ▸ stood)
  · exact folded

/-- A refresh but for its last step: the edit moves the collapsed folds and the window yields its
ranges. -/
theorem refresh_eq (m : FoldingModel) (request : RefreshRequest) (parts : m.Partitioned)
    (some_ : request.lines ≠ []) :
    ∃ resolved : FoldingModel, m.refresh request = resolved.revalidateCollapsedInWindow ∧
      resolved.collapsed =
        (m.shiftCollapsedRanges request.span request.lines.length).collapsed ∧
      resolved.documentLineCount = request.lines.length ∧ resolved.Partitioned ∧
      Folded request.lines.length resolved.ranges := by
  have synced := syncCaches_repartitioned parts request
  have last : request.windowLast < request.lines.length := by
    have := length_pos_iff.mpr some_
    unfold RefreshRequest.windowLast
    omega
  obtain ⟨carries, inside⟩ := resolveWindow_inside request.options request.lines
    request.suppressed request.windowFirst request.windowLast
    (budgetOf request.maxLines m.budgetMultiplier) synced.partitioned synced.count last
  unfold refresh
  rw [if_neg some_]
  refine ⟨_, rfl, carries.collapsed.trans synced.collapsed, carries.count.trans synced.count, ?_,
    finishRanges_folded inside⟩
  exact (carries.partitioned synced.partitioned).of_same rfl rfl rfl

/-- A fold outside an edit is moved with its lines. -/
theorem mem_shiftCollapsedRanges (describes : span.Describes old new)
    (count : m.documentLineCount = old.length) (mem : range ∈ m.collapsed)
    (inside : range.Inside old.length)
    (avoids : span.Avoids old.length range.openerLine range.closerLine) :
    range.carried span old.length new.length ∈ (m.shiftCollapsedRanges span new.length).collapsed := by
  obtain ⟨-, below, -⟩ := describes.carried_lines (Nat.le_of_lt inside.1) inside.2 avoids
  obtain ⟨spans, closer_lt⟩ := inside
  unfold shiftCollapsedRanges FoldRange.carried carried at *
  cases begun : span.begin with
  | none =>
    exact mem
  | some begin =>
    obtain ⟨cached, current⟩ := describes.within begin begun
    rw [begun] at below
    refine mem_filterMap.mpr ⟨range, mem, ?_⟩
    rw [count, shiftRange, shiftLine, shiftLine]
    rcases avoids begin begun with above | behind
    · have opener_lt : range.openerLine < begin := by omega
      simp only [if_pos opener_lt, if_pos above] at below ⊢
      rw [if_neg (by omega), Nat.min_eq_left (by omega)]
    · have opener_ge : ¬ range.openerLine < begin := by omega
      have closer_ge : ¬ range.closerLine < begin := by omega
      have moved : ∀ line, span.resolvedCachedEnd old.length ≤ line →
          line + span.resolvedCurrentEnd new.length - span.resolvedCachedEnd old.length =
            span.resolvedCurrentEnd new.length + (line - span.resolvedCachedEnd old.length) :=
        fun line le => by omega
      simp only [if_neg opener_ge, if_neg closer_ge] at below ⊢
      rw [moved _ behind, moved _ (by omega), if_neg (by omega), Nat.min_eq_left (by omega)]

/-- A collapsed fold after a revalidation: it stands, or its opener is in the resolved window and
the list has there what was resolved. -/
theorem revalidateCollapsedInWindow_spec {n : Nat} (folded : Folded n m.collapsed)
    (resolved : Folded n m.ranges) (mem : range ∈ m.collapsed) :
    let after := m.revalidateCollapsedInWindow
    range ∈ after.collapsed ∨
      (after.isResolved = true ∧ after.resolvedFirstLine ≤ range.openerLine ∧
        range.openerLine ≤ after.resolvedLastLine ∧
        rangeOfOpener after.collapsed range.openerLine = after.foldStartingAt range.openerLine) := by
  have after_folded := revalidateCollapsedInWindow_folded folded resolved
  unfold revalidateCollapsedInWindow at after_folded ⊢
  split at after_folded
  next done =>
    rw [if_pos done]
    by_cases here : m.resolvedFirstLine ≤ range.openerLine ∧ range.openerLine ≤ m.resolvedLastLine
    · refine .inr ⟨done, here.1, here.2, ?_⟩
      have now : m.revalidated range = rangeOfOpener m.ranges range.openerLine := if_pos here
      unfold foldStartingAt
      cases found : rangeOfOpener m.ranges range.openerLine with
      | some current =>
        refine rangeOfOpener_eq_some after_folded.ordered ?_ (rangeOfOpener_some _ found).2
        exact mem_filterMap.mpr ⟨range, mem, now.trans found⟩
      | none =>
        by_contra left
        obtain ⟨current, stands⟩ := ne_none_iff_exists'.mp left
        obtain ⟨stood, same⟩ := rangeOfOpener_some _ stands
        obtain ⟨entry, memEntry, kept⟩ := mem_filterMap.mp stood
        -- the entry that left it has the same opener, so it is the fold itself
        have only : entry = range := by
          have opener := (revalidated_openerLine kept).symm.trans same
          have atOpener := rangeOfOpener_eq_some folded.ordered memEntry opener
          rw [rangeOfOpener_eq_some folded.ordered mem rfl] at atOpener
          exact (Option.some.inj atOpener).symm
        rw [only, now, found] at kept
        exact nomatch kept
    · exact .inl (mem_filterMap.mpr ⟨range, mem, if_neg here⟩)
  next open_ =>
    rw [if_neg open_]
    exact .inl mem

end Edits

end FoldingModel

/-! ### Sessions -/

inductive FoldAction where
  | collapse (opener : Nat)
  | collapseRange (range : FoldRange)
  | expand (opener : Nat)
  | toggleFold (opener : Nat)
  | collapseAllResolved
  | expandAll
  | refresh (request : FoldingModel.RefreshRequest)

/-- The model and the lines it was last refreshed with. -/
structure FoldSession where
  model : FoldingModel := {}
  lines : List Line := []

variable {s : FoldSession}

namespace FoldSession

open FoldingModel

def perform (s : FoldSession) : FoldAction → FoldSession
  | .collapse opener => { s with model := s.model.collapse opener }
  | .collapseRange range => { s with model := s.model.collapseRange range }
  | .expand opener => { s with model := s.model.expand opener }
  | .toggleFold opener => { s with model := s.model.toggleFold opener }
  | .collapseAllResolved => { s with model := s.model.collapseAllResolved }
  | .expandAll => { s with model := s.model.expandAll }
  | .refresh request => { model := s.model.refresh request, lines := request.lines }

/-- A refresh is told of the lines that changed, and a range is one of the document. -/
def Possible (s : FoldSession) : FoldAction → Prop
  | .collapseRange range => range.closerLine < s.lines.length
  | .refresh request => request.span.Describes s.lines request.lines
  | _ => True

/-- A run from an empty document. -/
inductive Run (P : FoldSession → FoldAction → Prop) : FoldSession → Prop where
  | start : Run P {}
  | step {s : FoldSession} {action : FoldAction} : Run P s → s.Possible action → P s action →
      Run P (s.perform action)

/-- No edit moves an opener above its begin. -/
def KeepsOpeners (s : FoldSession) : FoldAction → Prop
  | .refresh request => s.model.KeepsOpeners request.span request.lines.length
  | _ => True

/-- What every step keeps. -/
structure Kept (s : FoldSession) : Prop where
  count : s.model.documentLineCount = s.lines.length
  partitioned : s.model.Partitioned
  collapsed : Folded s.lines.length s.model.collapsed
  ranges : Folded s.lines.length s.model.ranges

theorem Kept.empty (indentSource resolved : Bool) :
    Kept { model := { indentSourceEnabled := indentSource, isResolved := resolved } } where
  count := rfl
  partitioned := ⟨rfl, fun _ mem => (nomatch mem), fun _ _ found => nomatch found⟩
  collapsed := .nil 0
  ranges := .nil 0

theorem Kept.of_collapsed (kept : s.Kept) {model : FoldingModel}
    (same : ∃ collapsed, model = { s.model with collapsed := collapsed })
    (folded : Folded s.lines.length model.collapsed) : Kept { s with model := model } := by
  obtain ⟨collapsed, rfl⟩ := same
  exact ⟨kept.count, kept.partitioned.of_same rfl rfl rfl, folded, kept.ranges⟩

theorem kept_refresh (kept : s.Kept) {request : RefreshRequest}
    (describes : request.span.Describes s.lines request.lines)
    (keeps : s.model.KeepsOpeners request.span request.lines.length) :
    Kept { model := s.model.refresh request, lines := request.lines } := by
  by_cases empty : request.lines = []
  · rw [refresh, if_pos empty, empty]
    exact .empty request.options.useIndentSource true
  · obtain ⟨resolved, same, collapsed, count, parts, ranges⟩ :=
      refresh_eq s.model request kept.partitioned empty
    have folded : Folded request.lines.length resolved.collapsed := by
      rw [collapsed]
      exact shiftCollapsedRanges_folded describes kept.count kept.collapsed keeps
    have revalidated := revalidateCollapsedInWindow_folded folded ranges
    rw [same]
    unfold revalidateCollapsedInWindow at revalidated ⊢
    split at revalidated
    next done =>
      rw [if_pos done]
      exact ⟨count, parts.of_same rfl rfl rfl, revalidated, ranges⟩
    next open_ =>
      rw [if_neg open_]
      exact ⟨count, parts, revalidated, ranges⟩

theorem kept_perform (kept : s.Kept) {action : FoldAction} (possible : s.Possible action)
    (keeps : s.KeepsOpeners action) : (s.perform action).Kept := by
  cases action with
  | collapse opener =>
    exact kept.of_collapsed (collapse_same _ _) (collapse_folded kept.collapsed kept.ranges opener)
  | collapseRange range =>
    exact kept.of_collapsed (collapseRange_same _ _) (collapseRange_folded kept.collapsed possible)
  | expand opener =>
    exact kept.of_collapsed (expand_same _ _) (expand_folded kept.collapsed opener)
  | toggleFold opener =>
    refine kept.of_collapsed ?_ (toggleFold_folded kept.collapsed kept.ranges opener)
    unfold toggleFold
    split
    · exact expand_same _ _
    · exact collapse_same _ _
  | collapseAllResolved =>
    refine kept.of_collapsed ?_ (collapseAllResolved_folded kept.collapsed kept.ranges)
    unfold collapseAllResolved
    split
    · exact ⟨s.model.collapsed, rfl⟩
    · exact ⟨_, rfl⟩
  | expandAll => exact kept.of_collapsed ⟨[], rfl⟩ (.nil _)
  | refresh request => exact kept_refresh kept possible keeps

/-- **The run lemma.** -/
theorem Run.kept (run : Run KeepsOpeners s) : s.Kept := by
  induction run with
  | start => exact .empty true false
  | step _ possible keeps ih => exact kept_perform ih possible keeps

/-- A collapsed fold outside an edit names the same text lines after the refresh, or the window
of a complete resolve has its opener and the list has there what was resolved. -/
theorem refresh_follows (kept : s.Kept) {request : RefreshRequest}
    (describes : request.span.Describes s.lines request.lines)
    (keeps : s.model.KeepsOpeners request.span request.lines.length)
    (mem : range ∈ s.model.collapsed)
    (avoids : request.span.Avoids s.lines.length range.openerLine range.closerLine) :
    let moved := range.carried request.span s.lines.length request.lines.length
    let after := s.model.refresh request
    moved.text request.lines = range.text s.lines ∧
      (moved ∈ after.collapsed ∨
        (after.isResolved = true ∧ after.resolvedFirstLine ≤ moved.openerLine ∧
          moved.openerLine ≤ after.resolvedLastLine ∧
          rangeOfOpener after.collapsed moved.openerLine =
            after.foldStartingAt moved.openerLine)) := by
  have inside := kept.collapsed.inside range mem
  obtain ⟨together, below, text⟩ :=
    describes.carried_lines (Nat.le_of_lt inside.1) inside.2 avoids
  constructor
  · have spans := inside.1
    unfold FoldRange.carried FoldRange.text
    dsimp only
    rw [← text]
    congr 1
    omega
  · have some_ : request.lines ≠ [] := ne_nil_of_length_pos (Nat.zero_lt_of_lt below)
    obtain ⟨resolved, same, collapsed, -, -, ranges⟩ :=
      refresh_eq s.model request kept.partitioned some_
    have folded := shiftCollapsedRanges_folded describes kept.count kept.collapsed keeps
    have moved := mem_shiftCollapsedRanges describes kept.count mem inside avoids
    rw [← collapsed] at folded moved
    rw [same]
    exact revalidateCollapsedInWindow_spec folded ranges moved

/-- **The collapsed list over every run whose edits move no opener above their begin.** It is a
strictly sorted list of folds of the document, and a fold outside an edit is followed through it. -/
theorem run_collapsedFolds {s : FoldSession} (run : Run KeepsOpeners s) :
    Folded s.lines.length s.model.collapsed ∧
      ∀ request : RefreshRequest, request.span.Describes s.lines request.lines →
        s.model.KeepsOpeners request.span request.lines.length →
        ∀ range ∈ s.model.collapsed,
          request.span.Avoids s.lines.length range.openerLine range.closerLine →
          let moved := range.carried request.span s.lines.length request.lines.length
          let after := s.model.refresh request
          moved.text request.lines = range.text s.lines ∧
            (moved ∈ after.collapsed ∨
              (after.isResolved = true ∧ after.resolvedFirstLine ≤ moved.openerLine ∧
                moved.openerLine ≤ after.resolvedLastLine ∧
                rangeOfOpener after.collapsed moved.openerLine =
                  after.foldStartingAt moved.openerLine)) :=
  ⟨run.kept.collapsed, fun _ describes keeps _ mem avoids =>
    refresh_follows run.kept describes keeps mem avoids⟩

/-! ### Three sessions -/

/-- A document opened, resolved as far as a first screen reaches. -/
def opened (lines : List Line) (options : ComputeOptions) : FoldAction :=
  .refresh { lines := lines, options := options, firstLine := 0, lastLine := none }

theorem opened_possible (lines : List Line) (options : ComputeOptions) :
    ({} : FoldSession).Possible (opened lines options) :=
  .window (Nat.zero_le _) (Nat.zero_le _) rfl
    (by rw [resolved, resolved, drop_length, drop_length])

/-- Two lines in an indent of the first, and one behind. -/
def indentedLines : List Line := [[0x61], [0x20, 0x62], [0x63]]

def indentedFold : FoldSession :=
  (({} : FoldSession).perform (opened indentedLines { bracketPairs := [] })).perform (.collapse 0)

theorem indentedFold_run : Run (fun _ _ => True) indentedFold :=
  .step (.step .start (opened_possible _ _) trivial) trivial trivial

/-- A line put on top of `indentedFold`. -/
def indentedPushed : RefreshRequest where
  lines := [[0x78], [0x61], [0x20, 0x62], [0x63]]
  options := { bracketPairs := [] }
  firstLine := 0
  lastLine := none
  span := LineEditSpan.noteSplice {} 0 0 1

theorem run_collapsedFolds_pushed :
    indentedFold.model.collapsed = [⟨0, 1, .indent⟩] ∧
      Folded 3 indentedFold.model.collapsed ∧
      FoldRange.text indentedPushed.lines ⟨1, 2, .indent⟩ =
        FoldRange.text indentedLines ⟨0, 1, .indent⟩ := by
  have collapsed : indentedFold.model.collapsed = [⟨0, 1, .indent⟩] := by decide +kernel
  have opens : ({} : FoldSession).KeepsOpeners (opened indentedLines { bracketPairs := [] }) :=
    fun _ _ _ mem => nomatch mem
  obtain ⟨folded, follows⟩ := run_collapsedFolds (s := indentedFold)
    (.step (.step .start (opened_possible _ _) opens) trivial trivial)
  refine ⟨collapsed, folded, ?_⟩
  refine (follows indentedPushed ?_ ?_ ⟨0, 1, .indent⟩ (by rw [collapsed]; exact .head _) ?_).1
  · exact LineEditSpan.noteSplice_describes (.refl indentedLines) [[0x78]] (by decide)
  · intro begin begun range mem _ _
    obtain rfl : 0 = begin := Option.some.inj begun
    have none : indentedPushed.span.resolvedCachedEnd indentedFold.model.documentLineCount = 0 :=
      Nat.zero_min _
    omega
  · intro begin begun
    exact .inr (Nat.le_of_eq (Nat.zero_min _))

/-- The last line of `indentedFold` drawn into the indent. -/
def indentedGrown : RefreshRequest where
  lines := [[0x61], [0x20, 0x62], [0x20, 0x63]]
  options := { bracketPairs := [] }
  firstLine := 0
  lastLine := none
  span := LineEditSpan.noteSplice {} 2 1 1

def nestedLines : List Line :=
  [[0x7b], [0x7b], [0x78], [0x7b], [0x78], [0x78], [0x78], [0x78], [0x7d], [0x7d], [0x7d]]

/-- Brackets nested three deep, the inner two collapsed. -/
def nestedFolds : FoldSession :=
  ((({} : FoldSession).perform (opened nestedLines { bracketPairs := [(0x7b, 0x7d)] })).perform
    (.collapse 1)).perform (.collapse 3)

/-- The lines of the innermost opener deleted with those around it. -/
def nestedCut : RefreshRequest where
  lines := [[0x7b], [0x7b], [0x78], [0x78], [0x78], [0x7d], [0x7d], [0x7d]]
  options := { bracketPairs := [(0x7b, 0x7d)] }
  firstLine := 0
  lastLine := none
  span := LineEditSpan.noteSplice {} 2 3 0

/-- An edit that deletes an opener moves it above another one, and a fold outside an edit is
replaced by the one its opener has now. -/
theorem collapsed_unsorted_and_replaced :
    (∃ s, Run (fun _ _ => True) s ∧
      ¬ s.model.collapsed.Pairwise fun a b => a.openerLine < b.openerLine) ∧
    ∃ s request range, Run (fun _ _ => True) s ∧
      request.span.Describes s.lines request.lines ∧ range ∈ s.model.collapsed ∧
      request.span.Avoids s.lines.length range.openerLine range.closerLine ∧
      ∀ after ∈ (s.model.refresh request).collapsed,
        after.text request.lines ≠ range.text s.lines := by
  constructor
  · refine ⟨nestedFolds.perform (.refresh nestedCut), ?_, by decide +kernel⟩
    refine .step (.step (.step (.step .start (opened_possible _ _) trivial) trivial trivial)
      trivial trivial) ?_ trivial
    exact LineEditSpan.noteSplice_describes (.refl nestedLines) [] (by decide)
  · refine ⟨indentedFold, indentedGrown, ⟨0, 1, .indent⟩, indentedFold_run, ?_,
      by decide +kernel, ?_, by decide +kernel⟩
    · exact LineEditSpan.noteSplice_describes (.refl indentedLines) [[0x20, 0x63]] (by decide)
    · intro begin begun
      obtain rfl : 2 = begin := Option.some.inj begun
      exact .inl (by decide)

end FoldSession

end Microide.Editor
