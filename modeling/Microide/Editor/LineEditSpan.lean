/-
The window of a batch of edits.

A consumer that looks once a frame sees whatever edits landed since it last looked, folded into
one window: the lines before its begin and those behind its two ends are the same in the lines
it knew and in those there are now.

**Main results.** `noteSplice_describes`, `noteSuffixReplaced_describes`: the window of a batch
keeps that promise when another edit is noted; `Describes.carried_lines`: the lines outside it;
`batch_covered`: the window of a whole batch.
-/

import Mathlib.Data.List.Basic
import Mathlib.Order.Basic

namespace Microide.Editor

open List Option

/-- The changed lines, in the lines that were known and in those there are; `none` as an end is
the end of either, and without a begin nothing changed. -/
structure LineEditSpan where
  begin : Option Nat := none
  cachedEnd : Option Nat := some 0
  currentEnd : Option Nat := some 0
  deriving DecidableEq

namespace LineEditSpan

def empty (span : LineEditSpan) : Bool := span.begin.isNone

/-- Lines `start` to `start + removed` gave way to `inserted` ones. -/
def noteSplice (span : LineEditSpan) (start removed inserted : Nat) : LineEditSpan :=
  match span.begin with
  | none => ⟨some start, some (start + removed), some (start + inserted)⟩
  | some begin =>
    match span.currentEnd with
    | none => { span with begin := some (min begin start) }
    | some currentEnd =>
      let spliceEnd := start + removed
      { begin := some (min begin start)
        -- past the window the lines still map one for one onto the known ones
        cachedEnd :=
          if currentEnd < spliceEnd then span.cachedEnd.map (· + (spliceEnd - currentEnd))
          else span.cachedEnd
        currentEnd := some (max currentEnd spliceEnd - removed + inserted) }

/-- Everything from `start` on may differ. -/
def noteSuffixReplaced (span : LineEditSpan) (start : Nat) : LineEditSpan where
  begin := some (match span.begin with | none => start | some begin => min begin start)
  cachedEnd := none
  currentEnd := none

def fullRebuild : LineEditSpan := noteSuffixReplaced {} 0

/-- An end within `count` lines. -/
def resolved (stop : Option Nat) (count : Nat) : Nat :=
  match stop with
  | none => count
  | some stop => min stop count

def resolvedCachedEnd (span : LineEditSpan) (count : Nat) : Nat := resolved span.cachedEnd count

def resolvedCurrentEnd (span : LineEditSpan) (count : Nat) : Nat := resolved span.currentEnd count

theorem resolved_le (stop : Option Nat) (count : Nat) : resolved stop count ≤ count := by
  cases stop with
  | none => exact Nat.le_refl count
  | some stop => exact Nat.min_le_right stop count

/-! ### Windows that tell the truth -/

variable {α : Type} {span : LineEditSpan} {old new : List α}

/-- The window of a change from `old` to `new`. -/
structure Describes (span : LineEditSpan) (old new : List α) : Prop where
  same : span.begin = none → new = old
  within : ∀ begin, span.begin = some begin →
    begin ≤ span.resolvedCachedEnd old.length ∧ begin ≤ span.resolvedCurrentEnd new.length
  before : ∀ begin, span.begin = some begin → new.take begin = old.take begin
  behind : span.begin ≠ none →
    new.drop (span.resolvedCurrentEnd new.length) = old.drop (span.resolvedCachedEnd old.length)

/-- What is behind the window is as many lines on both sides. -/
theorem Describes.lengths (describes : span.Describes old new) (some_ : span.begin ≠ none) :
    old.length - span.resolvedCachedEnd old.length =
      new.length - span.resolvedCurrentEnd new.length := by
  have lengths := congrArg List.length (describes.behind some_)
  rw [length_drop, length_drop] at lengths
  exact lengths.symm

theorem Describes.refl (lines : List α) : Describes {} lines lines :=
  ⟨fun _ => rfl, fun _ some_ => (nomatch some_), fun _ some_ => (nomatch some_),
    fun some_ => absurd rfl some_⟩

/-- A window with a begin. -/
theorem Describes.window {begin : Nat} {cachedEnd currentEnd : Option Nat}
    (cached : begin ≤ resolved cachedEnd old.length)
    (current : begin ≤ resolved currentEnd new.length) (before : new.take begin = old.take begin)
    (behind : new.drop (resolved currentEnd new.length) = old.drop (resolved cachedEnd old.length)) :
    Describes ⟨some begin, cachedEnd, currentEnd⟩ old new := by
  refine ⟨fun none => (nomatch none), fun b begun => ?_, fun b begun => ?_, fun _ => behind⟩
  · obtain rfl : begin = b := Option.some.inj begun
    exact ⟨cached, current⟩
  · obtain rfl : begin = b := Option.some.inj begun
    exact before

/-- Where a line outside the window is now. -/
def carried (span : LineEditSpan) (oldCount newCount line : Nat) : Nat :=
  match span.begin with
  | none => line
  | some begin =>
    if line < begin then line
    else span.resolvedCurrentEnd newCount + (line - span.resolvedCachedEnd oldCount)

/-- Lines `first` to `last` are all before the window or all behind it. -/
def Avoids (span : LineEditSpan) (oldCount first last : Nat) : Prop :=
  ∀ begin, span.begin = some begin → last < begin ∨ span.resolvedCachedEnd oldCount ≤ first

/-- Lines outside the window are carried together, with their text. -/
theorem Describes.carried_lines (describes : span.Describes old new) {first last : Nat}
    (le : first ≤ last) (inside : last < old.length) (avoids : span.Avoids old.length first last) :
    span.carried old.length new.length last =
        span.carried old.length new.length first + (last - first) ∧
      span.carried old.length new.length last < new.length ∧
      (new.drop (span.carried old.length new.length first)).take (last + 1 - first) =
        (old.drop first).take (last + 1 - first) := by
  unfold carried
  cases begun : span.begin with
  | none =>
    rw [describes.same begun]
    dsimp only
    exact ⟨by omega, inside, rfl⟩
  | some begin =>
    obtain ⟨cached, current⟩ := describes.within begin begun
    have current_le : span.resolvedCurrentEnd new.length ≤ new.length := resolved_le _ _
    dsimp only
    rcases avoids begin begun with above | behind
    · rw [if_pos (Nat.lt_of_le_of_lt le above), if_pos above]
      refine ⟨by omega, by omega, ?_⟩
      rw [take_drop, take_drop, show first + (last + 1 - first) = min (last + 1) begin by omega,
        ← take_take, describes.before begin begun, take_take]
    · have some_ : span.begin ≠ none := by rw [begun]; exact some_ne_none _
      have lengths := describes.lengths some_
      rw [if_neg (by omega), if_neg (by omega)]
      refine ⟨by omega, by omega, ?_⟩
      rw [← drop_drop, describes.behind some_, drop_drop, Nat.add_sub_cancel' behind]

theorem drop_resolved (lines : List α) (stop : Nat) :
    lines.drop (resolved (some stop) lines.length) = lines.drop stop := by
  rcases Nat.le_total stop lines.length with inside | outside
  · rw [resolved, Nat.min_eq_left inside]
  · rw [resolved, Nat.min_eq_right outside, drop_length, drop_eq_nil_of_le outside]

/-- The lines a splice leaves. -/
def spliced (lines : List α) (start removed : Nat) (inserted : List α) : List α :=
  lines.take start ++ inserted ++ lines.drop (start + removed)

section Splice

variable {mid : List α} {start removed : Nat} (inserted : List α)

theorem spliced_length (inside : start + removed ≤ mid.length) :
    (spliced mid start removed inserted).length = mid.length - removed + inserted.length := by
  simp only [spliced, length_append, length_take, length_drop]
  omega

theorem spliced_take {n : Nat} (above : n ≤ start) (inside : start ≤ mid.length) :
    (spliced mid start removed inserted).take n = mid.take n := by
  rw [spliced, append_assoc, take_append_of_le_length (by rw [length_take]; omega),
    take_take, Nat.min_eq_left above]

theorem spliced_drop {n : Nat} (behind : start + removed ≤ n) (inside : start + removed ≤ mid.length) :
    (spliced mid start removed inserted).drop (n - removed + inserted.length) = mid.drop n := by
  have length : (mid.take start ++ inserted).length = start + inserted.length := by
    rw [length_append, length_take]
    omega
  rw [spliced, drop_append, drop_eq_nil_of_le (by omega), nil_append, length,
    drop_drop]
  congr 1
  omega

end Splice

/-- Another edit noted. -/
theorem noteSplice_describes {mid : List α} (describes : span.Describes old mid)
    {start removed : Nat} (inserted : List α) (inside : start + removed ≤ mid.length) :
    (span.noteSplice start removed inserted.length).Describes old
      (spliced mid start removed inserted) := by
  have length := spliced_length inserted inside
  unfold noteSplice
  split
  next begun =>
    obtain rfl := describes.same begun
    refine .window (Nat.le_min.mpr ⟨Nat.le_add_right _ _, by omega⟩)
      (Nat.le_min.mpr ⟨Nat.le_add_right _ _, by omega⟩) (spliced_take inserted (Nat.le_refl _) (by omega)) ?_
    rw [drop_resolved, drop_resolved]
    have moved := spliced_drop inserted (Nat.le_refl (start + removed)) inside
    rwa [Nat.add_sub_cancel] at moved
  next begin begun =>
    obtain ⟨cached, current⟩ := describes.within begin begun
    have behind := describes.behind (by rw [begun]; exact some_ne_none _)
    have take : (spliced mid start removed inserted).take (min begin start) =
        old.take (min begin start) := by
      rw [spliced_take inserted (Nat.min_le_right _ _) (by omega), Nat.min_comm, ← take_take,
        describes.before begin begun, take_take]
    unfold resolvedCachedEnd at cached behind
    unfold resolvedCurrentEnd at current behind
    cases current_eq : span.currentEnd with
    | none =>
      rw [current_eq] at behind current
      refine .window (Nat.le_trans (Nat.min_le_left _ _) cached)
        (Nat.le_trans (Nat.min_le_right _ _) (by rw [resolved]; omega)) take ?_
      rw [← behind, resolved, drop_length, resolved, drop_length]
    | some currentEnd =>
      rw [current_eq] at behind current
      have reach : min begin start ≤
          resolved (some (max currentEnd (start + removed) - removed + inserted.length))
            (spliced mid start removed inserted).length :=
        Nat.le_min.mpr ⟨by omega, by omega⟩
      cases cached_eq : span.cachedEnd with
      | none =>
        rw [cached_eq, resolved, drop_length, drop_resolved, drop_eq_nil_iff] at behind
        rw [cached_eq, resolved] at cached
        have cachedEnd : (if currentEnd < start + removed then
            (none : Option Nat).map (· + (start + removed - currentEnd)) else none) = none := by
          split <;> rfl
        dsimp only
        rw [cachedEnd]
        refine .window (by rw [resolved]; omega) reach take ?_
        rw [drop_resolved, resolved, drop_length, drop_eq_nil_iff]
        omega
      | some cachedEnd =>
        rw [cached_eq, drop_resolved, drop_resolved] at behind
        rw [cached_eq, resolved] at cached
        have moved : ∀ k, mid.drop (currentEnd + k) = old.drop (cachedEnd + k) := fun k => by
          rw [← drop_drop, behind, drop_drop]
        have cachedEnd : (if currentEnd < start + removed then
            (some cachedEnd).map (· + (start + removed - currentEnd)) else some cachedEnd) =
            some (cachedEnd + (start + removed - currentEnd)) := by
          split
          · rfl
          · rw [Nat.sub_eq_zero_of_le (by omega)]
            rfl
        dsimp only
        rw [cachedEnd]
        refine .window (by rw [resolved]; omega) reach take ?_
        rw [drop_resolved, drop_resolved, spliced_drop inserted (Nat.le_max_right _ _) inside, ← moved]
        congr 1
        omega

/-- An edit of unknown extent noted. -/
theorem noteSuffixReplaced_describes {mid : List α} (describes : span.Describes old mid)
    {start : Nat} (inside : start ≤ mid.length) (same : new.take start = mid.take start) :
    (span.noteSuffixReplaced start).Describes old new := by
  have reaches : start ≤ new.length := by
    have length := congrArg List.length same
    rw [length_take, length_take] at length
    omega
  have behind : new.drop (resolved none new.length) = old.drop (resolved none old.length) := by
    rw [resolved, resolved, drop_length, drop_length]
  unfold noteSuffixReplaced
  cases begun : span.begin with
  | none =>
    obtain rfl := describes.same begun
    exact .window inside reaches same behind
  | some begin =>
    obtain ⟨cached, -⟩ := describes.within begin begun
    have old_le := resolved_le span.cachedEnd old.length
    unfold resolvedCachedEnd at cached
    dsimp only
    refine .window (by rw [resolved]; omega) (by rw [resolved]; omega) ?_ behind
    rw [← take_take, same, take_take, Nat.min_comm, ← take_take,
      describes.before begin begun, take_take]

/-! ### Batches -/

/-- An edit as it is noted, with the lines it brings. -/
inductive NotedEdit (α : Type) where
  | splice (start removed : Nat) (inserted : List α)
  | suffixReplaced (start : Nat) (tail : List α)

namespace NotedEdit

def apply (lines : List α) : NotedEdit α → List α
  | splice start removed inserted => spliced lines start removed inserted
  | suffixReplaced start tail => lines.take start ++ tail

def note (span : LineEditSpan) : NotedEdit α → LineEditSpan
  | splice start removed inserted => span.noteSplice start removed inserted.length
  | suffixReplaced start _ => span.noteSuffixReplaced start

/-- The lines an edit replaces are lines of the document it is made in. -/
def Inside (lines : List α) : NotedEdit α → Prop
  | splice start removed _ => start + removed ≤ lines.length
  | suffixReplaced start _ => start ≤ lines.length

instance decidableInside (lines : List α) : ∀ edit : NotedEdit α, Decidable (edit.Inside lines)
  | splice .. => Nat.decLe _ _
  | suffixReplaced .. => Nat.decLe _ _

end NotedEdit

/-- Each edit is in the coordinates the edits before it leave. -/
def BatchInside : List α → List (NotedEdit α) → Prop
  | _, [] => True
  | lines, edit :: rest => edit.Inside lines ∧ BatchInside (edit.apply lines) rest

theorem note_describes {mid : List α} (describes : span.Describes old mid) {edit : NotedEdit α}
    (inside : edit.Inside mid) : (edit.note span).Describes old (edit.apply mid) := by
  cases edit with
  | splice start removed inserted => exact noteSplice_describes describes inserted inside
  | suffixReplaced start tail =>
    refine noteSuffixReplaced_describes describes inside ?_
    have reaches : (mid.take start).length = start := length_take_of_le inside
    rw [NotedEdit.apply, take_append_of_le_length (Nat.le_of_eq reaches.symm), take_take, Nat.min_self]

theorem batch_describes (batch : List (NotedEdit α)) :
    ∀ {span : LineEditSpan} {mid : List α}, span.Describes old mid → BatchInside mid batch →
      (batch.foldl NotedEdit.note span).Describes old (batch.foldl NotedEdit.apply mid) := by
  induction batch with
  | nil => exact fun describes _ => describes
  | cons edit rest ih =>
    rintro span mid describes ⟨inside, more⟩
    exact ih (note_describes describes inside) more

/-- The window of a batch covers every change: the lines before it are the same, and so are
those behind it, moved by what the batch added to the line count. -/
theorem batch_covered (lines : List α) (batch : List (NotedEdit α))
    (inside : BatchInside lines batch) :
    let span := batch.foldl NotedEdit.note {}
    let now := batch.foldl NotedEdit.apply lines
    (span.begin = none → now = lines) ∧
    ∀ begin, span.begin = some begin →
      begin ≤ span.resolvedCachedEnd lines.length ∧ begin ≤ span.resolvedCurrentEnd now.length ∧
      now.take begin = lines.take begin ∧
      (now.length : Int) - lines.length =
        span.resolvedCurrentEnd now.length - span.resolvedCachedEnd lines.length ∧
      ∀ line, span.resolvedCachedEnd lines.length ≤ line → line < lines.length →
        now[line + now.length - lines.length]? = lines[line]? := by
  intro span now
  have describes : span.Describes lines now := batch_describes batch (Describes.refl lines) inside
  refine ⟨describes.same, fun begin begun => ?_⟩
  obtain ⟨cached, current⟩ := describes.within begin begun
  have some_ : span.begin ≠ none := by rw [begun]; exact some_ne_none _
  have cached_le : span.resolvedCachedEnd lines.length ≤ lines.length := resolved_le _ _
  have current_le : span.resolvedCurrentEnd now.length ≤ now.length := resolved_le _ _
  have lengths := describes.lengths some_
  refine ⟨cached, current, describes.before begin begun, by omega, fun line behind below => ?_⟩
  have same := congrArg (·[line - span.resolvedCachedEnd lines.length]?) (describes.behind some_)
  rw [getElem?_drop, getElem?_drop, Nat.add_sub_cancel' behind] at same
  rw [← same]
  congr 1
  omega

theorem batch_covered_overlapping :
    ([.splice 2 1 ['x', 'y'], .splice 3 1 [], .splice 1 2 ['z']] : List (NotedEdit Char)).foldl
        NotedEdit.note {} = ⟨some 1, some 3, some 2⟩ ∧
      (([.splice 2 1 ['x', 'y'], .splice 3 1 [], .splice 1 2 ['z']] : List (NotedEdit Char)).foldl
        NotedEdit.apply ['a', 'b', 'c', 'd'])[2]? = some 'd' :=
  ⟨by decide, ((batch_covered ['a', 'b', 'c', 'd']
    [.splice 2 1 ['x', 'y'], .splice 3 1 [], .splice 1 2 ['z']]
    ⟨by decide, by decide, by decide, trivial⟩).2 1 (by decide)).2.2.2.2 3 (by decide) (by decide)⟩

end LineEditSpan

end Microide.Editor
