/-
Grouped edits.

A group keeps its children as disjoint ranges in the coordinates of the buffer as it is
now, each with the lines it stands for in the document before the group. A child either
replaces lines within one range, or lines that no range covers; then it becomes a range of
its own, and ranges that touch are joined.

`FitsFrame` says which children are taken in as they should be.

* `FrameHolds.take`: a fitting child keeps the ranges right.
* `group_inverts`: the entry of a group of fitting children takes the document before the
  group to the document after it, and back.
-/

import Microide.Editor.UndoEntries

namespace Microide.Editor

open List Lib Text Entry

namespace Entry

/-- A range of lines in the buffer as it is now. -/
def range (entry : Entry) : Patch Line := ⟨entry.startLine, entry.beforeLines, entry.afterLines⟩

/-- One range of lines and nothing else. -/
structure Plain (entry : Entry) : Prop where
  line : entry.isInline = false
  single : entry.extraParts = []
  endingBefore : entry.lineEndingBefore = none
  endingAfter : entry.lineEndingAfter = none

/-- Where a range ends. -/
def stop (entry : Entry) : Nat := entry.startLine + entry.afterLines.length

/-- The content bytes both images hold. -/
def bytes (entry : Entry) : Nat := contentBytes entry.beforeLines + contentBytes entry.afterLines

end Entry

/-- One replaced range is all that a plain entry describes. -/
theorem Entry.Plain.describes {entry : Entry} (h : entry.Plain) {pre post : Document}
    (hpre : BufferLines pre.lines) (hpost : BufferLines post.lines)
    (hending : pre.lineEnding = post.lineEnding)
    (hlines : Replaces entry.startLine entry.beforeLines entry.afterLines pre.lines post.lines) :
    entry.Describes pre post where
  before := hpre
  after := hpost
  spliced := fun hinline => absurd (hinline.symm.trans h.line) (by decide)
  replaced := by
    intro _
    rw [parts, h.single]
    exact Replaces.splits_iff.mpr hlines
  ending := by
    rw [lineEndings, h.endingAfter]
    split
    · exact hending
    · exact hending

/-! ### Joining ranges that touch -/

/-- Two touching ranges for which the cheap direction of the merge gives the same as the other:
it does not when the low one holds no line any more and the high one, which is bigger, holds
none either or begins with the lines the low one stands for. -/
def JoinsInOrder (low high : Entry) : Prop :=
  low.afterLines = [] → low.beforeLines ≠ [] → low.bytes < high.bytes →
    high.afterLines ≠ [] ∧ ¬ low.beforeLines <+: high.afterLines

instance (low high : Entry) : Decidable (JoinsInOrder low high) :=
  inferInstanceAs (Decidable (_ → _))

section Joining

variable {low high entry : Entry}

theorem plain_mergeGroupEntry (hlow : low.Plain) (high : Entry) :
    (mergeGroupEntry low high).Plain := by
  obtain ⟨hline, hextra, hbefore, hafter⟩ := mergeGroupEntry_frame low high
  exact ⟨hline.trans hlow.line, hextra.trans hlow.single, hbefore.trans hlow.endingBefore,
    hafter.trans hlow.endingAfter⟩

theorem canMergeGroupEntry_touching (hlow : low.Plain) (hhigh : high.Plain)
    (htouch : high.startLine = low.stop) : canMergeGroupEntry low high = true := by
  simp only [canMergeGroupEntry, isMultiRange, hlow.line, hhigh.line, hlow.single,
    hhigh.single]
  rw [if_neg (by decide), if_neg (by decide), if_pos (.inr htouch)]

/-- Merging the high range into the low one. -/
theorem mergeGroupEntry_low (htouch : high.startLine = low.stop) :
    (mergeGroupEntry low high).range = low.range.join high.range := by
  rw [stop] at htouch
  rw [mergeGroupEntry]
  split
  next hbelow =>
    -- The high range starts where the low one does: nothing lies between, and neither the
    -- low content nor the high original has a line.
    have hafter : low.afterLines = [] := eq_nil_of_length_eq_zero (by omega)
    have hbefore : high.beforeLines = [] := eq_nil_of_length_eq_zero (by omega)
    have hstart : high.startLine = low.startLine := by
      rw [htouch, hafter, length_nil, Nat.add_zero]
    simp only [Entry.range, Patch.join, hafter, hbefore, hstart, nil_append, append_nil]
  · rfl

/-- Merging the low range into the high one, where that is not out of order. -/
theorem mergeGroupEntry_high (htouch : high.startLine = low.stop) (hbigger : low.bytes < high.bytes)
    (horder : JoinsInOrder low high) (hcan : canMergeGroupEntry high low = true) :
    (mergeGroupEntry high low).range = low.range.join high.range := by
  rw [mergeGroupEntry]
  split
  · rfl
  rename_i hbelow
  simp only [stop] at htouch
  exfalso
  rw [canMergeGroupEntry] at hcan
  split at hcan
  · cases hcan
  split at hcan
  · cases hcan
  split at hcan
  · -- The low range starts where the high one ends: both hold no line.
    have hlow : low.afterLines = [] := eq_nil_of_length_eq_zero (by omega)
    have hhigh : high.afterLines = [] := eq_nil_of_length_eq_zero (by omega)
    have hbefore : low.beforeLines ≠ [] := by
      rintro hnil
      rw [hlow] at htouch
      rw [hnil] at hbelow
      exact hbelow htouch.symm
    exact (horder hlow hbefore hbigger).1 hhigh
  split at hcan
  · cases hcan
  · -- The low range's lines are looked up in the high range's content.
    have hlow : low.afterLines = [] := eq_nil_of_length_eq_zero (by omega)
    have hstart : low.startLine - high.startLine = 0 := by omega
    rw [hstart, rangeEquals_iff, drop_zero] at hcan
    have hbefore : low.beforeLines ≠ [] := by
      rintro hnil
      rw [hlow] at htouch
      rw [hnil] at hbelow
      exact hbelow htouch.symm
    refine (horder hlow hbefore hbigger).2 ?_
    rw [← hcan.2]
    exact take_prefix _ _

theorem joinAdjacent_spec (hlow : low.Plain) (hhigh : high.Plain)
    (htouch : high.startLine = low.stop) (horder : JoinsInOrder low high) :
    (joinAdjacent low high).Plain ∧ (joinAdjacent low high).range = low.range.join high.range := by
  rw [joinAdjacent]
  split
  next hcan =>
    rw [Bool.and_eq_true, decide_eq_true_eq] at hcan
    have hplain := plain_mergeGroupEntry hhigh low
    exact ⟨⟨hplain.line, hplain.single, hplain.endingBefore, hplain.endingAfter⟩,
      mergeGroupEntry_high htouch hcan.1 horder hcan.2⟩
  · exact ⟨plain_mergeGroupEntry hlow high, mergeGroupEntry_low htouch⟩

end Joining

/-! ### The ranges of a frame -/

/-- The ranges are plain, no two touch, and they are all in which the document before the group
differs from the buffer. -/
structure FrameHolds (entries : List Entry) (pre post : List Line) : Prop where
  plain : ∀ entry ∈ entries, entry.Plain
  apart : Apart (entries.map Entry.range)
  installs : Installs 0 (entries.map Entry.range) pre post

theorem apart_iff {entries : List Entry} : Apart (entries.map Entry.range) ↔
    entries.Pairwise (fun low high => low.stop < high.startLine) := pairwise_map

theorem coalesceAdjacentDisjoint_cons_cons (low high : Entry) (rest : List Entry) :
    coalesceAdjacentDisjoint (low :: high :: rest) =
      if high.startLine = low.stop ∧ canMergeGroupEntry low high then
        coalesceAdjacentDisjoint (joinAdjacent low high :: rest)
      else low :: coalesceAdjacentDisjoint (high :: rest) := rfl

theorem coalesceAdjacentDisjoint_cons {low high : Entry} {rest : List Entry}
    (hgap : high.startLine ≠ low.stop) : coalesceAdjacentDisjoint (low :: high :: rest) =
      low :: coalesceAdjacentDisjoint (high :: rest) := by
  rw [coalesceAdjacentDisjoint_cons_cons, if_neg]
  exact fun h => hgap h.1

/-- Ranges that do not touch stay as they are. -/
theorem coalesceAdjacentDisjoint_apart {lows highs : List Entry}
    (h : (lows ++ highs.take 1).Pairwise (fun low high => low.stop < high.startLine)) :
    coalesceAdjacentDisjoint (lows ++ highs) = lows ++ coalesceAdjacentDisjoint highs := by
  induction lows with
  | nil => rfl
  | cons low lows ih =>
      rw [cons_append, pairwise_cons] at h
      have hrest := ih h.2
      cases lows with
      | nil =>
          cases highs with
          | nil => rfl
          | cons high highs =>
              have hlow := h.1 high (by simp)
              exact coalesceAdjacentDisjoint_cons (by omega)
      | cons next lows =>
          have hlow := h.1 next (by simp)
          rw [cons_append, cons_append, coalesceAdjacentDisjoint_cons (by omega),
            ← cons_append, hrest]
          rfl

theorem coalesceAdjacentDisjoint_stays {entries : List Entry}
    (h : entries.Pairwise (fun low high => low.stop < high.startLine)) :
    coalesceAdjacentDisjoint entries = entries := by
  have hall : coalesceAdjacentDisjoint (entries ++ []) = entries ++ coalesceAdjacentDisjoint [] :=
    coalesceAdjacentDisjoint_apart (by simpa using h)
  simpa [coalesceAdjacentDisjoint] using hall

/-- What joining does to a range and the ranges above it. -/
structure Joined (entry : Entry) (highs result : List Entry) : Prop where
  plain : ∀ entry ∈ result, entry.Plain
  apart : result.Pairwise (fun low high => low.stop < high.startLine)
  above : ∀ other ∈ result, entry.startLine ≤ other.startLine
  installs : ∀ q pre post, Installs q ((entry :: highs).map Entry.range) pre post →
    Installs q (result.map Entry.range) pre post

/-- A range joins the range above it, if they touch. -/
theorem coalesceAdjacentDisjoint_joined {entry : Entry} {highs : List Entry} (hentry : entry.Plain)
    (hplain : ∀ high ∈ highs, high.Plain)
    (hapart : highs.Pairwise (fun low high => low.stop < high.startLine))
    (habove : ∀ high ∈ highs, entry.stop ≤ high.startLine)
    (horder : ∀ high ∈ highs, high.startLine = entry.stop → JoinsInOrder entry high) :
    Joined entry highs (coalesceAdjacentDisjoint (entry :: highs)) := by
  cases highs with
  | nil =>
      refine ⟨?_, pairwise_singleton _ _, ?_, fun _ _ _ h => h⟩
      · intro other hother
        rw [mem_singleton.mp hother]
        exact hentry
      · intro other hother
        rw [mem_singleton.mp hother]
  | cons high highs =>
      have hhigh := hplain high (mem_cons_self ..)
      have hrest := pairwise_cons.mp hapart
      by_cases htouch : high.startLine = entry.stop
      · obtain ⟨hjoin, hrange⟩ := joinAdjacent_spec hentry hhigh htouch
          (horder high (mem_cons_self ..) htouch)
        have hstart : (joinAdjacent entry high).startLine = entry.startLine :=
          congrArg Patch.start hrange
        have hstop : (joinAdjacent entry high).stop = high.stop := by
          have hafter := congrArg Patch.after hrange
          simp only [Entry.range, Patch.join] at hafter
          simp only [stop, hafter, length_append] at htouch ⊢
          omega
        have hgap : (joinAdjacent entry high :: highs).Pairwise
            (fun low high => low.stop < high.startLine) := by
          rw [pairwise_cons, hstop]
          exact hrest
        rw [coalesceAdjacentDisjoint_cons_cons,
          if_pos ⟨htouch, canMergeGroupEntry_touching hentry hhigh htouch⟩,
          coalesceAdjacentDisjoint_stays hgap]
        refine ⟨?_, hgap, ?_, ?_⟩
        · rw [forall_mem_cons]
          exact ⟨hjoin, fun other hother => hplain other (mem_cons_of_mem _ hother)⟩
        · rw [forall_mem_cons, hstart]
          refine ⟨Nat.le_refl _, fun other hother => ?_⟩
          have := habove other (mem_cons_of_mem _ hother)
          rw [stop] at this
          omega
        · intro q pre post h
          rw [map_cons, hrange]
          exact h.join htouch
      · have hgap : (entry :: high :: highs).Pairwise
            (fun low high => low.stop < high.startLine) := by
          rw [pairwise_cons]
          refine ⟨fun other hother => ?_, hapart⟩
          have hhighStart := habove high (mem_cons_self ..)
          rcases mem_cons.mp hother with rfl | hother
          · omega
          · have := hrest.1 other hother
            rw [stop] at this
            omega
        rw [coalesceAdjacentDisjoint_stays hgap]
        refine ⟨?_, hgap, ?_, fun _ _ _ h => h⟩
        · rw [forall_mem_cons]
          exact ⟨hentry, hplain⟩
        · rw [forall_mem_cons]
          refine ⟨Nat.le_refl _, fun other hother => ?_⟩
          have := habove other hother
          rw [stop] at this
          omega

section Placing

variable {entry child : Entry} {lows highs entries : List Entry} {pre mid post : List Line}

/-- A range that touches none below. -/
theorem holds_above (hlows : ∀ low ∈ lows, low.Plain) (hentry : entry.Plain)
    (hhighs : ∀ high ∈ highs, high.Plain)
    (hlowsApart : lows.Pairwise (fun low high => low.stop < high.startLine))
    (hhighsApart : highs.Pairwise (fun low high => low.stop < high.startLine))
    (hbelow : ∀ low ∈ lows, low.stop < entry.startLine)
    (habove : ∀ high ∈ highs, entry.stop ≤ high.startLine)
    (horder : ∀ high ∈ highs, high.startLine = entry.stop → JoinsInOrder entry high)
    (h : Installs 0 ((lows ++ entry :: highs).map Entry.range) pre post) :
    FrameHolds (coalesceAdjacentDisjoint (lows ++ entry :: highs)) pre post := by
  have hjoined := coalesceAdjacentDisjoint_joined hentry hhighs hhighsApart habove horder
  rw [coalesceAdjacentDisjoint_apart]
  · constructor
    · intro other hother
      rcases mem_append.mp hother with hother | hother
      · exact hlows other hother
      · exact hjoined.plain other hother
    · rw [apart_iff, pairwise_append]
      refine ⟨hlowsApart, hjoined.apart, fun low hlow other hother => ?_⟩
      exact Nat.lt_of_lt_of_le (hbelow low hlow) (hjoined.above other hother)
    · rw [map_append] at h ⊢
      exact h.above hjoined.installs
  · rw [take_succ_cons, take_zero, pairwise_append]
    refine ⟨hlowsApart, pairwise_singleton _ _, fun low hlow other hother => ?_⟩
    rw [mem_singleton.mp hother]
    exact hbelow low hlow

/-- **A new range among the others, joined with those it touches.** -/
theorem holds_insert (hlows : ∀ low ∈ lows, low.Plain) (hchild : child.Plain)
    (hhighs : ∀ high ∈ highs, high.Plain)
    (hlowsApart : lows.Pairwise (fun low high => low.stop < high.startLine))
    (hhighsApart : highs.Pairwise (fun low high => low.stop < high.startLine))
    (hbelow : ∀ low ∈ lows, low.startLine < child.startLine ∧ low.stop ≤ child.startLine)
    (habove : ∀ high ∈ highs, child.stop ≤ high.startLine)
    (horder : (∀ low ∈ lows, low.stop ≠ child.startLine) →
      ∀ high ∈ highs, high.startLine = child.stop → JoinsInOrder child high)
    (h : Installs 0 ((lows ++ child :: highs).map Entry.range) pre post) :
    FrameHolds (coalesceAdjacentDisjoint (lows ++ child :: highs)) pre post := by
  by_cases hfree : ∀ low ∈ lows, low.stop ≠ child.startLine
  · refine holds_above hlows hchild hhighs hlowsApart hhighsApart (fun low hlow => ?_) habove
      (horder hfree) h
    exact Nat.lt_of_le_of_ne (hbelow low hlow).2 (hfree low hlow)
  · -- The touching range is the last one below.
    rcases eq_nil_or_concat lows with rfl | ⟨lows', last, hconcat⟩
    · exact absurd (fun low hlow => absurd hlow not_mem_nil) hfree
    rw [concat_eq_append] at hconcat
    subst hconcat
    obtain ⟨hlowsApart', -, hlast⟩ := pairwise_append.mp hlowsApart
    simp only [mem_singleton, forall_eq] at hlast
    have hlastMem : last ∈ lows' ++ [last] := by simp
    have hlastBelow := hbelow last hlastMem
    have htouch : child.startLine = last.stop := by
      push Not at hfree
      obtain ⟨low, hlow, hstop⟩ := hfree
      rcases mem_append.mp hlow with hlow | hlow
      · have := hlast low hlow
        omega
      · rw [← mem_singleton.mp hlow, hstop]
    have hcontent : last.afterLines ≠ [] := by
      intro hnil
      rw [stop, hnil, length_nil] at htouch
      omega
    obtain ⟨hjoin, hrange⟩ := joinAdjacent_spec (hlows last hlastMem) hchild htouch
      (fun hnil => absurd hnil hcontent)
    have hstart : (joinAdjacent last child).startLine = last.startLine :=
      congrArg Patch.start hrange
    have hafter : (joinAdjacent last child).afterLines = last.afterLines ++ child.afterLines :=
      congrArg Patch.after hrange
    have hstop : (joinAdjacent last child).stop = child.stop := by
      simp only [stop, hafter, length_append] at htouch ⊢
      omega
    have hskip : (lows' ++ (last :: child :: highs).take 1).Pairwise
        (fun low high => low.stop < high.startLine) := hlowsApart
    have hskip' : (lows' ++ (joinAdjacent last child :: highs).take 1).Pairwise
        (fun low high => low.stop < high.startLine) := by
      rw [take_succ_cons, take_zero, pairwise_append]
      refine ⟨hlowsApart', pairwise_singleton _ _, fun low hlow other hother => ?_⟩
      rw [mem_singleton.mp hother, hstart]
      exact hlast low hlow
    rw [append_assoc, singleton_append] at h ⊢
    rw [coalesceAdjacentDisjoint_apart hskip, coalesceAdjacentDisjoint_cons_cons,
      if_pos ⟨htouch, canMergeGroupEntry_touching (hlows last hlastMem) hchild htouch⟩,
      ← coalesceAdjacentDisjoint_apart hskip']
    refine holds_above (fun low hlow => hlows low (mem_append_left _ hlow)) hjoin hhighs
      hlowsApart' hhighsApart (hstart ▸ hlast) (hstop ▸ habove) ?_ ?_
    · intro high _ _ hnil
      rw [hafter, append_eq_nil_iff] at hnil
      exact absurd hnil.1 hcontent
    · rw [map_append] at h ⊢
      refine h.above fun q pre post htail => ?_
      rw [map_cons, hrange]
      exact htail.join htouch

/-! ### Taking in a child -/

/-- The child replaces lines of the range only. -/
def Within (child entry : Entry) : Prop :=
  entry.startLine ≤ child.startLine ∧
    child.startLine + child.beforeLines.length ≤ entry.stop

instance (child entry : Entry) : Decidable (Within child entry) :=
  inferInstanceAs (Decidable (_ ∧ _))

/-- The child replaces no line of the range, and the range does not stand empty where the child
begins. -/
def ClearOf (child entry : Entry) : Prop :=
  (entry.startLine < child.startLine ∧ entry.stop ≤ child.startLine) ∨
    child.startLine + child.beforeLines.length ≤ entry.startLine

instance (child entry : Entry) : Decidable (ClearOf child entry) :=
  inferInstanceAs (Decidable (_ ∨ _))

/-- **The children that a frame takes in as they are.** -/
structure FitsFrame (entries : List Entry) (child : Entry) : Prop where
  plain : child.Plain
  placed : (∃ entry ∈ entries, Within child entry) ∨ ∀ entry ∈ entries, ClearOf child entry
  order : (∀ entry ∈ entries, entry.stop ≠ child.startLine) → ∀ entry ∈ entries,
    entry.startLine = child.startLine + child.beforeLines.length → JoinsInOrder child entry

theorem shiftBy_below (h : entry.startLine < child.startLine) : shiftBy child entry = entry := by
  rw [shiftBy, if_neg (by omega)]

theorem shiftBy_above (h : child.startLine + child.beforeLines.length ≤ entry.startLine) :
    shiftBy child entry = { entry with
      startLine := entry.startLine + child.afterLines.length - child.beforeLines.length } := by
  rw [shiftBy, if_pos h]

theorem map_shiftBy_below (h : ∀ low ∈ lows, low.startLine < child.startLine) :
    lows.map (shiftBy child) = lows := by
  rw [map_congr_left (fun low hlow => shiftBy_below (h low hlow)), map_id']

theorem range_shiftBy_above
    (h : ∀ high ∈ highs, child.startLine + child.beforeLines.length ≤ high.startLine) :
    (highs.map (shiftBy child)).map Entry.range =
      (highs.map Entry.range).map (Patch.move child.afterLines.length child.beforeLines.length) := by
  rw [map_map, map_map]
  refine map_congr_left fun high hhigh => ?_
  rw [Function.comp_apply, Function.comp_apply, shiftBy_above (h high hhigh)]
  rfl

theorem plain_shiftBy (h : entry.Plain) (child : Entry) : (shiftBy child entry).Plain := by
  rw [shiftBy]
  split
  · exact ⟨h.line, h.single, h.endingBefore, h.endingAfter⟩
  · exact h

/-- Ranges above the child keep their distances. -/
theorem apart_shiftBy (hhighs : highs.Pairwise (fun low high => low.stop < high.startLine))
    (h : ∀ high ∈ highs, child.startLine + child.beforeLines.length ≤ high.startLine) :
    (highs.map (shiftBy child)).Pairwise (fun low high => low.stop < high.startLine) := by
  rw [pairwise_map]
  refine hhighs.imp_of_mem fun {low high} hlow hhigh hgap => ?_
  have hlowStart := h low hlow
  have hhighStart := h high hhigh
  rw [shiftBy_above hlowStart, shiftBy_above hhighStart]
  simp only [stop] at hgap ⊢
  omega

/-- The ranges around one of them. -/
theorem FrameHolds.around (h : FrameHolds (lows ++ entry :: highs) pre post) :
    (∀ low ∈ lows, low.stop < entry.startLine) ∧ ∀ high ∈ highs, entry.stop < high.startLine := by
  obtain ⟨-, hentry, hcross⟩ := pairwise_append.mp (apart_iff.mp h.apart)
  exact ⟨fun low hlow => hcross low hlow entry (mem_cons_self ..), (pairwise_cons.mp hentry).1⟩

theorem range_mergeGroupEntry_within (hlow : entry.startLine ≤ child.startLine)
    (hhigh : child.startLine + child.beforeLines.length ≤ entry.stop) :
    (mergeGroupEntry entry child).range = { entry.range with
      after := splice entry.afterLines (child.startLine - entry.startLine)
        child.beforeLines.length child.afterLines } := by
  rw [stop] at hhigh
  rw [mergeGroupEntry]
  dsimp only
  split
  next hbelow =>
    have hbefore : child.beforeLines = [] := eq_nil_of_length_eq_zero (by omega)
    rw [hbefore, length_nil, Nat.add_zero] at hbelow
    simp [Entry.range, splice, hbefore, hbelow]
  split
  next habove =>
    have hbefore : child.beforeLines = [] := eq_nil_of_length_eq_zero (by omega)
    simp [Entry.range, splice, hbefore, habove]
  · rw [Entry.range, replaceRange, splice]
    rw [Nat.min_eq_left (by omega), Nat.max_eq_left (Nat.le_add_right ..),
      Nat.min_eq_left (by omega)]
    rfl

theorem canMergeGroupEntry_within (hentry : entry.Plain) (hchild : child.Plain)
    (hlow : entry.startLine ≤ child.startLine)
    (hhigh : child.startLine + child.beforeLines.length ≤ entry.stop)
    (hlines : (entry.afterLines.drop (child.startLine - entry.startLine)).take
      child.beforeLines.length = child.beforeLines) : canMergeGroupEntry entry child = true := by
  rw [stop] at hhigh
  simp only [canMergeGroupEntry, isMultiRange, hentry.line, hchild.line, hentry.single,
    hchild.single]
  rw [if_neg (by decide), if_neg (by decide)]
  split
  · rfl
  · rw [if_neg (by omega), rangeEquals_iff]
    exact ⟨by omega, hlines⟩

theorem containerOf_around (hlows : ∀ low ∈ lows, low.stop < entry.startLine)
    (hwithin : Within child entry) :
    containerOf (lows ++ entry :: highs) child = some lows.length := by
  have hnone : lows.findIdx? (fun entry => decide (entry.startLine ≤ child.startLine ∧
      child.startLine + child.beforeLines.length ≤
        entry.startLine + entry.afterLines.length)) = none := by
    rw [findIdx?_eq_none_iff]
    intro low hlow
    have hstop := hlows low hlow
    have hstart := hwithin.1
    rw [stop] at hstop
    rw [decide_eq_false_iff_not]
    omega
  have hhere : decide (entry.startLine ≤ child.startLine ∧
      child.startLine + child.beforeLines.length ≤
        entry.startLine + entry.afterLines.length) = true := decide_eq_true hwithin
  rw [containerOf, findIdx?_append, hnone, findIdx?_cons, if_pos hhere]
  simp

/-- **A child within a range changes what the range holds.** The range itself must not be moved:
a child that inserts lines at the very start of it is a range of its own first. -/
theorem FrameHolds.within (h : FrameHolds entries pre mid) (hchild : child.Plain)
    (hreplaces : Replaces child.startLine child.beforeLines child.afterLines mid post)
    (hentry : entry ∈ entries) (hwithin : Within child entry)
    (hstays : shiftBy child entry = entry) :
    FrameHolds (mergeChildIntoDisjoint entries child) pre post := by
  obtain ⟨lows, highs, rfl⟩ := append_of_mem hentry
  obtain ⟨hlows, hhighs⟩ := h.around
  obtain ⟨hlowsApart, hrest, -⟩ := pairwise_append.mp (apart_iff.mp h.apart)
  have hhighsApart := (pairwise_cons.mp hrest).2
  have hlow := hwithin.1
  have hhigh := hwithin.2
  have hbelow : ∀ low ∈ lows, low.startLine < child.startLine := by
    intro low hlow
    have := hlows low hlow
    rw [stop] at this
    omega
  have habove : ∀ high ∈ highs, child.startLine + child.beforeLines.length ≤ high.startLine := by
    intro high hhigh
    have := hhighs high hhigh
    omega
  have hinstalls := h.installs
  rw [map_append, map_cons] at hinstalls
  -- What the child replaces is what the range holds there.
  obtain ⟨hlines, hinside⟩ := hinstalls.inside hreplaces (by
    rw [forall_mem_map]
    exact fun low hlow => Nat.le_of_lt (hlows low hlow)) hlow hhigh
  have hcan := canMergeGroupEntry_within (h.plain entry hentry) hchild hlow hhigh hlines
  have hrange := range_mergeGroupEntry_within hlow hhigh
  have hstart : (mergeGroupEntry entry child).startLine = entry.startLine :=
    congrArg Patch.start hrange
  have hafter : (mergeGroupEntry entry child).afterLines = splice entry.afterLines
      (child.startLine - entry.startLine) child.beforeLines.length child.afterLines :=
    congrArg Patch.after hrange
  have hresult : mergeChildIntoDisjoint (lows ++ entry :: highs) child =
      coalesceAdjacentDisjoint (lows ++ mergeGroupEntry entry child :: highs.map (shiftBy child)) := by
    rw [mergeChildIntoDisjoint, containerOf_around hlows hwithin, map_append, map_cons,
      map_shiftBy_below hbelow, hstays]
    have hget : (lows ++ entry :: highs.map (shiftBy child)).getD lows.length {} = entry := by
      simp
    dsimp only
    rw [hget, if_pos hcan, set_append_right _ _ (Nat.le_refl _), Nat.sub_self, set_cons_zero]
  have hlength : (mergeGroupEntry entry child).afterLines.length + child.beforeLines.length =
      entry.afterLines.length + child.afterLines.length := by
    rw [hafter, splice]
    simp only [stop, length_append, length_take, length_drop] at hhigh ⊢
    omega
  have hapart : (lows ++ mergeGroupEntry entry child :: highs.map (shiftBy child)).Pairwise
      (fun low high => low.stop < high.startLine) := by
    rw [pairwise_append, pairwise_cons]
    refine ⟨hlowsApart, ⟨?_, apart_shiftBy hhighsApart habove⟩, ?_⟩
    · rw [forall_mem_map]
      intro high hhigh
      have hgap := hhighs high hhigh
      rw [shiftBy_above (habove high hhigh)]
      simp only [stop] at hgap ⊢
      omega
    · intro low hlow other hother
      rcases mem_cons.mp hother with rfl | hother
      · rw [hstart]
        exact hlows low hlow
      · obtain ⟨high, hhigh, rfl⟩ := mem_map.mp hother
        have hlowStop := hlows low hlow
        rw [shiftBy_above (habove high hhigh)]
        have := habove high hhigh
        simp only at *
        omega
  rw [hresult, coalesceAdjacentDisjoint_stays hapart]
  refine ⟨?_, apart_iff.mpr hapart, ?_⟩
  · intro other hother
    rcases mem_append.mp hother with hother | hother
    · exact h.plain other (mem_append_left _ hother)
    rcases mem_cons.mp hother with rfl | hother
    · exact plain_mergeGroupEntry (h.plain entry hentry) child
    · obtain ⟨high, hhigh, rfl⟩ := mem_map.mp hother
      exact plain_shiftBy (h.plain high (by simp [hhigh])) child
  · rw [map_append, map_cons, range_shiftBy_above habove, hrange]
    exact hinside

/-- The ranges that begin below the child, and the others. -/
theorem FrameHolds.cutAt (h : FrameHolds entries pre mid)
    (hclear : ∀ entry ∈ entries, ClearOf child entry) : ∃ lows highs, entries = lows ++ highs ∧
      (∀ low ∈ lows, low.startLine < child.startLine ∧ low.stop ≤ child.startLine) ∧
      ∀ high ∈ highs, child.startLine + child.beforeLines.length ≤ high.startLine := by
  refine ⟨entries.takeWhile (fun entry => entry.startLine < child.startLine),
    entries.dropWhile (fun entry => entry.startLine < child.startLine),
    (takeWhile_append_dropWhile ..).symm, ?_, ?_⟩
  · intro low hlow
    have hstart := mem_takeWhile_imp hlow
    rw [decide_eq_true_eq] at hstart
    rcases hclear low ((takeWhile_sublist _).mem hlow) with hbelow | habove
    · exact hbelow
    · omega
  · intro high hhigh
    have hstart : child.startLine ≤ high.startLine := by
      have hsorted := (apart_iff.mp h.apart).sublist
        (dropWhile_sublist (fun entry => decide (entry.startLine < child.startLine)))
      cases hdrop : entries.dropWhile (fun entry => decide (entry.startLine < child.startLine)) with
      | nil =>
          rw [hdrop] at hhigh
          exact absurd hhigh not_mem_nil
      | cons first rest =>
          have hfirst : ¬ first.startLine < child.startLine := by
            have := head?_dropWhile_not
              (fun entry : Entry => decide (entry.startLine < child.startLine)) entries
            rw [hdrop] at this
            simpa using this
          rw [hdrop] at hhigh hsorted
          rcases mem_cons.mp hhigh with rfl | hhigh
          · omega
          · have := (pairwise_cons.mp hsorted).1 high hhigh
            rw [stop] at this
            omega
    rcases hclear high ((dropWhile_sublist _).mem hhigh) with hbelow | habove
    · omega
    · exact habove

theorem insertSortedDisjoint_between
    (hlows : ∀ low ∈ lows, low.startLine < child.startLine ∧ low.stop ≤ child.startLine)
    (hhighs : ∀ high ∈ highs, child.startLine + child.beforeLines.length ≤ high.startLine) :
    insertSortedDisjoint (lows ++ highs.map (shiftBy child)) child =
      lows ++ child :: highs.map (shiftBy child) := by
  have hbelow : ∀ low ∈ lows, decide (low.startLine < child.startLine) = true :=
    fun low hlow => decide_eq_true (hlows low hlow).1
  have habove : ∀ high ∈ highs.map (shiftBy child),
      ¬ decide (high.startLine < child.startLine) = true := by
    rw [forall_mem_map]
    intro high hhigh
    have := hhighs high hhigh
    rw [shiftBy_above this, decide_eq_true_eq]
    dsimp only
    omega
  rw [insertSortedDisjoint, takeWhile_append_of_pos hbelow, dropWhile_append_of_pos hbelow]
  cases hmoved : highs.map (shiftBy child) with
  | nil => simp
  | cons high rest =>
      rw [hmoved] at habove
      have hfirst := habove high (mem_cons_self ..)
      rw [takeWhile_cons, dropWhile_cons, if_neg hfirst, if_neg hfirst, append_nil]

theorem within_of_containerOf {i : Nat} (h : containerOf entries child = some i) :
    ∃ hindex : i < entries.length, Within child entries[i] := by
  obtain ⟨hindex, hwithin, -⟩ := findIdx?_eq_some_iff_getElem.mp h
  exact ⟨hindex, of_decide_eq_true hwithin⟩

/-- Lines inserted at the very start of a range move it away from themselves. -/
theorem not_canMerge_moved (hwithin : Within child entry) (hmoved : shiftBy child entry ≠ entry) :
    canMergeGroupEntry (shiftBy child entry) child = false := by
  have hlow := hwithin.1
  by_cases habove : child.startLine + child.beforeLines.length ≤ entry.startLine
  · have hcount : child.afterLines.length ≠ 0 := by
      intro hzero
      refine hmoved ?_
      rw [shiftBy_above habove, hzero, show child.beforeLines.length = 0 by omega]
      rfl
    rw [shiftBy_above habove, canMergeGroupEntry]
    dsimp only
    rw [if_neg (show ¬ (_ ∨ _) by omega), if_pos (show (_ ∨ _) by omega)]
    split
    · rfl
    split
    · rfl
    · rfl
  · exact absurd (by rw [shiftBy, if_neg habove]) hmoved

/-- **A child that meets no range is one of its own.** -/
theorem FrameHolds.clear (h : FrameHolds entries pre mid) (hchild : child.Plain)
    (hreplaces : Replaces child.startLine child.beforeLines child.afterLines mid post)
    (hclear : ∀ entry ∈ entries, ClearOf child entry)
    (horder : (∀ entry ∈ entries, entry.stop ≠ child.startLine) → ∀ entry ∈ entries,
      entry.startLine = child.startLine + child.beforeLines.length → JoinsInOrder child entry)
    (hapart : ∀ entry ∈ entries, Within child entry → shiftBy child entry ≠ entry) :
    FrameHolds (mergeChildIntoDisjoint entries child) pre post := by
  obtain ⟨lows, highs, rfl, hlows, hhighs⟩ := h.cutAt hclear
  obtain ⟨hlowsApart, hhighsApart, -⟩ := pairwise_append.mp (apart_iff.mp h.apart)
  have hresult : mergeChildIntoDisjoint (lows ++ highs) child =
      coalesceAdjacentDisjoint (lows ++ child :: highs.map (shiftBy child)) := by
    rw [mergeChildIntoDisjoint, map_append, map_shiftBy_below (fun low hlow => (hlows low hlow).1)]
    have hinsert := insertSortedDisjoint_between hlows hhighs
    cases hcontainer : containerOf (lows ++ highs) child with
    | none => simp only [hinsert]
    | some i =>
        obtain ⟨hindex, hwithin⟩ := within_of_containerOf hcontainer
        have hmoved := hapart _ (getElem_mem hindex) hwithin
        have hget : (lows ++ highs.map (shiftBy child)).getD i {} =
            shiftBy child (lows ++ highs)[i] := by
          have hmap : lows ++ highs.map (shiftBy child) = (lows ++ highs).map (shiftBy child) := by
            rw [map_append, map_shiftBy_below (fun low hlow => (hlows low hlow).1)]
          rw [hmap, getD_eq_getElem?_getD, getElem?_map, getElem?_eq_getElem hindex]
          rfl
        dsimp only
        rw [hget, not_canMerge_moved hwithin hmoved, if_neg (by decide), hinsert]
  rw [hresult]
  refine holds_insert (fun low hlow => h.plain low (mem_append_left _ hlow)) hchild ?_
    hlowsApart (apart_shiftBy hhighsApart hhighs) hlows ?_ ?_ ?_
  · rw [forall_mem_map]
    exact fun high hhigh => plain_shiftBy (h.plain high (mem_append_right _ hhigh)) child
  · rw [forall_mem_map]
    intro high hhigh
    have := hhighs high hhigh
    rw [shiftBy_above this, stop]
    dsimp only
    omega
  · rw [forall_mem_map]
    intro hfree high hhigh htouch hafter hbefore
    have hlength : 0 < child.beforeLines.length := length_pos_iff.mpr hbefore
    have hstart := hhighs high hhigh
    rw [shiftBy_above hstart] at htouch ⊢
    refine horder ?_ high (mem_append_right _ hhigh) ?_ hafter hbefore
    · intro entry hentry
      rcases mem_append.mp hentry with hentry | hentry
      · exact hfree entry hentry
      · have := hhighs entry hentry
        rw [stop]
        omega
    · rw [stop, hafter] at htouch
      dsimp only [length_nil] at htouch
      omega
  · rw [map_append, map_cons, range_shiftBy_above hhighs]
    have hinstalls := h.installs
    rw [map_append] at hinstalls
    refine hinstalls.insert hreplaces ?_ ?_
    · rw [forall_mem_map]
      exact fun low hlow => (hlows low hlow).2
    · rw [forall_mem_map]
      exact hhighs

/-- **A fitting child keeps the ranges right.** -/
theorem FrameHolds.take (h : FrameHolds entries pre mid) (hfits : FitsFrame entries child)
    (hreplaces : Replaces child.startLine child.beforeLines child.afterLines mid post) :
    FrameHolds (mergeChildIntoDisjoint entries child) pre post := by
  by_cases hin : ∃ entry ∈ entries, Within child entry ∧ shiftBy child entry = entry
  · obtain ⟨entry, hentry, hwithin, hstays⟩ := hin
    exact h.within hfits.plain hreplaces hentry hwithin hstays
  · have hmoved : ∀ entry ∈ entries, Within child entry → shiftBy child entry ≠ entry :=
      fun entry hentry hwithin hstays => hin ⟨entry, hentry, hwithin, hstays⟩
    refine h.clear hfits.plain hreplaces ?_ hfits.order hmoved
    rcases hfits.placed with ⟨entry, hentry, hwithin⟩ | hclear
    · -- The child inserts lines where the range starts.
      have hshift : child.startLine + child.beforeLines.length ≤ entry.startLine := by
        by_contra hnot
        exact hmoved entry hentry hwithin (by rw [shiftBy, if_neg hnot])
      have hlow := hwithin.1
      obtain ⟨lows, highs, rfl⟩ := append_of_mem hentry
      obtain ⟨hlows, hhighs⟩ := h.around
      intro other hother
      rcases mem_append.mp hother with hother | hother
      · have := hlows other hother
        rw [stop] at this
        exact .inl ⟨by omega, by rw [stop]; omega⟩
      rcases mem_cons.mp hother with rfl | hother
      · exact .inr hshift
      · have := hhighs other hother
        rw [stop] at this
        exact .inr (by omega)
    · exact hclear

end Placing

/-! ### Finishing a group -/

namespace UndoHistory

variable {pre post : List Line}

/-- The entry of a frame has the frame's ranges. -/
theorem splits_aggregateOf {primary : Entry} {rest : List Entry}
    (h : FrameHolds (primary :: rest) pre post) :
    Splits 0 0 (aggregateOf primary rest).parts pre post := by
  obtain ⟨gap, pre', post', hpre, hpost, hstart, hrest⟩ := h.installs
  refine ⟨gap, pre', post', hpre, hpost, hstart, hstart, Installs.splits hrest ?_⟩
  simp only [aggregateOf, Entry.range, Patch.stop]
  omega

/-- **What a finished group leaves.** Either it changed nothing, or its entry describes the step
from the document before the group to the one after it. -/
theorem finishFrame_describes (frame : UndoGroupFrame) {pre post : Document}
    (hframe : FrameHolds frame.disjointEntries pre.lines post.lines)
    (hending : pre.lineEnding = post.lineEnding) (hpre : BufferLines pre.lines)
    (hpost : BufferLines post.lines) (afterState : ViewState) :
    match finishFrame frame afterState with
    | none => pre = post
    | some entry => entry.Describes pre post ∧ entry.beforeState = frame.state ∧
        entry.isInline = false := by
  rw [finishFrame]
  cases hentries : frame.disjointEntries with
  | nil =>
      rw [hentries] at hframe
      exact Document.ext hframe.installs hending
  | cons primary rest =>
      rw [hentries] at hframe
      have hprimary := hframe.plain primary (mem_cons_self ..)
      have hsplits := splits_aggregateOf hframe
      dsimp only
      split_ifs with hempty
      · simp only [Bool.and_eq_true, List.isEmpty_iff] at hempty
        obtain ⟨⟨hbefore, hafter⟩, hextra⟩ := hempty
        rw [parts, hextra, hbefore, hafter, Replaces.splits_iff] at hsplits
        obtain ⟨front, back, hpreLines, hpostLines, -⟩ := hsplits
        exact Document.ext (hpreLines.trans hpostLines.symm) hending
      · refine ⟨⟨hpre, hpost, ?_, fun _ => hsplits, ?_⟩, rfl, hprimary.line⟩
        · exact fun hinline => absurd (hinline.symm.trans hprimary.line) (by decide)
        · rw [lineEndings]
          have hbefore : (aggregateOf primary rest).lineEndingBefore = none := hprimary.endingBefore
          have hafter : (aggregateOf primary rest).lineEndingAfter = none := hprimary.endingAfter
          rw [hbefore, hafter]
          split
          · exact hending
          · exact hending

end UndoHistory

/-- **An inline entry widened to its line still describes the edit.** -/
theorem replaces_widenInlineEntryToLines {entry : Entry} {pre post : Document}
    (h : entry.Describes pre post) (hinline : entry.isInline = true) :
    Replaces (widenInlineEntryToLines post.lines entry).startLine
      (widenInlineEntryToLines post.lines entry).beforeLines
      (widenInlineEntryToLines post.lines entry).afterLines pre.lines post.lines := by
  obtain ⟨-, line, line', hline, hbytes⟩ := h.spliced hinline
  have hnonempty : post.lines.isEmpty = false := isEmpty_eq_false_iff.mpr h.after.nonempty
  have hbound := hline.swap.start_add_le
  have hcolumn := hbytes.swap.start_add_le
  rw [length_singleton] at hbound
  have hmin : min entry.startLine (post.lines.length - 1) = entry.startLine := by omega
  have hget : post.lines.getD entry.startLine [] = line' := by
    obtain ⟨front, rest, -, hpost, hfront⟩ := hline
    rw [hpost, ← hfront]
    simp
  have hback : splice line' entry.startColumn entry.insertedText.length entry.removedText = line :=
    hbytes.swap.splice_eq
  rw [widenInlineEntryToLines, hinline, hnonempty, if_neg (by decide)]
  dsimp only
  rw [hmin, hget, Nat.min_eq_left (by omega), Nat.min_eq_left (by omega), hback]
  exact hline

/-! ### A whole group -/

/-- Edits one after the other, each with an entry that says what it replaced and installed. -/
def ChildEdits : Document → List Entry → Document → Prop
  | pre, [], post => pre = post
  | pre, child :: children, post => ∃ mid, child.Describes pre mid ∧ child.isInline = false ∧
      ChildEdits mid children post

/-- Every child fits the ranges the children before it have left. -/
def FitRun : List Entry → List Entry → Prop
  | _, [] => True
  | entries, child :: children =>
    FitsFrame entries child ∧ FitRun (mergeChildIntoDisjoint entries child) children

/-- What `FinishActiveGroup` returns for a group of children. -/
def groupEntry (history : UndoHistory) (beforeState : ViewState)
    (children : List (Entry × CoalesceHint)) (afterState : ViewState) : Option Entry :=
  ((children.foldl (fun history child => history.recordEntry child.1 child.2)
    (history.beginGroup beforeState)).finishActiveGroup afterState).1

/-- The entry leads from `pre` to `post` and back; none is left only where nothing changed. -/
def Inverts (entry : Option Entry) (pre post : List Line) : Prop :=
  match entry with
  | none => pre = post
  | some entry => applyEntryToBuffer post entry false = pre ∧
      applyEntryToBuffer pre entry true = post

instance (entry : Option Entry) (pre post : List Line) : Decidable (Inverts entry pre post) := by
  unfold Inverts
  cases entry <;> infer_instance

/-- Children recorded into the innermost of the open groups. -/
theorem groupStack_foldl_recordEntry (children : List (Entry × CoalesceHint))
    (history : UndoHistory) {state : ViewState} {entries : List Entry} {outer : List UndoGroupFrame}
    (hstack : history.groupStack = ⟨state, entries⟩ :: outer) :
    ∃ outer', (children.foldl (fun history child => history.recordEntry child.1 child.2)
        history).groupStack =
      ⟨state, (children.map Prod.fst).foldl mergeChildIntoDisjoint entries⟩ :: outer' := by
  induction children generalizing history entries outer with
  | nil => exact ⟨outer, hstack⟩
  | cons child children ih =>
      have hrecorded : (history.recordEntry child.1 child.2).groupStack =
          ⟨state, mergeChildIntoDisjoint entries child.1⟩ :: outer.map fun frame =>
            { frame with disjointEntries := mergeChildIntoDisjoint frame.disjointEntries child.1 } := by
        rw [UndoHistory.recordEntry, hstack]
        rfl
      exact ih (history.recordEntry child.1 child.2) hrecorded

/-- The run lemma: fitting children keep the ranges right. -/
theorem frameHolds_run {pre mid post : Document} (children : List Entry) {entries : List Entry}
    (hchildren : ChildEdits mid children post) (hfit : FitRun entries children)
    (h : FrameHolds entries pre.lines mid.lines) (hending : pre.lineEnding = mid.lineEnding)
    (hmid : BufferLines mid.lines) :
    FrameHolds (children.foldl mergeChildIntoDisjoint entries) pre.lines post.lines ∧
      pre.lineEnding = post.lineEnding ∧ BufferLines post.lines := by
  induction children generalizing mid entries with
  | nil =>
      obtain rfl : mid = post := hchildren
      exact ⟨h, hending, hmid⟩
  | cons child children ih =>
      obtain ⟨next, hdescribes, hline, hrest⟩ := hchildren
      obtain ⟨hfits, hfitRest⟩ := hfit
      have hquiet : child.lineEndings = none := by
        rw [lineEndings, hfits.plain.endingAfter]
        split <;> rfl
      have hsame : mid.lineEnding = next.lineEnding := by
        have := hdescribes.ending
        rwa [hquiet] at this
      exact ih hrest hfitRest (h.take hfits (hdescribes.replaces hline hfits.plain.single))
        (hending.trans hsame) hdescribes.after

theorem frameHolds_nil {lines : List Line} : FrameHolds [] lines lines :=
  ⟨fun _ h => absurd h not_mem_nil, List.Pairwise.nil, rfl⟩

/-- **A group of fitting children is undone and redone as one edit.** -/
theorem group_inverts (history : UndoHistory) (beforeState afterState : ViewState)
    (children : List (Entry × CoalesceHint)) (pre post : Document) (hpre : BufferLines pre.lines)
    (hchildren : ChildEdits pre (children.map Prod.fst) post)
    (hfit : FitRun [] (children.map Prod.fst)) :
    Inverts (groupEntry history beforeState children afterState) pre.lines post.lines := by
  obtain ⟨hframe, hending, hpost⟩ :=
    frameHolds_run (children.map Prod.fst) hchildren hfit frameHolds_nil rfl hpre
  obtain ⟨outer', hstack⟩ := groupStack_foldl_recordEntry children
    (history.beginGroup beforeState) rfl
  have hentry := UndoHistory.finishFrame_describes ⟨beforeState, _⟩ hframe hending hpre hpost
    afterState
  rw [groupEntry, UndoHistory.finishActiveGroup, hstack]
  dsimp only
  split at hentry
  next hnone =>
    rw [hnone]
    exact congrArg Document.lines hentry
  next entry hsome =>
    rw [hsome]
    refine ⟨?_, hentry.1.applyEntryToBuffer_eq⟩
    rw [applyEntryToBuffer_false]
    exact hentry.1.inverse.applyEntryToBuffer_eq

/-- Two lines changed far apart. -/
theorem group_inverts_apart :
    Inverts (groupEntry {} {}
      [({ startLine := 1, beforeLines := [[98]], afterLines := [[66]] }, {}),
        ({ startLine := 3, beforeLines := [[100]], afterLines := [[68], [69]] }, {})] {})
      [[97], [98], [99], [100]] [[97], [66], [99], [68], [69]] := by
  refine group_inverts {} {} {} _ ⟨[[97], [98], [99], [100]], .lf⟩
    ⟨[[97], [66], [99], [68], [69]], .lf⟩ ⟨by decide, by decide⟩ ?_ ?_
  · exact ⟨⟨[[97], [66], [99], [100]], .lf⟩,
      Entry.Plain.describes ⟨rfl, rfl, rfl, rfl⟩ ⟨by decide, by decide⟩ ⟨by decide, by decide⟩ rfl
        ⟨[[97]], [[99], [100]], rfl, rfl, rfl⟩, rfl,
      ⟨[[97], [66], [99], [68], [69]], .lf⟩,
      Entry.Plain.describes ⟨rfl, rfl, rfl, rfl⟩ ⟨by decide, by decide⟩ ⟨by decide, by decide⟩ rfl
        ⟨[[97], [66], [99]], [], rfl, rfl, rfl⟩, rfl, rfl⟩
  · exact ⟨⟨⟨rfl, rfl, rfl, rfl⟩, by decide, by decide⟩,
      ⟨⟨rfl, rfl, rfl, rfl⟩, by decide, by decide⟩, trivial⟩

/-- Delete Line over the first and the last of three lines. The last line goes first, with the
break before it, so the middle line is in its images; the first line goes with the break after
it, and the middle line is in those images, too. -/
theorem deleteLine_not_inverted :
    ChildEdits ⟨[[97], [98], [99]], .lf⟩
      [{ startLine := 1, beforeLines := [[98], [99]], afterLines := [[98]] },
        { startLine := 0, beforeLines := [[97], [98]], afterLines := [[98]] }] ⟨[[98]], .lf⟩ ∧
    ¬ Inverts (groupEntry {} {}
      [({ startLine := 1, beforeLines := [[98], [99]], afterLines := [[98]] }, {}),
        ({ startLine := 0, beforeLines := [[97], [98]], afterLines := [[98]] }, {})] {})
      [[97], [98], [99]] [[98]] := by
  constructor
  · exact ⟨⟨[[97], [98]], .lf⟩,
      Entry.Plain.describes ⟨rfl, rfl, rfl, rfl⟩ ⟨by decide, by decide⟩ ⟨by decide, by decide⟩ rfl
        ⟨[[97]], [], rfl, rfl, rfl⟩, rfl,
      ⟨[[98]], .lf⟩,
      Entry.Plain.describes ⟨rfl, rfl, rfl, rfl⟩ ⟨by decide, by decide⟩ ⟨by decide, by decide⟩ rfl
        ⟨[], [], rfl, rfl, rfl⟩, rfl, rfl⟩
  · decide +kernel

end Microide.Editor
