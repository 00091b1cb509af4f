/-
Which lines the collapsed folds hide.

A collapsed fold hides the lines behind its opener through its closer. The queries find the last
fold whose body has started by binary search and read the furthest closer of it and of all folds
before it, so they jump past whole regions; where the folds overlap, that closer is another fold's.

**Main results.** `isLineHidden_iff`; `firstVisibleFrom_spec`, `lastVisibleLineAtOrBefore_spec`: the
jumps end at the nearest line that is not hidden; `visibleLineQueries`: all three together.
-/

import Microide.Editor.FoldingModel

namespace Microide.Editor

open List Option Lib


variable {found : FoldRange × Nat}

namespace FoldingModel

/-! ### The queries -/

/-- The loop of `EnsureCollapsedIndex`, after folds whose furthest closer is `running`. -/
def hiPrefixMax (running : Nat) : List FoldRange → List Nat
  | [] => []
  | entry :: rest =>
    let running := max running entry.closerLine
    running :: hiPrefixMax running rest

/-- The last entry whose body starts at or before `line`, with its `collapsed_hi_prefix_max_`. -/
def lastStarted (collapsed : List FoldRange) (line : Nat) : Option (FoldRange × Nat) :=
  match partitionPoint (fun entry => !(line < entry.openerLine + 1)) collapsed with
  | 0 => none
  | index + 1 => (collapsed.zip (hiPrefixMax 0 collapsed))[index]?

/-- In any list, what the search finds has started. -/
theorem openerLine_lt_of_lastStarted {collapsed : List FoldRange} {line : Nat}
    (started : lastStarted collapsed line = some found) : found.1.openerLine < line := by
  rw [lastStarted] at started
  split at started
  · exact absurd started (some_ne_none _).symm
  next index cut =>
    obtain ⟨entry, here, passes⟩ := passing_of_partitionPoint cut
    obtain ⟨same, -⟩ := getElem?_zip_eq_some.mp started
    obtain rfl := Option.some.inj (here.symm.trans same)
    simpa using passes

def isLineHidden (m : FoldingModel) (line : Nat) : Bool :=
  match lastStarted m.collapsed line with
  | none => false
  | some found => line ≤ found.2

/-- The loop of `FirstVisibleLineAtOrAfter`. -/
def firstVisibleFrom (collapsed : List FoldRange) (lineCount line : Nat) : Nat :=
  if line < lineCount then
    match lastStarted collapsed line with
    | none => line
    | some found =>
      if found.2 < line then line else firstVisibleFrom collapsed lineCount (found.2 + 1)
  else lineCount
termination_by lineCount - line

def firstVisibleLineAtOrAfter (m : FoldingModel) (line lineCount : Nat) : Nat :=
  if m.collapsed = [] then line else firstVisibleFrom m.collapsed lineCount line

/-- The loop of `LastVisibleLineAtOrBefore`. -/
def lastVisibleFrom (collapsed : List FoldRange) (line : Nat) : Nat :=
  match _started : lastStarted collapsed line with
  | none => line
  | some found =>
    if found.2 < line then line
    else if found.1.openerLine = 0 then 0
    else lastVisibleFrom collapsed found.1.openerLine
termination_by line
decreasing_by exact openerLine_lt_of_lastStarted _started

def lastVisibleLineAtOrBefore (m : FoldingModel) (line : Nat) : Nat :=
  if m.collapsed = [] then line else lastVisibleFrom m.collapsed line

/-! ### What they answer -/

/-- Some fold hides the line. -/
def Hidden (collapsed : List FoldRange) (line : Nat) : Prop :=
  ∃ entry ∈ collapsed, entry.openerLine < line ∧ line ≤ entry.closerLine

/-- The least line from `line` on that is not hidden, or the count where there is none. -/
def FirstVisible (collapsed : List FoldRange) (line lineCount result : Nat) : Prop :=
  IsLeast {at_ | line ≤ at_ ∧ at_ < lineCount ∧ ¬Hidden collapsed at_} result ∨
    result = lineCount ∧ ∀ at_, line ≤ at_ → at_ < lineCount → Hidden collapsed at_

section Queries

variable {collapsed : List FoldRange} {line : Nat}

theorem length_hiPrefixMax (running : Nat) (collapsed : List FoldRange) :
    (hiPrefixMax running collapsed).length = collapsed.length := by
  induction collapsed generalizing running with
  | nil => rfl
  | cons entry collapsed ih => rw [hiPrefixMax, length_cons, ih, length_cons]

theorem hiPrefixMax_append (running : Nat) (before rest : List FoldRange) :
    hiPrefixMax running (before ++ rest) = hiPrefixMax running before ++
      hiPrefixMax (before.foldl (fun most entry => max most entry.closerLine) running) rest := by
  induction before generalizing running with
  | nil => rfl
  | cons entry before ih =>
    rw [cons_append, hiPrefixMax, hiPrefixMax, ih, foldl_cons, cons_append]

/-- The running maximum is at or above every closer before it, and is one of them. -/
theorem furthest_spec (running : Nat) (before : List FoldRange) :
    let furthest := before.foldl (fun most entry => max most entry.closerLine) running
    running ≤ furthest ∧ (∀ entry ∈ before, entry.closerLine ≤ furthest) ∧
      (furthest = running ∨ ∃ entry ∈ before, entry.closerLine = furthest) := by
  induction before generalizing running with
  | nil => exact ⟨Nat.le_refl _, fun _ mem => absurd mem not_mem_nil, .inl rfl⟩
  | cons entry before ih =>
    obtain ⟨low, all, attained⟩ := ih (max running entry.closerLine)
    rw [foldl_cons]
    refine ⟨Nat.le_trans (Nat.le_max_left _ _) low,
      forall_mem_cons.mpr ⟨Nat.le_trans (Nat.le_max_right _ _) low, all⟩, ?_⟩
    rcases attained with same | ⟨other, mem, same⟩
    · rcases Nat.le_total running entry.closerLine with more | less
      · exact .inr ⟨entry, mem_cons_self, by rw [same, Nat.max_eq_right more]⟩
      · exact .inl (by rw [same, Nat.max_eq_left less])
    · exact .inr ⟨other, mem_cons_of_mem _ mem, same⟩

section

variable (sorted : collapsed.Pairwise fun a b => a.openerLine ≤ b.openerLine)

include sorted

/-- What the search finds in a sorted list: the last fold whose body has started, and the furthest
closer of all that have. -/
theorem lastStarted_spec : match lastStarted collapsed line with
    | none => ∀ entry ∈ collapsed, line ≤ entry.openerLine
    | some (last, furthest) =>
      (∀ entry ∈ collapsed, entry.openerLine < line →
        entry.openerLine ≤ last.openerLine ∧ entry.closerLine ≤ furthest) ∧
      ∃ entry ∈ collapsed, entry.openerLine < line ∧ entry.closerLine = furthest := by
  have cuts : collapsed.Pairwise fun a b =>
      (!(line < b.openerLine + 1 : Bool)) → (!(line < a.openerLine + 1 : Bool)) := by
    refine sorted.imp fun {a b} le below => ?_
    rw [Bool.not_eq_true', decide_eq_false_iff_not] at below ⊢
    omega
  obtain ⟨before, rest, cut, found, passing, failing⟩ := exists_cut cuts
  have started : ∀ entry ∈ before, entry.openerLine < line := fun entry mem => by
    simpa using passing entry mem
  have later : ∀ entry ∈ rest, line ≤ entry.openerLine := fun entry mem => by
    have := failing entry mem
    simp only [Bool.not_eq_false', decide_eq_true_eq] at this
    omega
  rw [lastStarted, found]
  rcases eq_nil_or_concat' before with rfl | ⟨front, last, rfl⟩
  · exact cut ▸ later
  · have index : (front ++ [last]).length = front.length + 1 := by
      rw [length_append, length_singleton]
    have here : (collapsed.zip (hiPrefixMax 0 collapsed))[front.length]? = some (last,
        (front ++ [last]).foldl (fun most entry => max most entry.closerLine) 0) := by
      rw [cut, getElem?_zip_eq_some, append_assoc, hiPrefixMax_append]
      constructor
      · rw [getElem?_append_right (Nat.le_refl _), Nat.sub_self]
        rfl
      · rw [getElem?_append_right (by rw [length_hiPrefixMax]), length_hiPrefixMax, Nat.sub_self,
          foldl_append]
        rfl
    rw [index]
    dsimp only
    rw [here]
    obtain ⟨-, all, attained⟩ := furthest_spec 0 (front ++ [last])
    have lastIn : last ∈ front ++ [last] := mem_append_right _ mem_cons_self
    constructor
    · intro entry mem below
      rw [cut] at mem sorted
      rcases mem_append.mp mem with mem | mem
      · refine ⟨?_, all entry mem⟩
        rcases mem_append.mp mem with mem | mem
        · have ordered := (pairwise_append.mp sorted).1
          exact (pairwise_append.mp ordered).2.2 entry mem last mem_cons_self
        · rw [mem_singleton.mp mem]
      · exact absurd (later entry mem) (Nat.not_le.mpr below)
    · rcases attained with zero | ⟨entry, mem, same⟩
      · refine ⟨last, cut ▸ mem_append_left _ lastIn, started last lastIn, ?_⟩
        have := all last lastIn
        omega
      · exact ⟨entry, cut ▸ mem_append_left _ mem, started entry mem, same⟩

/-- What one search tells of a line. -/
theorem hidden_iff :
    Hidden collapsed line ↔ ∃ found, lastStarted collapsed line = some found ∧ line ≤ found.2 := by
  have spec := @lastStarted_spec _ line sorted
  constructor
  · rintro ⟨entry, mem, below, above⟩
    cases started : lastStarted collapsed line with
    | none =>
      rw [started] at spec
      exact absurd (spec entry mem) (Nat.not_le.mpr below)
    | some found =>
      rw [started] at spec
      exact ⟨found, rfl, Nat.le_trans above (spec.1 entry mem below).2⟩
  · rintro ⟨found, started, above⟩
    rw [started] at spec
    obtain ⟨entry, mem, below, same⟩ := spec.2
    exact ⟨entry, mem, below, same ▸ above⟩

/-- Where a line is hidden, so are all lines through the furthest closer. -/
theorem hidden_through (started : lastStarted collapsed line = some found) {other : Nat}
    (low : line ≤ other) (high : other ≤ found.2) : Hidden collapsed other := by
  have spec := @lastStarted_spec _ line sorted
  rw [started] at spec
  obtain ⟨entry, mem, below, same⟩ := spec.2
  exact ⟨entry, mem, Nat.lt_of_lt_of_le below low, same ▸ high⟩

/-- Where a line is hidden, so are all lines behind the opener found. -/
theorem hidden_back (started : lastStarted collapsed line = some found) (above : line ≤ found.2)
    {other : Nat} (low : found.1.openerLine < other) (high : other ≤ line) :
    Hidden collapsed other := by
  have spec := @lastStarted_spec _ line sorted
  rw [started] at spec
  obtain ⟨all, entry, mem, below, same⟩ := spec
  have first := (all entry mem below).1
  exact ⟨entry, mem, by omega, by omega⟩

theorem firstVisibleFrom_spec (line lineCount : Nat) :
    FirstVisible collapsed line lineCount (firstVisibleFrom collapsed lineCount line) := by
  fun_induction firstVisibleFrom collapsed lineCount line with
  | case1 line inside started =>
    refine .inl ⟨⟨Nat.le_refl _, inside, fun hidden => ?_⟩, fun other mem => mem.1⟩
    obtain ⟨found, some_, -⟩ := (hidden_iff sorted).mp hidden
    exact absurd (started.symm.trans some_) (some_ne_none _).symm
  | case2 line inside found started past =>
    refine .inl ⟨⟨Nat.le_refl _, inside, fun hidden => ?_⟩, fun other mem => mem.1⟩
    obtain ⟨other, some_, above⟩ := (hidden_iff sorted).mp hidden
    obtain rfl := Option.some.inj (started.symm.trans some_)
    exact absurd above (Nat.not_le.mpr past)
  | case3 line inside found started within ih =>
    have jumped : ∀ other, line ≤ other → ¬Hidden collapsed other → found.2 + 1 ≤ other :=
      fun other low visible => Nat.lt_of_not_le fun high =>
        visible (hidden_through sorted started low high)
    rcases ih with ⟨⟨low, below, visible⟩, least⟩ | ⟨all, none_⟩
    · refine .inl ⟨⟨by omega, below, visible⟩, fun other mem => ?_⟩
      exact least ⟨jumped other mem.1 mem.2.2, mem.2⟩
    · refine .inr ⟨all, fun other low below => ?_⟩
      by_contra visible
      exact visible (none_ other (jumped other low visible) below)
  | case4 line outside =>
    exact .inr ⟨rfl, fun other low below => absurd (Nat.lt_of_le_of_lt low below) outside⟩

end

theorem not_hidden_zero (collapsed : List FoldRange) : ¬Hidden collapsed 0 :=
  fun ⟨_, _, below, _⟩ => Nat.not_lt_zero _ below

theorem lastVisibleFrom_spec (sorted : collapsed.Pairwise fun a b => a.openerLine ≤ b.openerLine)
    (line : Nat) :
    IsGreatest {at_ | at_ ≤ line ∧ ¬Hidden collapsed at_} (lastVisibleFrom collapsed line) := by
  fun_induction lastVisibleFrom collapsed line with
  | case1 line started =>
    refine ⟨⟨Nat.le_refl _, fun hidden => ?_⟩, fun other mem => mem.1⟩
    obtain ⟨found, some_, -⟩ := (hidden_iff sorted).mp hidden
    exact absurd (started.symm.trans some_) (some_ne_none _).symm
  | case2 line found started past =>
    refine ⟨⟨Nat.le_refl _, fun hidden => ?_⟩, fun other mem => mem.1⟩
    obtain ⟨other, some_, above⟩ := (hidden_iff sorted).mp hidden
    obtain rfl := Option.some.inj (started.symm.trans some_)
    exact absurd above (Nat.not_le.mpr past)
  | case3 line found started within top =>
    refine ⟨⟨Nat.zero_le _, not_hidden_zero collapsed⟩, fun other mem => ?_⟩
    by_contra behind
    exact mem.2 (hidden_back sorted started (by omega) (by omega) mem.1)
  | case4 line found started within inner ih =>
    have below := openerLine_lt_of_lastStarted started
    obtain ⟨⟨low, visible⟩, greatest⟩ := ih
    refine ⟨⟨by omega, visible⟩, fun other mem => greatest ⟨?_, mem.2⟩⟩
    by_contra behind
    exact mem.2 (hidden_back sorted started (by omega) (by omega) mem.1)

end Queries

/-- **The queries are exact** for every list sorted by opener, whatever overlaps what. With no fold
collapsed the forward query is its line, the count or not. -/
theorem visibleLineQueries (m : FoldingModel)
    (sorted : m.collapsed.Pairwise fun a b => a.openerLine ≤ b.openerLine) (line : Nat) :
    (m.isLineHidden line = true ↔ Hidden m.collapsed line) ∧
      (∀ lineCount, m.collapsed ≠ [] ∨ line ≤ lineCount →
        FirstVisible m.collapsed line lineCount (m.firstVisibleLineAtOrAfter line lineCount)) ∧
      (∀ lineCount, m.collapsed = [] → m.firstVisibleLineAtOrAfter line lineCount = line) ∧
      IsGreatest {at_ | at_ ≤ line ∧ ¬Hidden m.collapsed at_} (m.lastVisibleLineAtOrBefore line) := by
  have nothing (at_ : Nat) (none_ : m.collapsed = []) : ¬Hidden m.collapsed at_ := by
    rintro ⟨entry, mem, -⟩
    exact absurd (none_ ▸ mem) not_mem_nil
  refine ⟨?_, fun lineCount bounded => ?_, fun lineCount none_ => if_pos none_, ?_⟩
  · rw [hidden_iff sorted, isLineHidden]
    cases started : lastStarted m.collapsed line with
    | none => simp
    | some found => simp
  · rw [firstVisibleLineAtOrAfter]
    split
    next none_ =>
      have within := bounded.resolve_left (not_not.mpr none_)
      rcases Nat.lt_or_eq_of_le within with inside | rfl
      · exact .inl ⟨⟨Nat.le_refl _, inside, nothing line none_⟩, fun other mem => mem.1⟩
      · exact .inr ⟨rfl, fun other low below => absurd below (Nat.not_lt.mpr low)⟩
    · exact firstVisibleFrom_spec sorted line lineCount
  · rw [lastVisibleLineAtOrBefore]
    split
    next none_ =>
      exact ⟨⟨Nat.le_refl _, nothing line none_⟩, fun other mem => mem.1⟩
    · exact lastVisibleFrom_spec sorted line

/-- A fold in a fold, and one that overlaps the outer: line 2 is hidden. -/
theorem visibleLineQueries_overlapping :
    let m : FoldingModel := { collapsed := [⟨0, 4, .bracket⟩, ⟨1, 2, .bracket⟩, ⟨3, 6, .indent⟩] }
    (m.isLineHidden 2 = true ↔ Hidden m.collapsed 2) ∧
      (∀ lineCount, m.collapsed ≠ [] ∨ 2 ≤ lineCount →
        FirstVisible m.collapsed 2 lineCount (m.firstVisibleLineAtOrAfter 2 lineCount)) ∧
      (∀ lineCount, m.collapsed = [] → m.firstVisibleLineAtOrAfter 2 lineCount = 2) ∧
      IsGreatest {at_ | at_ ≤ 2 ∧ ¬Hidden m.collapsed at_} (m.lastVisibleLineAtOrBefore 2) :=
  visibleLineQueries _ (by decide) 2

/-- With nothing collapsed, a line past the count is answered with itself. -/
theorem firstVisibleLineAtOrAfter_past_count :
    ¬FirstVisible [] 2 1 (({} : FoldingModel).firstVisibleLineAtOrAfter 2 1) := by
  rintro (⟨⟨-, below, -⟩, -⟩ | ⟨same, -⟩)
  · exact absurd below (by decide)
  · exact absurd same (by decide)

end FoldingModel

end Microide.Editor
