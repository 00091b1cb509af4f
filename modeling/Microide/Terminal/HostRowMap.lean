/-
The row map of a host terminal's mirror.

The rows above the screen follow each other from `firstLine` to the top of the screen, the
screen's rows from there, and the gaps are exactly the rule rows: `Mirror.Sound`. Each operation
on the rows has one lemma that keeps it, under what the operation needs of a frame.

**Main results.** `hostIndexOfRow_eq`: the map from the gaps is where the rows lead;
`scroll_putScrollback`, `Splits.trimFront`, `Splits.insertHostRule`: what a frame does to the
rows keeps the gaps in step.
-/

import Microide.Lib.OrderedTable
import Microide.Lib.Spans
import Microide.Terminal.HostHistory
import Microide.Terminal.HostWireRoundTrip

namespace Microide.Terminal

open List Lib TerminalHostHistory MirrorRow

/-! ### What a row covers -/

namespace MirrorRow

/-- The host index a row shows, of a rule the first it withholds. -/
def label (row : MirrorRow) : Option UInt64 :=
  match row.shows with
  | .line index => some index
  | .withheld first _ => some first
  | .note => none

/-- The index past a row. -/
def advance (index : UInt64) (row : MirrorRow) : UInt64 :=
  match row.shows with
  | .line _ => index + 1
  | .withheld _ count => index + count
  | .note => index

/-- A rule's count. -/
def mark (row : MirrorRow) : Option UInt64 :=
  match row.shows with
  | .line _ => none
  | .withheld _ count => some count
  | .note => some 0

/-- How many host lines a row stands for. -/
def weight (row : MirrorRow) : Nat :=
  match row.shows with
  | .line _ => 1
  | .withheld _ count => count.toNat
  | .note => 0

end MirrorRow

def HostGap.mark (gap : HostGap) : Nat × UInt64 := (gap.row, gap.count)

abbrev Follows (first : UInt64) (rows : List MirrorRow) : Prop :=
  Chained MirrorRow.advance MirrorRow.label first rows

abbrev endOf (first : UInt64) (rows : List MirrorRow) : UInt64 :=
  rows.foldl MirrorRow.advance first

abbrev rulesFrom (row : Nat) (rows : List MirrorRow) : List (Nat × UInt64) :=
  marksFrom MirrorRow.mark row rows

theorem endOf_cons (first : UInt64) (row : MirrorRow) (rows : List MirrorRow) :
    endOf first (row :: rows) = endOf (row.advance first) rows := rfl

theorem endOf_append (first : UInt64) (rows more : List MirrorRow) :
    endOf first (rows ++ more) = endOf (endOf first rows) more := foldl_append

theorem follows_append {first : UInt64} {rows more : List MirrorRow} :
    Follows first (rows ++ more) ↔ Follows first rows ∧ Follows (endOf first rows) more :=
  chained_append

theorem rulesFrom_append (row : Nat) (rows more : List MirrorRow) :
    rulesFrom row (rows ++ more) = rulesFrom row rows ++ rulesFrom (row + rows.length) more :=
  marksFrom_append row rows more

theorem rulesFrom_cons (row : Nat) (rule : MirrorRow) (rows : List MirrorRow) :
    rulesFrom row (rule :: rows) =
      (rule.mark.map (Prod.mk row)).toList ++ rulesFrom (row + 1) rows := rfl

theorem rulesFrom_singleton (row : Nat) (rule : MirrorRow) :
    rulesFrom row [rule] = (rule.mark.map (Prod.mk row)).toList := append_nil _

/-- The rows lead where their number and the rules' excess do. -/
theorem endOf_eq (first : UInt64) (row : Nat) (rows : List MirrorRow) :
    endOf first rows = (rulesFrom row rows).foldl (fun index rule => index + (rule.2 - 1))
      (first + UInt64.ofNat rows.length) := by
  induction rows generalizing first row with
  | nil => simp [marksFrom]
  | cons next rows ih =>
    have rest := ih (next.advance first) (row + 1)
    have length : UInt64.ofNat (rows.length + 1) = UInt64.ofNat rows.length + 1 :=
      UInt64.ofNat_add rows.length 1
    rw [endOf_cons, rest, rulesFrom_cons, foldl_append, length_cons, length]
    obtain ⟨line, shows⟩ := next
    cases shows with
    | line index =>
      simp only [mark, advance]
      congr 1
      grind
    | withheld from_ count =>
      simp only [mark, advance]
      congr 1
      grind
    | note =>
      simp only [mark, advance, Option.map_some, Option.toList_some,
        foldl_cons, foldl_nil, UInt64.zero_sub]
      have same : first + (UInt64.ofNat rows.length + 1) + -1 = first + UInt64.ofNat rows.length := by
        grind
      rw [same]

theorem foldl_excess_eq (gaps : List HostGap) (index : UInt64) :
    gaps.foldl excess index =
      (gaps.map HostGap.mark).foldl (fun index rule => index + (rule.2 - 1)) index := by
  rw [foldl_map]
  rfl

theorem foldl_excess_add (gaps : List HostGap) (a b : UInt64) :
    gaps.foldl excess (a + b) =
      a + gaps.foldl excess b := by
  induction gaps generalizing b with
  | nil => rfl
  | cons gap gaps ih =>
    rw [foldl_cons, foldl_cons, ← ih]
    congr 1
    unfold excess
    grind

theorem filter_map_mark (gaps : List HostGap) (p : Nat → Bool) :
    (gaps.filter fun gap => p gap.row).map HostGap.mark =
      (gaps.map HostGap.mark).filter fun rule => p rule.1 := by
  rw [filter_map]
  rfl

/-- The gaps are the rows' rules. -/
def Marks (trim : Nat) (rows : List MirrorRow) (gaps : List HostGap) : Prop :=
  gaps.map HostGap.mark = rulesFrom trim rows

theorem Marks.sorted {trim : Nat} {rows : List MirrorRow} {gaps : List HostGap}
    (marks : Marks trim rows gaps) : gaps.Pairwise fun a b => a.row < b.row := by
  have sorted : (rulesFrom trim rows).Pairwise fun a b => a.1 < b.1 := marksFrom_sorted trim rows
  rw [← marks] at sorted
  exact (pairwise_map (f := HostGap.mark)).mp sorted

/-- The map from the gaps is where the rows before lead. -/
theorem hostIndexOfRow_eq {history : TerminalHostHistory} {trim : Nat} {rows : List MirrorRow}
    (marks : Marks trim rows history.gaps) {k : Nat} (inside : k ≤ rows.length) :
    history.hostIndexOfRow (trim + k) trim = endOf history.firstLine (rows.take k) := by
  have monotone : history.gaps.Pairwise fun a b =>
      decide (b.row < trim + k) → decide (a.row < trim + k) :=
    marks.sorted.imp fun below passes => by
      simp only [decide_eq_true_eq] at passes ⊢
      omega
  have before : ((history.gaps.filter fun gap => gap.row < trim + k).map HostGap.mark) =
      rulesFrom trim (rows.take k) := by
    rw [filter_map_mark history.gaps fun row => decide (row < trim + k), marks, filter_marksFrom]
  have distance : UInt64.ofNat (trim + k) - UInt64.ofNat trim = UInt64.ofNat k := by
    rw [UInt64.ofNat_add]
    grind
  rw [hostIndexOfRow, takeWhile_eq_filter_iff.mpr monotone, distance,
    foldl_excess_eq, before, endOf_eq _ trim, length_take_of_le inside]

/-! ### Host lines one after another -/

/-- The rows show the host lines from `first`, one each. -/
def ShowsLines : UInt64 → List MirrorRow → Prop
  | _, [] => True
  | first, row :: rows => row.shows = .line first ∧ ShowsLines (first + 1) rows

theorem ofNat_succ (n : Nat) : UInt64.ofNat (n + 1) = UInt64.ofNat n + 1 := UInt64.ofNat_add n 1

theorem showsLines_append {first : UInt64} {rows more : List MirrorRow} :
    ShowsLines first (rows ++ more) ↔
      ShowsLines first rows ∧ ShowsLines (first + UInt64.ofNat rows.length) more := by
  induction rows generalizing first with
  | nil => simp [ShowsLines]
  | cons row rows ih =>
    have length : first + 1 + UInt64.ofNat rows.length = first + UInt64.ofNat (rows.length + 1) := by
      rw [ofNat_succ]
      grind
    rw [cons_append, ShowsLines, ShowsLines, ih, and_assoc, length, length_cons]

theorem showsLines_pageRows (first : UInt64) (lines : List TerminalLine) :
    ShowsLines first (pageRows first lines) := by
  induction lines generalizing first with
  | nil => trivial
  | cons line lines ih => exact ⟨rfl, ih (first + 1)⟩

@[simp] theorem length_pageRows (first : UInt64) (lines : List TerminalLine) :
    (pageRows first lines).length = lines.length := by
  induction lines generalizing first with
  | nil => rfl
  | cons line lines ih => rw [pageRows, length_cons, length_cons, ih]

namespace ShowsLines

variable {first : UInt64} {rows : List MirrorRow}

section

variable (shows : ShowsLines first rows)

include shows

theorem get {k : Nat} {row : MirrorRow} (held : rows[k]? = some row) :
    row.shows = .line (first + UInt64.ofNat k) := by
  induction rows generalizing first k with
  | nil => cases held
  | cons next rows ih =>
    cases k with
    | zero =>
      obtain rfl := Option.some.inj held
      simpa using shows.1
    | succ k =>
      rw [ih shows.2 held, ofNat_succ]
      congr 1
      grind

theorem follows : Follows first rows := by
  induction rows generalizing first with
  | nil => trivial
  | cons row rows ih =>
    obtain ⟨own, rest⟩ := shows
    refine ⟨?_, ?_⟩
    · intro index labelled
      simpa [label, own] using labelled.symm
    · have next : row.advance first = first + 1 := by simp [advance, own]
      exact next.symm ▸ ih rest

theorem endOf_eq : endOf first rows = first + UInt64.ofNat rows.length := by
  induction rows generalizing first with
  | nil => simp
  | cons row rows ih =>
    obtain ⟨own, rest⟩ := shows
    have next : row.advance first = first + 1 := by simp [advance, own]
    rw [endOf_cons, next, ih rest, length_cons, ofNat_succ]
    grind

theorem unmarked : ∀ row ∈ rows, row.mark = none := by
  intro row held
  obtain ⟨k, _, same⟩ := getElem_of_mem held
  have shown := shows.get (List.getElem?_eq_some_iff.mpr ⟨_, same⟩)
  simp [mark, shown]

end

end ShowsLines

/-! ### The rows above the screen -/

/-- The rows lead from `first` to `last`, and the gaps are their rules. -/
structure Scroll (trim : Nat) (first last : UInt64) (rows : List MirrorRow) (gaps : List HostGap) :
    Prop where
  follows : Follows first rows
  ends : endOf first rows = last
  marks : Marks trim rows gaps

namespace Scroll

variable {trim : Nat} {first last : UInt64} {rows : List MirrorRow} {gaps : List HostGap}

section

variable (scroll : Scroll trim first last rows gaps)

include scroll

/-- Lines put below lead on; no gap is among them. -/
theorem append_lines {more : List MirrorRow} (shows : ShowsLines last more) :
    Scroll trim first (last + UInt64.ofNat more.length) (rows ++ more) gaps where
  follows := follows_append.mpr ⟨scroll.follows, scroll.ends.symm ▸ shows.follows⟩
  ends := by rw [endOf_append, scroll.ends, shows.endOf_eq]
  marks := by
    have none : rulesFrom (trim + rows.length) more = [] := marksFrom_of_unmarked shows.unmarked
    rw [Marks, rulesFrom_append, none, append_nil, scroll.marks]

/-- A rule put below, and its gap after the others. -/
theorem append_rule (rule : MirrorRow) (gap : HostGap) (label : ∀ index ∈ rule.label, index = last)
    (mark : rule.mark = some gap.count) (place : gap.row = trim + rows.length) :
    Scroll trim first (rule.advance last) (rows ++ [rule]) (gaps ++ [gap]) where
  follows := follows_append.mpr ⟨scroll.follows, by rw [scroll.ends]; exact ⟨label, trivial⟩⟩
  ends := by
    rw [endOf_append, scroll.ends]
    rfl
  marks := by
    rw [Marks, rulesFrom_append, map_append, scroll.marks, rulesFrom_singleton, mark, ← place]
    rfl

theorem append_gapRow (gap : HostGap) (place : gap.row = trim + rows.length) :
    Scroll trim first (last + gap.count) (rows ++ [gapRow last gap.count]) (gaps ++ [gap]) :=
  scroll.append_rule (gapRow last gap.count) gap (by rintro _ ⟨⟩; rfl) rfl place

end

/-- The rows but the last. -/
theorem init {row : MirrorRow} (scroll : Scroll trim first last (rows ++ [row]) gaps) :
    (∀ index ∈ row.label, index = endOf first rows) ∧ row.advance (endOf first rows) = last ∧
      match row.mark with
      | none => Scroll trim first (endOf first rows) rows gaps
      | some count => ∃ older gap, gaps = older ++ [gap] ∧ gap.row = trim + rows.length ∧
          gap.count = count ∧ Scroll trim first (endOf first rows) rows older := by
  obtain ⟨follows, ends, marks⟩ := scroll
  obtain ⟨before, own, _⟩ := follows_append.mp follows
  have advanced : row.advance (endOf first rows) = last := by
    rw [← ends, endOf_append]
    rfl
  refine ⟨own, advanced, ?_⟩
  rw [Marks, rulesFrom_append, rulesFrom_singleton] at marks
  cases marked : row.mark with
  | none =>
    rw [marked, Option.map_none, Option.toList_none, append_nil] at marks
    exact ⟨before, rfl, marks⟩
  | some count =>
    rw [marked] at marks
    obtain ⟨older, tail, rfl, olderMarks, tailMarks⟩ := map_eq_append_iff.mp marks
    obtain ⟨gap, rfl, gapMark⟩ := map_eq_singleton_iff.mp tailMarks
    obtain ⟨place, counts⟩ := Prod.mk.inj gapMark
    exact ⟨older, gap, rfl, place, counts, before, rfl, olderMarks⟩

/-- Other rows in the place of one, which lead where it led. -/
theorem replace {before middle after : List MirrorRow} {rule : MirrorRow}
    {older kept newer : List HostGap} (scroll : Scroll trim first last (before ++ rule :: after) gaps)
    (follows : Follows (endOf first before) middle)
    (ends : endOf (endOf first before) middle = rule.advance (endOf first before))
    (olderMarks : older.map HostGap.mark = rulesFrom trim before)
    (keptMarks : kept.map HostGap.mark = rulesFrom (trim + before.length) middle)
    (newerMarks : newer.map HostGap.mark = rulesFrom (trim + before.length + middle.length) after) :
    Scroll trim first last (before ++ middle ++ after) (older ++ kept ++ newer) := by
  obtain ⟨followsAll, endsAll, _⟩ := scroll
  obtain ⟨followsBefore, _, followsAfter⟩ := follows_append.mp followsAll
  have lead : endOf first (before ++ middle) = rule.advance (endOf first before) := by
    rw [endOf_append, ends]
  refine ⟨?_, ?_, ?_⟩
  · exact follows_append.mpr ⟨follows_append.mpr ⟨followsBefore, follows⟩, lead.symm ▸ followsAfter⟩
  · rw [endOf_append, lead, ← endsAll, endOf_append, endOf_cons]
  · rw [Marks, rulesFrom_append, rulesFrom_append, map_append, map_append, olderMarks,
      keptMarks, newerMarks, length_append, Nat.add_assoc]

end Scroll

/-! ### The screen grows upward -/

/-- How many host lines the rows stand for. -/
def heldLines (rows : List MirrorRow) : Nat := (rows.map MirrorRow.weight).sum

theorem heldLines_append (rows : List MirrorRow) (row : MirrorRow) :
    heldLines (rows ++ [row]) = heldLines rows + row.weight := by
  simp [heldLines]

/-- Where the gaps end before a row, the last of them is not at it. -/
theorem getLast?_of_marks {trim : Nat} {rows : List MirrorRow} {gaps : List HostGap}
    (marks : Marks trim rows gaps) :
    gaps.getLast?.filter (fun gap => gap.row = trim + rows.length) = none := by
  cases last : gaps.getLast? with
  | none => rfl
  | some gap =>
    have held : gap.mark ∈ rulesFrom trim rows := by
      rw [← marks]
      exact mem_map_of_mem (mem_of_getLast? last)
    have below : gap.row < trim + rows.length := (marksFrom_range _ held).2
    simp [Option.filter, Nat.ne_of_lt below]

/-- Taking back as many lines as the rows stand for at most leaves the rows before them. -/
theorem scroll_takeBack {trim : Nat} {first top : UInt64} (n : Nat) :
    ∀ {back : UInt64} {rows : List MirrorRow} {gaps : List HostGap},
      Scroll trim first (top + back) rows gaps → back.toNat ≤ heldLines rows → rows.length ≤ n →
      Scroll trim first top (takeBack trim n back rows gaps).1 (takeBack trim n back rows gaps).2 := by
  induction n with
  | zero =>
    intro back rows gaps scroll enough short
    obtain rfl := length_eq_zero_iff.mp (Nat.le_zero.mp short)
    have none : back = 0 := UInt64.toNat_inj.mp (Nat.le_zero.mp enough)
    rw [none, UInt64.add_zero] at scroll
    exact scroll
  | succ n ih =>
    intro back rows gaps scroll enough short
    unfold takeBack
    by_cases none : back = 0
    · rw [if_pos none]
      rw [none, UInt64.add_zero] at scroll
      exact scroll
    rw [if_neg none]
    rcases eq_nil_or_concat rows with rfl | ⟨rows, last, rfl⟩
    · exact absurd (UInt64.toNat_inj.mp (Nat.le_zero.mp enough)) none
    rw [concat_eq_append] at scroll enough short ⊢
    rw [length_append, length_singleton] at short
    rw [heldLines_append] at enough
    have row : trim + (rows ++ [last]).length - 1 = trim + rows.length := by simp
    obtain ⟨label, advance, before⟩ := scroll.init
    simp only [getLast?_concat, dropLast_concat, row]
    cases marked : last.mark with
    | none =>
      obtain ⟨line, shows⟩ := last
      cases shows with
      | line index =>
        simp only [getLast?_of_marks before.marks]
        have ends : endOf first rows = top + (back - 1) := by
          have next : endOf first rows + 1 = top + back := advance
          grind
        refine ih (ends ▸ before) ?_ (Nat.le_of_succ_le_succ short)
        have less : (back - 1).toNat = back.toNat - 1 := by
          refine UInt64.toNat_sub_of_le _ _ (UInt64.le_iff_toNat_le.mpr ?_)
          have positive : back.toNat ≠ 0 := fun zero => none (UInt64.toNat_inj.mp zero)
          have one : (1 : UInt64).toNat = 1 := rfl
          omega
        have one : (⟨line, .line index⟩ : MirrorRow).weight = 1 := rfl
        omega
      | withheld from_ count => cases marked
      | note => cases marked
    | some count =>
      rw [marked] at before
      obtain ⟨older, gap, rfl, place, counts, before⟩ := before
      have found : (older ++ [gap]).getLast?.filter
          (fun gap => gap.row = trim + rows.length) = some gap := by
        simp [place]
      simp only [found, dropLast_concat, counts]
      by_cases part : back < count
      · -- what stays of the rule leads to the new top
        rw [if_pos part]
        have counted : count ≠ 0 := by
          rintro rfl
          exact absurd part (UInt64.not_lt_zero)
        obtain ⟨line, shows⟩ := last
        cases shows with
        | line index => cases marked
        | note => exact absurd (Option.some.inj marked).symm counted
        | withheld from_ kept =>
          obtain rfl : kept = count := Option.some.inj marked
          have start : from_ = endOf first rows := label _ rfl
          have ends : endOf first rows + kept = top + back := advance
          have rest := before.append_rule
            ((⟨line, .withheld from_ kept⟩ : MirrorRow).shrunk (kept - back))
            { gap with count := kept - back }
            (by rintro _ ⟨⟩; exact start) rfl place
          have last_ : ((⟨line, .withheld from_ kept⟩ : MirrorRow).shrunk (kept - back)).advance
              (endOf first rows) = top := by
            change endOf first rows + (kept - back) = top
            grind
          rw [last_] at rest
          exact rest
      · rw [if_neg part]
        have le : count.toNat ≤ back.toNat := by
          rw [UInt64.lt_iff_toNat_lt] at part
          omega
        have less : (back - count).toNat = back.toNat - count.toNat :=
          UInt64.toNat_sub_of_le _ _ (UInt64.le_iff_toNat_le.mpr le)
        have weight : last.weight = count.toNat ∧ endOf first rows + count = top + back := by
          obtain ⟨line, shows⟩ := last
          cases shows with
          | line index => cases marked
          | withheld from_ kept =>
            obtain rfl : kept = count := Option.some.inj marked
            exact ⟨rfl, advance⟩
          | note =>
            obtain rfl : 0 = count := Option.some.inj marked
            exact ⟨rfl, by rw [UInt64.add_zero]; exact advance⟩
        have ends : endOf first rows = top + (back - count) := by
          grind
        refine ih (ends ▸ before) ?_ (Nat.le_of_succ_le_succ short)
        omega

/-! ### The old screen and the new -/

/-- The rows of an old screen are the host lines from its top. -/
def OldScreen.Sound (old : OldScreen) : Prop := ShowsLines old.top old.rows

variable {old : OldScreen}

theorem OldScreen.Sound.take (sound : old.Sound) (absolute : UInt64) :
    (old.take absolute).shows = .line absolute := by
  unfold OldScreen.take
  split
  · cases held : old.rows[(absolute - old.top).toNat]? with
    | none => rfl
    | some row =>
      rw [Option.getD_some, sound.get held, UInt64.ofNat_toNat]
      congr 1
      grind
  · rfl

theorem showsLines_screenRows (sound : old.Sound) (top : UInt64) (keep : List Bool)
    (sent : List TerminalLine) : ShowsLines top (screenRows old top keep sent) ∧
      (screenRows old top keep sent).length = keep.length := by
  induction keep generalizing top sent with
  | nil => exact ⟨trivial, rfl⟩
  | cons kept keep ih =>
    cases kept with
    | true =>
      obtain ⟨shows, length⟩ := ih (top + 1) sent
      exact ⟨⟨sound.take top, shows⟩, congrArg Nat.succ length⟩
    | false =>
      obtain ⟨shows, length⟩ := ih (top + 1) sent.tail
      exact ⟨⟨rfl, shows⟩, congrArg Nat.succ length⟩

theorem showsLines_taken (sound : old.Sound) (absolute : UInt64) (count : Nat) :
    ShowsLines absolute ((linesFrom absolute count).map old.take) := by
  unfold linesFrom
  induction count with
  | zero => trivial
  | succ count ih =>
    rw [range_succ, map_append, map_append, showsLines_append]
    refine ⟨ih, ?_, trivial⟩
    rw [sound.take]
    simp

/-! ### A frame's scrollback -/

theorem scroll_run {trim : Nat} {first : UInt64} (sound : old.Sound) {rows : FrameRows}
    {run : TerminalHostRun} (scroll : Scroll trim first rows.absolute rows.lines rows.history.gaps)
    (sent : run.kind = .lines → run.count.toNat ≤ rows.sent.length) :
    let next := rows.run trim old run
    Scroll trim first next.absolute next.lines next.history.gaps ∧
      next.absolute = rows.absolute + run.count ∧
      next.history.firstLine = rows.history.firstLine ∧
      next.sent.length = rows.sent.length - runLines .lines [run] := by
  obtain ⟨kind, count⟩ := run
  cases kind with
  | promote =>
    have more := scroll.append_lines (showsLines_taken sound rows.absolute count.toNat)
    simp only [length_map, linesFrom, length_range, UInt64.ofNat_toNat] at more
    exact ⟨more, rfl, rfl, rfl⟩
  | lines =>
    have more := scroll.append_lines
      (showsLines_pageRows rows.absolute (rows.sent.take count.toNat))
    rw [length_pageRows, length_take_of_le (sent rfl), UInt64.ofNat_toNat] at more
    refine ⟨more, rfl, rfl, ?_⟩
    simp [FrameRows.run, runLines]
  | gap =>
    have more := scroll.append_gapRow
      ⟨trim + rows.lines.length, count, rows.history.nextGapId, false, false⟩ rfl
    exact ⟨more, rfl, rfl, rfl⟩

/-- The runs lead on by the lines they cover. -/
theorem scroll_runs {trim : Nat} {first : UInt64} (sound : old.Sound)
    (runs : List TerminalHostRun) :
    ∀ {rows : FrameRows}, Scroll trim first rows.absolute rows.lines rows.history.gaps →
      runLines .lines runs ≤ rows.sent.length →
      let next := runs.foldl (FrameRows.run trim old) rows
      Scroll trim first (rows.absolute + UInt64.ofNat (coveredLines runs)) next.lines
          next.history.gaps ∧ next.history.firstLine = rows.history.firstLine := by
  induction runs with
  | nil =>
    intro rows scroll _
    have none : rows.absolute + UInt64.ofNat 0 = rows.absolute := UInt64.add_zero _
    exact ⟨by exact none.symm ▸ scroll, rfl⟩
  | cons run runs ih =>
    intro rows scroll sent
    have split : runLines .lines (run :: runs) = runLines .lines [run] + runLines .lines runs := by
      rw [← singleton_append, runLines, runLines, runLines, filter_append, map_append, sum_append]
    have own : run.kind = .lines → run.count.toNat ≤ rows.sent.length := by
      intro kind
      have lines : runLines .lines [run] = run.count.toNat := by simp [runLines, kind]
      omega
    obtain ⟨next, absolute, firstLine, left⟩ := scroll_run sound scroll own
    obtain ⟨rest, restFirst⟩ := ih next (by omega)
    have covered : coveredLines (run :: runs) = run.count.toNat + coveredLines runs := rfl
    refine ⟨?_, restFirst.trans firstLine⟩
    rw [foldl_cons, covered, UInt64.ofNat_add, UInt64.ofNat_toNat, ← UInt64.add_assoc, ← absolute]
    exact rest

/-! ### The mirror -/

variable {frame : TerminalHostFrame}

namespace Mirror

def primaryScreenLines (m : Mirror) : Nat :=
  if m.alternate then m.primaryStashScreenLines else m.screenLines

/-- The primary rows are those above the screen and the screen's. -/
structure Splits (m : Mirror) (above screen : List MirrorRow) : Prop where
  primary : m.primary = above ++ screen
  size : screen.length = m.primaryScreenLines
  scroll : Scroll m.trimTotal m.history.firstLine m.screenTop above m.history.gaps
  shows : ShowsLines m.screenTop screen

/-- The rows, the gaps and the screen are in step. -/
structure Sound (m : Mirror) : Prop where
  splits : ∃ above screen, m.Splits above screen
  same : m.useAlternateScreen = m.alternate

def rowsAbove (m : Mirror) : List MirrorRow :=
  m.primary.take (m.primary.length - m.primaryScreenLines)

theorem Splits.rowsAbove_eq {m : Mirror} {above screen : List MirrorRow}
    (splits : m.Splits above screen) : m.rowsAbove = above := by
  rw [rowsAbove, splits.primary, ← splits.size, length_append, Nat.add_sub_cancel, take_left]

theorem sound_start : start.Sound where
  splits := ⟨[], start.lines, rfl, rfl, ⟨trivial, rfl, rfl⟩, rfl, trivial⟩
  same := rfl

variable {m : Mirror} {above screen : List MirrorRow}

theorem splits_coldReset (m : Mirror) (frame : TerminalHostFrame) :
    (m.coldReset frame).Splits [] [] :=
  ⟨rfl, rfl, ⟨trivial, rfl, rfl⟩, trivial⟩

theorem Splits.switchScreen (splits : m.Splits above screen) (alternate : Bool) :
    (m.switchScreen alternate).Splits above screen := by
  obtain ⟨primary, size, scroll, shows⟩ := splits
  unfold Mirror.primary at primary
  unfold primaryScreenLines at size
  unfold Mirror.switchScreen
  cases alternate <;> cases held : m.alternate <;> rw [held] at primary size <;>
    simp only [Bool.not_true, Bool.not_false, Bool.and_true, Bool.and_false, Bool.false_eq_true,
      if_false]
  · exact ⟨by rw [Mirror.primary, held]; exact primary,
      by rw [primaryScreenLines, held]; exact size, scroll, shows⟩
  · exact ⟨primary, size, scroll, shows⟩
  · exact ⟨primary, size, scroll, shows⟩
  · exact ⟨by rw [Mirror.primary, held]; exact primary,
      by rw [primaryScreenLines, held]; exact size, scroll, shows⟩

theorem alternate_switchScreen (m : Mirror) (alternate : Bool) :
    (m.switchScreen alternate).alternate = alternate := by
  unfold Mirror.switchScreen
  cases alternate <;> cases held : m.alternate <;> simp [held]

/-- On the primary screen the rows come apart where they were put together. -/
theorem Splits.detachScreen (splits : m.Splits above screen) (primary : m.alternate = false) :
    m.detachScreen = (⟨m.screenTop, screen⟩, { m with lines := above }) := by
  have lines : m.lines = above ++ screen := by
    have rows := splits.primary
    rw [Mirror.primary, primary] at rows
    exact rows
  have size : m.screenLines = screen.length := by
    have size := splits.size
    rw [primaryScreenLines, primary] at size
    exact size.symm
  have place : (above ++ screen).length - min screen.length (above ++ screen).length =
      above.length := by
    rw [length_append]
    omega
  unfold Mirror.detachScreen
  simp only [lines, size, place, primary, drop_left, take_left, Bool.false_eq_true, if_false]

/-- What a frame for the primary screen needs to lead on from the mirror. -/
structure Continues (top : UInt64) (above : List MirrorRow) (frame : TerminalHostFrame) : Prop where
  top : frame.previousTop = top
  back : frame.screenTop < frame.previousTop →
    (frame.previousTop - frame.screenTop).toNat ≤ heldLines above

theorem covered_of_bounds (bounds : frame.ScrollbackInBounds)
    (down : ¬ frame.screenTop < frame.previousTop) :
    frame.previousTop + UInt64.ofNat (coveredLines frame.scrollback) = frame.screenTop := by
  have le : frame.previousTop ≤ frame.screenTop := UInt64.not_lt.mp down
  rw [bounds.covers, TerminalHostFrame.moved, if_pos le, UInt64.ofNat_toNat]
  grind

theorem scrollback_eq_nil (bounds : frame.ScrollbackInBounds)
    (up : frame.screenTop < frame.previousTop) : frame.scrollback = [] := by
  have covers := bounds.covers
  rw [TerminalHostFrame.moved, if_neg (UInt64.not_le.mpr up)] at covers
  rw [eq_nil_iff_forall_not_mem]
  intro run held
  have zero : run.count.toNat = 0 := by
    have le : run.count.toNat ≤ coveredLines frame.scrollback :=
      single_le_sum (fun _ _ => Nat.zero_le _) _ (mem_map_of_mem held)
    have none : (0 : UInt64).toNat = 0 := rfl
    omega
  exact bounds.counted run held (UInt64.toNat_inj.mp zero)

/-- A frame's scrollback leads the rows to its screen. -/
theorem scroll_putScrollback
    (scroll : Scroll m.trimTotal m.history.firstLine m.screenTop m.lines m.history.gaps)
    (sound : old.Sound) (bounds : frame.ScrollbackInBounds)
    (continues : Continues m.screenTop m.lines frame) :
    ∃ lines history consistent, m.putScrollback old frame =
        ({ m with lines, history }, consistent) ∧
      Scroll m.trimTotal history.firstLine frame.screenTop lines history.gaps := by
  obtain ⟨top, back⟩ := continues
  unfold Mirror.putScrollback
  by_cases up : frame.screenTop < frame.previousTop
  · rw [if_pos up, scrollback_eq_nil bounds up]
    have lead : frame.screenTop + (frame.previousTop - frame.screenTop) = m.screenTop := by
      grind
    exact ⟨_, _, _, rfl, scroll_takeBack _ (lead ▸ scroll) (back up) le_rfl⟩
  · rw [if_neg up]
    have start : Scroll m.trimTotal m.history.firstLine frame.previousTop m.lines m.history.gaps :=
      top ▸ scroll
    obtain ⟨began, began_eq⟩ : ∃ began : FrameRows, began =
      ⟨m.lines, m.history, frame.previousTop, frame.scrollbackLines,
        frame.previousTop == m.screenTop⟩ := ⟨_, rfl⟩
    have startRows : Scroll m.trimTotal m.history.firstLine began.absolute began.lines
        began.history.gaps := by
      rw [began_eq]
      exact start
    obtain ⟨rows, firstLine⟩ := scroll_runs sound frame.scrollback startRows
      (by rw [began_eq, bounds.lines])
    subst began_eq
    rw [covered_of_bounds bounds up] at rows
    refine ⟨_, _, _, rfl, ?_⟩
    rw [firstLine]
    exact rows

theorem size_screen (sound : old.Sound) (top : UInt64) (frame : TerminalHostFrame) :
    ∃ rows, (if frame.screenKeep.isEmpty then [⟨{}, .line top⟩]
        else screenRows old top frame.screenKeep frame.screenLines) = rows ∧
      ShowsLines top rows ∧ rows.length = max 1 frame.screenKeep.length := by
  refine ⟨_, rfl, ?_⟩
  cases keep : frame.screenKeep with
  | nil => exact ⟨⟨rfl, trivial⟩, rfl⟩
  | cons kept rest =>
    obtain ⟨shows, length⟩ := showsLines_screenRows sound top (kept :: rest) frame.screenLines
    refine ⟨shows, ?_⟩
    rw [isEmpty_cons, if_neg Bool.false_ne_true, length, length_cons]
    omega

/-- The cap drops rows off the front, and the front moves by what they stood for. -/
theorem Splits.trimFront (splits : m.Splits above screen) (primary : m.alternate = false) :
    ∃ rest, m.trimFront.Splits rest screen := by
  obtain ⟨rows, size, ⟨follows, ends, marks⟩, shows⟩ := splits
  have lines : m.lines = above ++ screen := by
    rw [Mirror.primary, primary] at rows
    exact rows
  have screenLines : m.screenLines = screen.length := by
    rw [primaryScreenLines, primary] at size
    exact size.symm
  unfold Mirror.trimFront
  dsimp only
  split
  next full =>
    obtain ⟨trim, isTrim⟩ : ∃ trim, trim =
      m.lines.length - (m.maxScrollbackLines + m.screenLines) := ⟨_, rfl⟩
    rw [← isTrim]
    have inside : trim ≤ above.length := by
      rw [isTrim, lines, length_append, screenLines]
      omega
    have front := follows_append.mp ((take_append_drop trim above).symm ▸ follows)
    have moved : m.history.firstLine +
        (m.history.gaps.filter fun gap => gap.row < m.trimTotal + trim).foldl
          excess (UInt64.ofNat trim) =
        endOf m.history.firstLine (above.take trim) := by
      have gone := filter_map_mark m.history.gaps fun row => decide (row < m.trimTotal + trim)
      rw [marks, filter_marksFrom] at gone
      rw [← foldl_excess_add, foldl_excess_eq, gone, endOf_eq _ m.trimTotal,
        length_take_of_le inside]
    refine ⟨above.drop trim, ?_, ?_, ⟨?_, ?_, ?_⟩, shows⟩
    · rw [Mirror.primary, primary, lines]
      exact drop_append_of_le_length inside
    · rw [primaryScreenLines, primary]
      exact screenLines.symm
    · rw [moved]
      exact front.2
    · rw [moved, ← endOf_append, take_append_drop]
      exact ends
    · have kept := filter_map_mark m.history.gaps fun row => decide (m.trimTotal + trim ≤ row)
      rw [marks, filter_marksFrom_drop m.trimTotal inside] at kept
      exact kept
  · refine ⟨above, ?_, ?_, ⟨follows, ends, marks⟩, shows⟩
    · rw [Mirror.primary, primary]
      exact lines
    · rw [primaryScreenLines, primary]
      exact screenLines.symm

/-- A note goes between the rows above and the screen. -/
theorem Splits.insertHostRule (splits : m.Splits above screen) (primary : m.alternate = false)
    (line : TerminalLine) : (m.insertHostRule line).Splits (above ++ [⟨line, .note⟩]) screen := by
  obtain ⟨rows, size, scroll, shows⟩ := splits
  have lines : m.lines = above ++ screen := by
    rw [Mirror.primary, primary] at rows
    exact rows
  have screenLines : m.screenLines = screen.length := by
    rw [primaryScreenLines, primary] at size
    exact size.symm
  have place : (above ++ screen).length - min screen.length (above ++ screen).length =
      above.length := by
    rw [length_append]
    omega
  have rule := scroll.append_rule ⟨line, .note⟩
    ⟨m.trimTotal + above.length, 0, m.history.nextGapId, false, false⟩ (by rintro _ ⟨⟩) rfl rfl
  unfold Mirror.insertHostRule
  rw [lines, screenLines, place]
  refine ⟨?_, ?_, rule, shows⟩
  · rw [Mirror.primary, primary]
    simp
  · rw [primaryScreenLines, primary]
    rfl

end Mirror

end Microide.Terminal
