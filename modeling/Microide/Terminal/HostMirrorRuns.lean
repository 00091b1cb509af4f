/-
Runs of a host terminal's mirror.

Frames, link losses, reattaches, pages of older history, gap fills and changes of the
scrollback limit, in any order. A run is careful where every frame for the primary screen leads
on from the mirror, no rule is drawn over the alternate screen and no limit trims a mirror.

**Main results.** `rowMap_exact`: in every careful run the gaps are the primary buffer's rule
rows in order, and the map answers the host line every row shows; `rowMap_loses`: what
other runs do to it.
-/

import Microide.Lib.Runs
import Microide.Terminal.HostRowMap

namespace Microide.Terminal

open List Lib HostGap

namespace Mirror

variable {m : Mirror} {above screen : List MirrorRow}

/-! ### Frames -/

/-- A frame the mirror can follow: one for the alternate screen; else one that starts at the
screen's top, or cold, and takes back no more lines than the mirror holds above its screen. -/
def Leads (m : Mirror) (frame : TerminalHostFrame) : Prop :=
  frame.has kAlternateScreen = true ∨
    if frame.has kReset then ¬ frame.screenTop < frame.previousTop
    else Continues m.screenTop m.rowsAbove frame

/-- The mirror before a frame's rows. -/
theorem splits_before (splits : m.Splits above screen) (frame : TerminalHostFrame) :
    ∃ above' screen',
      ((if frame.has kReset then m.coldReset frame else m).switchScreen
        (frame.has kAlternateScreen)).Splits above' screen' ∧
      (frame.has kReset = false → above' = above ∧ screen' = screen) ∧
      (frame.has kReset = true → above' = []) := by
  cases cold : frame.has kReset with
  | true =>
    exact ⟨[], [], (splits_coldReset m frame).switchScreen _, (by rintro ⟨⟩), fun _ => rfl⟩
  | false =>
    exact ⟨above, screen, splits.switchScreen _, fun _ => ⟨rfl, rfl⟩, (by rintro ⟨⟩)⟩

theorem screenTop_switchScreen (m : Mirror) (alternate : Bool) :
    (m.switchScreen alternate).screenTop = m.screenTop := by
  unfold switchScreen
  split
  · rfl
  · split <;> rfl

section

variable (splits : m.Splits above screen)

include splits

/-- A frame for the alternate screen leaves the primary rows alone. -/
theorem Splits.alternateFrame (alternate : m.alternate = true) (frame : TerminalHostFrame) :
    (m.frameRows frame).1.Splits above screen ∧ (m.frameRows frame).1.alternate = true := by
  obtain ⟨rows, size, scroll, shows⟩ := splits
  have stash : m.primaryStash.getD [] = above ++ screen := by
    rw [Mirror.primary, alternate] at rows
    exact rows
  have stashLines : screen.length = m.primaryStashScreenLines := by
    rw [primaryScreenLines, alternate] at size
    exact size
  unfold frameRows putScreen Mirror.detachScreen
  simp only [alternate, if_true, and_true]
  refine ⟨?_, ?_, scroll, shows⟩
  · exact stash
  · exact stashLines

/-- A frame for the primary screen leads the rows on to its own. -/
theorem Splits.primaryFrame (primary : m.alternate = false) {frame : TerminalHostFrame}
    (bounds : frame.InBounds) (continues : Continues m.screenTop above frame) :
    (∃ above' screen', (m.frameRows frame).1.Splits above' screen') ∧
      (m.frameRows frame).1.alternate = false := by
  have apart := splits.detachScreen primary
  obtain ⟨rows, size, scroll, shows⟩ := splits
  have old : OldScreen.Sound ⟨m.screenTop, screen⟩ := shows
  obtain ⟨detached, isDetached⟩ : ∃ detached, detached = { m with lines := above } := ⟨_, rfl⟩
  have start : Scroll detached.trimTotal detached.history.firstLine detached.screenTop
      detached.lines detached.history.gaps := by
    rw [isDetached]
    exact scroll
  have leads : Continues detached.screenTop detached.lines frame := by
    rw [isDetached]
    exact continues
  obtain ⟨lines, history, consistent, put, led⟩ :=
    scroll_putScrollback start old bounds.scrollback leads
  obtain ⟨newScreen, isScreen, showsRows, length⟩ := size_screen old frame.screenTop frame
  have still : detached.alternate = false := by
    rw [isDetached]
    exact primary
  obtain ⟨placed, isPlaced⟩ : ∃ placed, placed =
    (({ detached with lines, history } : Mirror).putScreen ⟨m.screenTop, screen⟩ frame).1 := ⟨_, rfl⟩
  have screenOf : placed.alternate = false := by
    rw [isPlaced]
    exact still
  have rowsOf : placed.Splits lines newScreen := by
    rw [isPlaced]
    unfold putScreen
    simp only [still, Bool.false_eq_true, if_false, isScreen]
    refine ⟨?_, ?_, led, showsRows⟩
    · rw [Mirror.primary, if_neg Bool.false_ne_true]
    · exact length
  have result : (m.frameRows frame).1 = placed.trimFront := by
    unfold frameRows
    rw [apart, ← isDetached, primary]
    dsimp only
    rw [if_neg Bool.false_ne_true, if_neg Bool.false_ne_true, put, isPlaced]
  rw [result]
  obtain ⟨rest, trimmed⟩ := rowsOf.trimFront screenOf
  refine ⟨⟨rest, newScreen, trimmed⟩, ?_⟩
  unfold Mirror.trimFront
  dsimp only
  split <;> exact screenOf

theorem Splits.announce (frame : TerminalHostFrame) :
    (∃ above', (m.announce frame).Splits above' screen) ∧
      (m.announce frame).alternate = m.alternate := by
  unfold Mirror.announce
  split
  · obtain ⟨quiet, isQuiet⟩ : ∃ quiet, quiet = { m with announceReattach := false } := ⟨_, rfl⟩
    have still : quiet.alternate = m.alternate := by rw [isQuiet]
    have rows : quiet.Splits above screen := by
      rw [isQuiet]
      exact ⟨splits.primary, splits.size, splits.scroll, splits.shows⟩
    simp only [← isQuiet]
    split
    · exact ⟨⟨above, rows⟩, still⟩
    next primary =>
      exact ⟨⟨_, rows.insertHostRule (still.trans (Bool.eq_false_of_not_eq_true primary)) _⟩, still⟩
  · exact ⟨⟨above, splits⟩, rfl⟩

end

theorem sound_applyHostFrame (sound : m.Sound) {frame : TerminalHostFrame} (bounds : frame.InBounds)
    (leads : m.attached = true → m.Leads frame) : (m.applyHostFrame frame).1.Sound := by
  unfold applyHostFrame
  split
  next attached =>
    have leads := leads attached
    obtain ⟨above, screen, splits⟩ := sound.splits
    obtain ⟨above', screen', before, warm, cold⟩ := splits_before splits frame
    obtain ⟨start, isStart⟩ : ∃ start, start =
      (if frame.has kReset then m.coldReset frame else m).switchScreen
        (frame.has kAlternateScreen) := ⟨_, rfl⟩
    have screenOf : start.alternate = frame.has kAlternateScreen := by
      rw [isStart]
      exact alternate_switchScreen _ _
    have top : start.screenTop = if frame.has kReset then frame.previousTop else m.screenTop := by
      rw [isStart, screenTop_switchScreen]
      split <;> rfl
    rw [← isStart] at before
    dsimp only
    rw [← isStart]
    have framed : (∃ above screen, (start.frameRows frame).1.Splits above screen) ∧
        (start.frameRows frame).1.alternate = frame.has kAlternateScreen := by
      cases alternate : frame.has kAlternateScreen with
      | true =>
        obtain ⟨rows, still⟩ := before.alternateFrame (screenOf.trans alternate) frame
        exact ⟨⟨_, _, rows⟩, still⟩
      | false =>
        refine before.primaryFrame (screenOf.trans alternate) bounds ?_
        have leads := leads.resolve_left (by rw [alternate]; exact Bool.false_ne_true)
        rw [top]
        cases reset : frame.has kReset with
        | true =>
          rw [reset, if_pos rfl] at leads
          exact ⟨rfl, fun up => absurd up leads⟩
        | false =>
          rw [reset, if_neg Bool.false_ne_true, splits.rowsAbove_eq] at leads
          rw [if_neg Bool.false_ne_true, (warm reset).1]
          exact leads
    obtain ⟨⟨_, _, rows⟩, still⟩ := framed
    have placed : ((start.frameRows frame).1.placeCursor frame).Splits _ _ :=
      ⟨rows.primary, rows.size, rows.scroll, rows.shows⟩
    obtain ⟨⟨_, announced⟩, kept⟩ := placed.announce frame
    refine ⟨⟨_, _, announced.primary, announced.size, announced.scroll, announced.shows⟩, ?_⟩
    exact (kept.trans still).symm
  · exact sound

/-! ### Rules, pages and fills -/

/-- The rows, the gaps and the screen are the same. -/
theorem Splits.of_same {m' : Mirror} (splits : m.Splits above screen) (lines : m'.lines = m.lines)
    (trim : m'.trimTotal = m.trimTotal) (history : m'.history.gaps = m.history.gaps)
    (first : m'.history.firstLine = m.history.firstLine) (top : m'.screenTop = m.screenTop)
    (screenLines : m'.screenLines = m.screenLines) (alternate : m'.alternate = m.alternate)
    (stash : m'.primaryStash = m.primaryStash)
    (stashLines : m'.primaryStashScreenLines = m.primaryStashScreenLines) :
    m'.Splits above screen := by
  obtain ⟨rows, size, scroll, shows⟩ := splits
  refine ⟨?_, ?_, ?_, top ▸ shows⟩
  · rw [← rows, Mirror.primary, Mirror.primary, lines, alternate, stash]
  · rw [size, primaryScreenLines, primaryScreenLines, screenLines, alternate, stashLines]
  · rw [trim, history, first, top]
    exact scroll

theorem sound_hostEnded (sound : m.Sound) {ended : HostEnd}
    (here : m.endIgnored ended = false → m.alternate = false) (reason : List UInt8) :
    (m.hostEnded ended reason).Sound := by
  obtain ⟨⟨above, screen, splits⟩, same⟩ := sound
  unfold hostEnded
  split
  · exact ⟨⟨above, screen, splits⟩, same⟩
  next draws =>
    have primary := here (Bool.eq_false_of_not_eq_true draws)
    have rows : { m with running := false, linkDown := ended == HostEnd.linkLost }.Splits above screen :=
      splits.of_same rfl rfl rfl rfl rfl rfl rfl rfl rfl
    exact ⟨⟨_, screen, rows.insertHostRule primary _⟩, same⟩

/-- A page goes before the first row. -/
theorem sound_prependHostHistory (sound : m.Sound) (first : UInt64) (lines : List TerminalLine) :
    (m.prependHostHistory first lines).Sound := by
  obtain ⟨⟨above, screen, splits⟩, same⟩ := sound
  have answered : { m with history := { m.history with inFlight := false } }.Splits above screen :=
    splits.of_same rfl rfl rfl rfl rfl rfl rfl rfl rfl
  unfold prependHostHistory
  dsimp only
  split
  · exact ⟨⟨above, screen, splits.of_same rfl rfl rfl rfl rfl rfl rfl rfl rfl⟩, same⟩
  split
  · exact ⟨⟨above, screen, answered⟩, same⟩
  next nonempty fits =>
    simp only [Bool.or_eq_true, bne_iff_ne, decide_eq_true_eq, not_or, not_not,
      Bool.not_eq_true] at fits
    obtain ⟨⟨primary, ends⟩, room⟩ := fits
    obtain ⟨rows, size, ⟨follows, endsAbove, marks⟩, shows⟩ := splits
    have here : m.alternate = false := same ▸ primary
    have page := showsLines_pageRows first lines
    have leads : endOf first (pageRows first lines) = m.history.firstLine := by
      rw [page.endOf_eq, length_pageRows]
      exact ends
    have fewer : m.trimTotal - lines.length + lines.length = m.trimTotal := by omega
    refine ⟨⟨pageRows first lines ++ above, screen, ?_, ?_, ⟨?_, ?_, ?_⟩, shows⟩, same⟩
    · rw [Mirror.primary, here] at rows ⊢
      rw [if_neg Bool.false_ne_true] at rows ⊢
      rw [append_assoc, ← rows]
    · exact size
    · exact follows_append.mpr ⟨page.follows, leads.symm ▸ follows⟩
    · rw [endOf_append, leads]
      exact endsAbove
    · have none : rulesFrom (m.trimTotal - lines.length) (pageRows first lines) = [] :=
        marksFrom_of_unmarked page.unmarked
      rw [Marks, rulesFrom_append, none, length_pageRows, fewer]
      exact marks

theorem shiftBelow_older {row added : Nat} {gaps : List HostGap}
    (above : ∀ gap ∈ gaps, gap.row ≤ row) : gaps.map (shiftBelow row added) = gaps :=
  (map_congr_left fun gap held => if_neg (Nat.not_lt.mpr (above gap held))).trans
    (map_id gaps)

theorem shiftBelow_newer {row added : Nat} {gaps : List HostGap}
    (below : ∀ gap ∈ gaps, row < gap.row) : (gaps.map (shiftBelow row added)).map mark =
      (gaps.map mark).map fun mark => (mark.1 + added, mark.2) := by
  rw [map_map, map_map]
  refine map_congr_left fun gap held => ?_
  simp only [Function.comp_apply, shiftBelow, if_pos (below gap held)]
  rfl

theorem gaps_recordRowShift (history : TerminalHostHistory) (row added : Nat) :
    (history.recordRowShift row added).gaps = history.gaps ∧
      (history.recordRowShift row added).firstLine = history.firstLine := by
  unfold TerminalHostHistory.recordRowShift
  split <;> exact ⟨rfl, rfl⟩

/-- Where the filled gap's rule is, and what the gaps around it are the rules of. -/
theorem Splits.gap (splits : m.Splits above screen) {older newer : List HostGap} {gap : HostGap}
    (gaps : m.history.gaps = older ++ gap :: newer) :
    ∃ before rule after, above = before ++ rule :: after ∧ rule.mark = some gap.count ∧
      gap.row = m.trimTotal + before.length ∧
      older.map mark = rulesFrom m.trimTotal before ∧
      newer.map mark = rulesFrom (gap.row + 1) after ∧
      m.history.hostIndexOfRow gap.row m.trimTotal = endOf m.history.firstLine before := by
  have marks := splits.scroll.marks
  have apart : rulesFrom m.trimTotal above =
      older.map mark ++ (gap.row, gap.count) :: newer.map mark := by
    rw [← marks, gaps, map_append, map_cons]
    rfl
  obtain ⟨before, rule, after, rfl, marked, place, olderMarks, newerMarks⟩ := marksFrom_split apart
  refine ⟨before, rule, after, rfl, marked, place, olderMarks.symm, newerMarks.symm, ?_⟩
  have inside : before.length ≤ (before ++ rule :: after).length := by simp
  rw [place, hostIndexOfRow_eq marks inside, take_left]

theorem sound_fill (sound : m.Sound) {older newer : List HostGap} {gap : HostGap}
    (gaps : ∃ found, m.history.gaps = older ++ found :: newer ∧ gap.mark = found.mark)
    {first : UInt64} {lines : List TerminalLine} (some : lines ≠ [])
    (primary : m.useAlternateScreen = false)
    (ends : first + UInt64.ofNat lines.length =
      m.history.hostIndexOfRow gap.row m.trimTotal + gap.count)
    (room : lines.length ≤ gap.count.toNat) : (m.fill older newer gap first lines).Sound := by
  obtain ⟨⟨above, screen, splits⟩, same⟩ := sound
  obtain ⟨found, isFound, sameMark⟩ := gaps
  obtain ⟨sameRow, sameCount⟩ := Prod.mk.inj sameMark
  obtain ⟨before, rule, after, rfl, marked, place, olderMarks, newerMarks, index⟩ :=
    splits.gap isFound
  rw [← sameRow] at place newerMarks index
  rw [← sameCount] at marked
  have here : m.alternate = false := same ▸ primary
  have scroll := splits.scroll
  have held : m.lines = before ++ rule :: after ++ screen := by
    have rows := splits.primary
    rw [Mirror.primary, here] at rows
    exact rows
  have at_ : gap.row - m.trimTotal = before.length := by omega
  have ruleOf : (m.lines[before.length]?).getD ⟨{}, .note⟩ = rule := by
    rw [held]
    simp
  obtain ⟨start, isStart⟩ : ∃ start, start = endOf m.history.firstLine before := ⟨_, rfl⟩
  have label : ∀ index ∈ rule.label, index = start := by
    rw [isStart]
    exact (follows_append.mp scroll.follows).2.1
  -- a gap with room for a line is not a note
  obtain ⟨line, from_, rfl⟩ : ∃ line from_, rule = ⟨line, .withheld from_ gap.count⟩ := by
    obtain ⟨line, shows⟩ := rule
    cases shows with
    | line index => cases marked
    | withheld from_ count =>
      obtain rfl : count = gap.count := Option.some.inj marked
      exact ⟨line, from_, rfl⟩
    | note =>
      have none : 0 = gap.count := Option.some.inj marked
      rw [← none] at room
      exact absurd (length_eq_zero_iff.mp (Nat.le_zero.mp room)) some
  obtain rfl : from_ = start := label _ rfl
  rw [index, ← isStart] at ends
  obtain ⟨rows, isRows⟩ : ∃ rows, rows =
    fillRows ⟨line, .withheld from_ gap.count⟩ gap first lines := ⟨_, rfl⟩
  have page := showsLines_pageRows first lines
  have many : 0 < lines.length := length_pos_iff.mpr some
  have replaced : Follows from_ rows ∧ endOf from_ rows = from_ + gap.count ∧ 0 < rows.length ∧
      (fillGaps gap lines).map mark = rulesFrom gap.row rows := by
    rw [isRows]
    unfold fillRows fillGaps
    by_cases all : lines.length = gap.count.toNat
    · rw [if_pos all, if_pos all]
      have firstOf : first = from_ := by
        rw [all, UInt64.ofNat_toNat] at ends
        grind
      refine ⟨firstOf ▸ page.follows, ?_, by rw [length_pageRows]; exact many, ?_⟩
      · rw [← firstOf, page.endOf_eq, length_pageRows, ends, firstOf]
      · exact (marksFrom_of_unmarked page.unmarked).symm
    · rw [if_neg all, if_neg all]
      have firstOf : from_ + (gap.count - UInt64.ofNat lines.length) = first := by grind
      refine ⟨⟨by rintro _ ⟨⟩; rfl, ?_⟩, ?_, Nat.succ_pos _, ?_⟩
      · exact firstOf.symm ▸ page.follows
      · change endOf (from_ + (gap.count - UInt64.ofNat lines.length)) (pageRows first lines) = _
        rw [firstOf, page.endOf_eq, length_pageRows, ends]
      · have none : rulesFrom (gap.row + 1) (pageRows first lines) = [] :=
          marksFrom_of_unmarked page.unmarked
        rw [rulesFrom_cons, none]
        rfl
  obtain ⟨follows, endsRows, nonempty, kept⟩ := replaced
  have olderAbove : ∀ other ∈ older ++ fillGaps gap lines, other.row ≤ gap.row := by
    intro other held
    rcases mem_append.mp held with early | own
    · have mem : other.mark ∈ rulesFrom m.trimTotal before :=
        olderMarks ▸ mem_map_of_mem early
      have range : other.row < m.trimTotal + before.length := (marksFrom_range _ mem).2
      omega
    · unfold fillGaps at own
      split at own
      · cases own
      · rw [mem_singleton.mp own]
  have newerBelow : ∀ other ∈ newer, gap.row < other.row := by
    intro other held
    have mem : other.mark ∈ rulesFrom (gap.row + 1) after := newerMarks ▸ mem_map_of_mem held
    exact (marksFrom_range _ mem).1
  obtain ⟨moved, isMoved⟩ : ∃ moved, moved = newer.map (shiftBelow gap.row (rows.length - 1)) :=
    ⟨_, rfl⟩
  have movedMarks : moved.map mark =
      rulesFrom (m.trimTotal + before.length + rows.length) after := by
    have down : m.trimTotal + before.length + rows.length = gap.row + 1 + (rows.length - 1) := by
      omega
    rw [isMoved, shiftBelow_newer newerBelow, newerMarks, down]
    exact (marksFrom_shift _ _ _).symm
  have filled := scroll.replace (isStart ▸ follows) (isStart ▸ endsRows) olderMarks (place ▸ kept)
    movedMarks
  unfold fill
  simp only [at_, ruleOf, ← isRows]
  obtain ⟨gapsKept, firstKept⟩ := gaps_recordRowShift { m.history with
    gaps := (older ++ fillGaps gap lines ++ newer).map (shiftBelow gap.row (rows.length - 1)) }
    gap.row (rows.length - 1)
  refine ⟨⟨before ++ rows ++ after, screen, ?_, ?_, ?_, splits.shows⟩, same⟩
  · rw [Mirror.primary, here, held]
    simp
  · exact splits.size
  · rw [gapsKept, firstKept]
    rw [map_append, shiftBelow_older olderAbove, ← isMoved]
    exact filled

theorem sound_fillHostGap (sound : m.Sound) (gapId : Nat) (before first : UInt64)
    (lines : List TerminalLine) : (m.fillHostGap gapId before first lines).Sound := by
  obtain ⟨⟨above, screen, splits⟩, same⟩ := sound
  have apart := takeWhile_append_dropWhile (p := fun gap : HostGap => gap.id ≠ gapId)
    (l := m.history.gaps)
  unfold fillHostGap
  rw [span_eq_takeWhile_dropWhile]
  split
  · exact ⟨⟨above, screen, splits⟩, same⟩
  next older found newer cut =>
    obtain ⟨rfl, rest⟩ := Prod.mk.inj cut
    rw [rest] at apart
    have marks := splits.scroll.marks
    -- the answer changes no row of a gap and no count
    have answered (gap : HostGap) (mark : gap.mark = found.mark) :
        { m with history := { m.history with
          gaps := m.history.gaps.takeWhile (fun gap : HostGap => gap.id ≠ gapId) ++
            gap :: newer } }.Sound := by
      refine ⟨⟨above, screen, splits.primary, splits.size, ⟨splits.scroll.follows,
        splits.scroll.ends, ?_⟩, splits.shows⟩, same⟩
      rw [Marks, map_append, map_cons, mark, ← map_cons, ← map_append, apart]
      exact marks
    dsimp only
    split
    · exact answered _ rfl
    split
    · exact answered _ rfl
    next some fits =>
      simp only [Bool.or_eq_true, bne_iff_ne, decide_eq_true_eq, not_or, not_not,
        Bool.not_eq_true, Nat.not_lt] at fits
      obtain ⟨⟨⟨primary, _⟩, ends⟩, room⟩ := fits
      have gaps : ∃ held, m.history.gaps = m.history.gaps.takeWhile
          (fun gap : HostGap => gap.id ≠ gapId) ++ held :: newer ∧
          mark { found with fillInFlight := false } = held.mark := ⟨found, apart.symm, rfl⟩
      refine sound_fill ⟨⟨above, screen, splits⟩, same⟩ gaps ?_ primary ends room
      simpa using some

/-! ### Runs -/

end Mirror

/-- A frame within the protocol's bounds, as the decoder answers it. -/
abbrev HostFrame := { frame : TerminalHostFrame // frame.InBounds }

inductive MirrorEvent where
  | frame (frame : HostFrame)
  | ended (ended : HostEnd) (reason : List UInt8)
  | reattach (channel : Bool)
  | noteReattached
  | detach
  | page (first : UInt64) (lines : List TerminalLine)
  | fill (gapId : Nat) (before first : UInt64) (lines : List TerminalLine)
  | limit (maxLines : Nat)

namespace Mirror

variable {m : Mirror}

def step (m : Mirror) : MirrorEvent → Mirror
  | .frame frame => (m.applyHostFrame frame.val).1
  | .ended ended reason => m.hostEnded ended reason
  | .reattach channel => m.reattachHost channel
  | .noteReattached => m.noteHostReattached
  | .detach => m.detachFromHost
  | .page first lines => m.prependHostHistory first lines
  | .fill gapId before first lines => m.fillHostGap gapId before first lines
  | .limit maxLines => m.setMaxScrollbackLines maxLines

/-- The limit is the one in force, or the rows are no quarter over it. -/
def WithinLimit (m : Mirror) (maxLines : Nat) : Prop :=
  let limit := min (max maxLines 200) 100000
  let held := if m.useAlternateScreen then max 1 m.rows else limit + max 1 m.rows
  m.maxScrollbackLines = limit ∨ m.lines.length < held + held / 4 + 1

/-- The events that keep the map: frames that lead on, rules on the primary screen, limits that
trim nothing. -/
def Careful (m : Mirror) : MirrorEvent → Prop
  | .frame frame => m.attached = true → m.Leads frame.val
  | .ended ended _ => m.endIgnored ended = false → m.alternate = false
  | .limit maxLines => m.WithinLimit maxLines
  | _ => True

theorem sound_step (sound : m.Sound) {event : MirrorEvent} (careful : m.Careful event) :
    (m.step event).Sound := by
  obtain ⟨⟨above, screen, splits⟩, same⟩ := sound
  have sound : m.Sound := ⟨⟨above, screen, splits⟩, same⟩
  cases event with
  | frame frame => exact sound_applyHostFrame sound frame.property careful
  | ended ended reason => exact sound_hostEnded sound careful reason
  | reattach channel =>
    exact ⟨⟨above, screen, splits.of_same rfl rfl rfl rfl rfl rfl rfl rfl rfl⟩, same⟩
  | noteReattached =>
    exact ⟨⟨above, screen, splits.of_same rfl rfl rfl rfl rfl rfl rfl rfl rfl⟩, same⟩
  | detach =>
    change m.detachFromHost.Sound
    unfold detachFromHost
    split
    · exact ⟨⟨above, screen, splits.of_same rfl rfl rfl rfl rfl rfl rfl rfl rfl⟩, same⟩
    · exact sound
  | page first lines => exact sound_prependHostHistory sound first lines
  | fill gapId before first lines => exact sound_fillHostGap sound gapId before first lines
  | limit maxLines =>
    change (m.setMaxScrollbackLines maxLines).Sound
    unfold setMaxScrollbackLines
    dsimp only
    split
    · exact sound
    next changed =>
      unfold trimScrollback
      rw [if_pos (careful.resolve_left changed)]
      exact ⟨⟨above, screen, splits.of_same rfl rfl rfl rfl rfl rfl rfl rfl rfl⟩, same⟩

/-- A run whose events are all careful. -/
inductive CarefulRun : Mirror → Prop where
  | start : CarefulRun start
  | step {m : Mirror} {event : MirrorEvent} : CarefulRun m → m.Careful event →
      CarefulRun (m.step event)

theorem sound_run (run : CarefulRun m) : m.Sound := by
  induction run with
  | start => exact sound_start
  | step _ careful ih => exact sound_step ih careful

/-- The gap is the primary buffer's rule row at its row. -/
def NamesRule (m : Mirror) (gap : HostGap) : Prop :=
  ∃ k row, m.primary[k]? = some row ∧ gap.row = m.trimTotal + k ∧ row.mark = some gap.count

/-- The map answers the host line a primary row shows, of a rule the first it withholds. -/
def MapsRow (m : Mirror) (k : Nat) : Prop :=
  ∀ row ∈ m.primary[k]?, ∀ index ∈ row.label,
    m.history.hostIndexOfRow (m.trimTotal + k) m.trimTotal = index

/-- In every careful run the gaps ascend, each is a rule row of the primary buffer, the map
answers what every primary row shows, and `firstLine` is the index of the first. -/
theorem rowMap_exact {m : Mirror} (run : CarefulRun m) :
    (m.history.gaps.Pairwise fun a b => a.row < b.row) ∧
      (∀ gap ∈ m.history.gaps, m.NamesRule gap) ∧ (∀ k, m.MapsRow k) ∧
      m.history.hostIndexOfRow m.trimTotal m.trimTotal = m.history.firstLine := by
  obtain ⟨above, screen, rows, size, ⟨follows, ends, marks⟩, shows⟩ := (sound_run run).splits
  have all : Marks m.trimTotal (above ++ screen) m.history.gaps := by
    have none : rulesFrom (m.trimTotal + above.length) screen = [] :=
      marksFrom_of_unmarked shows.unmarked
    rw [Marks, rulesFrom_append, none, append_nil, marks]
  have followsAll : Follows m.history.firstLine (above ++ screen) :=
    follows_append.mpr ⟨follows, ends.symm ▸ shows.follows⟩
  refine ⟨all.sorted, ?_, ?_, ?_⟩
  · intro gap held
    have mem : (gap.row, gap.count) ∈ rulesFrom m.trimTotal (above ++ screen) :=
      all ▸ mem_map_of_mem held
    obtain ⟨k, row, at_, marked, place⟩ := mem_marksFrom.mp mem
    exact ⟨k, row, rows ▸ at_, place, marked⟩
  · intro k row at_ index label
    rw [rows] at at_
    have inside := (List.getElem?_eq_some_iff.mp at_).1
    rw [hostIndexOfRow_eq all (Nat.le_of_lt inside)]
    exact (followsAll.label_eq at_ label).symm
  · have zero := hostIndexOfRow_eq all (Nat.zero_le (above ++ screen).length)
    rw [Nat.add_zero] at zero
    exact zero

/-! ### What the other events do to the map -/

instance decidableMapsRow (m : Mirror) (k : Nat) : Decidable (m.MapsRow k) :=
  have (row : MirrorRow) : Decidable (∀ index ∈ row.label,
      m.history.hostIndexOfRow (m.trimTotal + k) m.trimTotal = index) :=
    Option.decidableForallMem row.label
  Option.decidableForallMem m.primary[k]?

/-- A frame of `lines` blank lines above `rows` blank screen rows. -/
def blankFrame (flags : UInt16) (previousTop screenTop : UInt64) (lines : List TerminalHostRun)
    (count rows : Nat) : TerminalHostFrame where
  flags := flags
  previousTop := previousTop
  screenTop := screenTop
  scrollback := lines
  scrollbackLines := List.replicate count {}
  screenKeep := List.replicate rows false
  screenLines := List.replicate rows {}

theorem blankFrame_inBounds {flags : UInt16} {previousTop screenTop : UInt64}
    {lines : List TerminalHostRun} {count rows : Nat} (counted : ∀ run ∈ lines, run.count ≠ 0)
    (covers : coveredLines lines = (blankFrame flags previousTop screenTop lines count rows).moved.toNat)
    (promoted : runLines .promote lines = 0) (sent : count = runLines .lines lines)
    (few : rows ≤ 24) : (blankFrame flags previousTop screenTop lines count rows).InBounds where
  header := ⟨⟨(by decide : 1 ≤ 24), (by decide : 24 ≤ 4096)⟩,
    ⟨(by decide : 1 ≤ 80), (by decide : 80 ≤ 4096)⟩, (by decide : (0 : UInt32) < 24),
    (by decide : (0 : UInt32) < 80)⟩
  scrollback :=
    { counted := counted
      covers := covers
      promoted := promoted ▸ Nat.zero_le _
      lines := by
        have size : (List.replicate count ({} : TerminalLine)).length = count :=
          length_replicate
        exact size.trans sent
      each := by
        intro line held
        rw [eq_of_mem_replicate held]
        exact Nat.zero_le _ }
  screen :=
    { rows := by
        have size : (List.replicate rows false).length = rows := length_replicate
        exact size.trans_le few
      lines := by simp [blankFrame]
      each := by
        intro line held
        rw [eq_of_mem_replicate held]
        exact Nat.zero_le _ }
  signals :=
    { title := by rintro _ ⟨⟩
      workingDirectory := by rintro _ ⟨⟩
      clipboard := by rintro _ ⟨⟩
      notification := by rintro _ ⟨⟩
      openUrl := by rintro _ ⟨⟩
      links := Nat.zero_le _
      link := by rintro _ ⟨⟩ }

/-- A cold frame of two rows from line 100, and one for the alternate screen. -/
def coldFrame : HostFrame := ⟨blankFrame 0x280 100 100 [] 0 2,
  blankFrame_inBounds (by rintro _ ⟨⟩) (by decide) rfl rfl (by decide)⟩

def alternateFrame : HostFrame := ⟨blankFrame 0x81 100 100 [] 0 2,
  blankFrame_inBounds (by rintro _ ⟨⟩) (by decide) rfl rfl (by decide)⟩

/-- The screen two lines taller. -/
def tallerFrame : HostFrame := ⟨blankFrame 0x80 100 98 [] 0 4,
  blankFrame_inBounds (by rintro _ ⟨⟩) (by decide) rfl rfl (by decide)⟩

/-- A cold frame with 300 lines of history. -/
def longFrame : HostFrame := ⟨blankFrame 0x280 100 400 [⟨.lines, 300⟩] 300 1,
  blankFrame_inBounds (by simp) (by decide) rfl (by decide) (by decide)⟩

def ranBy (events : List MirrorEvent) : Mirror := events.foldl step start

/-- A cold frame, and the link lost over it. -/
theorem rowMap_exact_cold :
    ((ranBy [.frame coldFrame, .ended .linkLost []]).history.gaps.Pairwise fun a b =>
        a.row < b.row) ∧
      (∀ gap ∈ (ranBy [.frame coldFrame, .ended .linkLost []]).history.gaps,
        (ranBy [.frame coldFrame, .ended .linkLost []]).NamesRule gap) ∧
      (∀ k, (ranBy [.frame coldFrame, .ended .linkLost []]).MapsRow k) ∧
      (ranBy [.frame coldFrame, .ended .linkLost []]).history.hostIndexOfRow
          (ranBy [.frame coldFrame, .ended .linkLost []]).trimTotal
          (ranBy [.frame coldFrame, .ended .linkLost []]).trimTotal =
        (ranBy [.frame coldFrame, .ended .linkLost []]).history.firstLine := by
  have leads : start.Leads coldFrame.val := by
    have cold : coldFrame.val.has kReset = true := by decide
    have down : ¬ coldFrame.val.screenTop < coldFrame.val.previousTop := by decide
    refine .inr ?_
    rw [if_pos cold]
    exact down
  have framed : CarefulRun (start.step (.frame coldFrame)) := .step .start fun _ => leads
  have careful : (start.step (.frame coldFrame)).Careful (.ended .linkLost []) := fun _ => by decide
  have lost : CarefulRun (ranBy [.frame coldFrame, .ended .linkLost []]) :=
    .step framed careful
  exact rowMap_exact lost

/-- A link lost over the alternate screen leaves a gap where the primary buffer has no rule, and
every row below off by one; a screen grown past the mirror, and a lowered limit, leave
`firstLine` behind. -/
theorem rowMap_loses :
    (let m := ranBy [.frame coldFrame, .frame alternateFrame, .ended .linkLost []];
      m.history.gaps.map (fun gap => gap.row - m.trimTotal) = [0] ∧
        m.primary.map (·.shows) = [.line 100, .line 101] ∧ ¬ m.MapsRow 1) ∧
    (let m := ranBy [.frame coldFrame, .frame tallerFrame];
      m.history.firstLine = 100 ∧ m.primary.head?.map (·.shows) = some (.line 98) ∧
        ¬ m.MapsRow 0) ∧
    (let m := ranBy [.frame longFrame, .limit 200];
      m.history.firstLine = 100 ∧ m.primary.head?.map (·.shows) = some (.line 177) ∧
        ¬ m.MapsRow 0) := by
  decide +kernel

end Mirror

end Microide.Terminal
